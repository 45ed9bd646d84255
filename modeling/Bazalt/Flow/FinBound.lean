import Bazalt.Flow.FirstSeen
import Bazalt.Flow.OooLimits

/-!
# Bytes past a FIN

Truncation at a FIN looks at the arriving payload only.  A segment that is already buffered
across the position where a FIN is marked is emitted whole later on, and so is an old payload
that is emitted again just before the FIN.  When neither happens, no call emits a byte at or
above its pending FIN, and a FIN that is valid stays where it is.
-/

namespace Bazalt.Flow

open Lib OrdMap

theorem TcpHalf.Waits.of_lt {h : TcpHalf} {n f : ℕ} (hpend : h.pendingFin = some f) (hlt : n < f) :
    h.Waits n := by
  intro _ f' hf'
  obtain rfl := Option.some.inj (hpend.symm.trans hf')
  exact .inl hlt

namespace Pass

/-- Up to `f` and not further: `b` is the distance from stream offsets to sequence positions,
and a buffered segment that starts at `f` is not the next one. -/
structure Capped (w : Pass) (b f : ℕ) : Prop where
  emitted : ∀ chunk ∈ w.out.emitted, b + chunk.offset + chunk.data.length ≤ f
  offset : b + w.half.streamOffset ≤ f
  next : w.half.finConsumed = false → w.half.nextAbs = some (b + w.half.streamOffset)
  apart : w.half.finConsumed = false → ∀ e ∈ w.half.outOfOrder.entries,
    e.1 + e.2.data.length ≤ f ∨ f < e.1 ∨
      f = e.1 ∧ w.half.FinValid f ∧ b + w.half.streamOffset < f

/-- `consumeFinIfReady` closes the half before a segment that starts at a valid FIN is next. -/
theorem consumeFinIfReady_capped {w : Pass} {n b f : ℕ} (h : w.half.Sound n)
    (hpend : w.half.pendingFin = some f)
    (hemitted : ∀ chunk ∈ w.out.emitted, b + chunk.offset + chunk.data.length ≤ f)
    (hoffset : b + w.half.streamOffset ≤ f)
    (hnext : w.half.finConsumed = false → w.half.nextAbs = some (b + w.half.streamOffset))
    (hapart : w.half.finConsumed = false → ∀ e ∈ w.half.outOfOrder.entries,
      e.1 + e.2.data.length ≤ f ∨ f < e.1 ∨ f = e.1 ∧ w.half.FinValid f) :
    w.consumeFinIfReady.Capped b f := by
  rcases consumeFinIfReady_waits h with ⟨f', -, -, -, heq⟩ | ⟨heq, hwaits⟩
  · rw [heq]
    exact ⟨hemitted, hoffset, fun hopen ↦ (by cases hopen), fun hopen ↦ (by cases hopen)⟩
  · rw [heq]
    refine ⟨hemitted, hoffset, hnext, fun hopen e he ↦ ?_⟩
    refine (hapart hopen e he).imp_right (Or.imp_right ?_)
    rintro ⟨hef, hvalid⟩
    refine ⟨hef, hvalid, ?_⟩
    obtain rfl := h.next_unique (hnext hopen)
    rcases hwaits hopen f hpend with hlt | ⟨-, hnot⟩
    · exact hlt
    · exact absurd hvalid hnot

theorem Move.capped {w w' : Pass} (hm : Move w w') {n b f : ℕ} (h : w.half.Sound n)
    (hpend : w.half.pendingFin = some f) (hc : w.Capped b f) : w'.Capped b f := by
  have hmax := h.fin_le f hpend
  cases hm with
  | @chunk k segment hfin hnext hfirst =>
      obtain ⟨m, hs⟩ := (Micro.chunk hfin hnext hfirst).sound_of h
      have hk : k = b + w.half.streamOffset := Option.some.inj (hnext.symm.trans (hc.next hfin))
      have hoff := hc.offset
      -- the segment is next, so it ends at or before `f`
      have hend : k + segment.data.length ≤ f := by
        rcases hc.apart hfin _ (mem_of_first? hfirst) with hend | hlt | ⟨heq, -, hlt⟩
        · exact hend
        · simp only at hlt
          omega
        · simp only at heq
          omega
      have hsum : satAdd w.half.streamOffset segment.data.length =
          w.half.streamOffset + segment.data.length := satAdd_of_le (by omega)
      refine consumeFinIfReady_capped hs hpend ?_ ?_ (fun _ ↦ ?_) (fun _ e he ↦ ?_)
      · intro chunk hchunk
        rcases List.mem_append.mp hchunk with hchunk | hchunk
        · exact hc.emitted chunk hchunk
        · obtain rfl := List.mem_singleton.mp hchunk
          change b + w.half.streamOffset + segment.data.length ≤ f
          omega
      · change b + satAdd w.half.streamOffset segment.data.length ≤ f
        omega
      · change (w.half.nextAbs.map (satAdd · segment.data.length)) =
          some (b + satAdd w.half.streamOffset segment.data.length)
        rw [hnext, hsum, Option.map_some, satAdd_of_le (by omega)]
        congr 1
        omega
      · refine (hc.apart hfin e (List.mem_of_mem_tail he)).imp_right (Or.imp_right ?_)
        exact fun hvalid ↦ ⟨hvalid.1, hvalid.2.1⟩
  | @drop k j segment hfin hnext hfirst hle =>
      exact ⟨hc.emitted, hc.offset, hc.next, fun _ e he ↦ hc.apart hfin e (List.mem_of_mem_tail he)⟩
  | @gap k target hfin hnext hlt hclip hahead hland =>
      obtain ⟨m, hs⟩ := (Micro.gap hfin hnext hlt hclip hahead hland).sound_of h
      have hk : k = b + w.half.streamOffset := Option.some.inj (hnext.symm.trans (hc.next hfin))
      have htarget := hclip f hpend
      have hsum : satAdd w.half.streamOffset (target - k) = w.half.streamOffset + (target - k) :=
        satAdd_of_le (by omega)
      refine consumeFinIfReady_capped hs hpend hc.emitted ?_ (fun _ ↦ ?_) (fun _ e he ↦ ?_)
      · change b + satAdd w.half.streamOffset (target - k) ≤ f
        omega
      · change some target = some (b + satAdd w.half.streamOffset (target - k))
        congr 1
        omega
      · refine (hc.apart hfin e he).imp_right (Or.imp_right ?_)
        exact fun hvalid ↦ ⟨hvalid.1, hvalid.2.1⟩
  | fin =>
      refine consumeFinIfReady_capped h hpend hc.emitted hc.offset hc.next fun hopen e he ↦ ?_
      refine (hc.apart hopen e he).imp_right (Or.imp_right ?_)
      exact fun hvalid ↦ ⟨hvalid.1, hvalid.2.1⟩
  | stamp ts => exact ⟨hc.emitted, hc.offset, hc.next, hc.apart⟩

theorem Trail.capped {w w' : Pass} (ht : Trail w w') {n b f : ℕ} (h : w.half.Sound n)
    (hpend : w.half.pendingFin = some f) (hc : w.Capped b f) : w'.Capped b f := by
  induction ht with
  | refl => exact hc
  | tail ht hm ih =>
      obtain ⟨m, -, hs⟩ := Trail.sound ht h
      exact hm.capped hs ((Trail.path ht).frame.1.trans hpend) ih

/-- A stored payload that ends at or before the FIN, also when it is emitted again. -/
theorem Stores.capped {w w₁ : Pass} {n b f start tsNs : ℕ} {data : Bytes}
    (hs : Stores w n start tsNs data w₁) (h : w.half.Sound n) (hopen : w.half.finConsumed = false)
    (hmax : f ≤ u64Max) (hc : w.Capped b f) (hend : data ≠ [] → start + data.length ≤ f)
    (hreplay : data ≠ [] → start + data.length ≤ n → w.half.outOfOrder.entries = [] →
      n + data.length ≤ f) : w₁.Capped b f := by
  have hn : n = b + w.half.streamOffset := h.next_unique (hc.next hopen)
  -- a payload that goes straight out ends at or before the FIN
  have hpush : ∀ {w₀ : Pass} {out : Bytes}, w₀.half = w.half → w₀.out.emitted = w.out.emitted →
      w.half.outOfOrder.entries = [] → n + out.length ≤ f → (w₀.push out tsNs).Capped b f := by
    intro w₀ out hhalf hout hempty hle
    have hsum : satAdd w.half.streamOffset out.length = w.half.streamOffset + out.length :=
      satAdd_of_le (by omega)
    refine ⟨?_, ?_, fun _ ↦ ?_, fun _ e he ↦ ?_⟩
    · intro chunk hchunk
      rcases List.mem_append.mp hchunk with hchunk | hchunk
      · exact hc.emitted chunk (hout ▸ hchunk)
      · obtain rfl := List.mem_singleton.mp hchunk
        change b + w₀.half.streamOffset + out.length ≤ f
        rw [hhalf]
        omega
    · change b + satAdd w₀.half.streamOffset out.length ≤ f
      rw [hhalf]
      omega
    · change w₀.half.nextAbs.map (satAdd · out.length) =
        some (b + satAdd w₀.half.streamOffset out.length)
      rw [hhalf, h.next, Option.map_some, hsum, satAdd_of_le (by omega)]
      congr 1
      omega
    · change e ∈ w₀.half.outOfOrder.entries at he
      rw [hhalf, hempty] at he
      cases he
  cases hs with
  | nothing => exact hc
  | @buffer _ lo hne hcase hlo hins =>
      have hhalf := hins.half
      have hsat := satAdd_le_add start data.length
      have hend := hend hne
      refine ⟨?_, ?_, ?_, ?_⟩
      · rw [hins.out]
        exact hc.emitted
      · rw [hhalf]
        exact hc.offset
      · rw [hhalf]
        exact hc.next
      · intro _ e he
        rcases hins.adds e he with he | ⟨-, hhi⟩
        · rw [hhalf]
          exact hc.apart hopen e he
        · exact .inl (by omega)
  | direct hle hlt hempty hw₀ =>
      have hend := hend (by rintro rfl; simp at hlt; omega)
      rcases hw₀ with rfl | rfl
      · exact hpush rfl rfl hempty (by rw [List.length_drop]; omega)
      · exact hpush rfl rfl hempty (by rw [List.length_drop]; omega)
  | replay hne hle hempty => exact hpush rfl rfl hempty (hreplay hne hle hempty)

/-! ## An acknowledged FIN -/

/-- One round before an acknowledged FIN closes the half, or goes on with fewer segments. -/
theorem recoverKnownAckRound_closes {w : Pass} {n f ack : ℕ} (h : w.half.Sound n)
    (hpend : w.half.pendingFin = some f) (hpeer : w.half.peerAckAbs = some ack) (hfa : f < ack)
    (hnf : n < f) : (w.recoverKnownAckRound ack).1.half.finConsumed = true ∧
        (w.recoverKnownAckRound ack).2 = false ∨
      (w.recoverKnownAckRound ack).1.half.finConsumed = false ∧
        (w.recoverKnownAckRound ack).2 = true ∧
        (w.recoverKnownAckRound ack).1.half.outOfOrder.size < w.half.outOfOrder.size := by
  have hvalid : w.half.FinValid f := ⟨hpend, .inr (by simpa [TcpHalf.acked, hpeer] using hfa)⟩
  have hgapf := emitGapTo_valid h hnf hvalid
  unfold recoverKnownAckRound
  rw [h.next]
  simp only
  rw [if_neg (by omega)]
  cases hfirst : w.half.outOfOrder.first? with
  | none =>
      simp only [hpend]
      rw [if_pos ⟨hnf, hfa⟩]
      refine .inl ⟨?_, rfl⟩
      obtain ⟨ts, heq⟩ := (consumeFinIfReady_path (w.emitGapTo f)).of_closed hgapf
      simp only
      rw [heq]
      exact hgapf
  | some e =>
      obtain ⟨first, segment⟩ := e
      simp only
      by_cases hclip : f ≤ first
      · -- the gap stops at the FIN
        rw [if_pos (hnf.trans_le hclip), emitGapTo_clipped h hpend (le_min hclip hfa.le)]
        split_ifs with hreached
        · exact .inl ⟨hgapf, rfl⟩
        · rw [flushOoo_of_closed hgapf]
          exact .inl ⟨hgapf, by simp [hgapf]⟩
      · rw [min_eq_left (by omega)]
        have hprogress := round_progress h hfirst
          (fun f' hf' ↦ by
            obtain rfl := Option.some.inj (hpend.symm.trans hf')
            exact (not_le.mp hclip).le) rfl
        have hgap := gapToFirst_trail h hfirst le_rfl
        simp only at hprogress hgap
        generalize (if n < first then w.emitGapTo first else w) = gapped at hprogress hgap ⊢
        obtain ⟨m, -, hm⟩ := hgap.sound h
        have hflush := flushOoo_trail hm
        split_ifs with hreached
        · -- an open half has not passed the FIN
          refine .inl ⟨?_, rfl⟩
          by_contra hopen
          obtain ⟨next, hnext, hle⟩ := hreached
          obtain rfl := hm.next_unique hnext
          have := (hgap.waits h (.of_lt hpend hnf) hm).le (by simpa using hopen)
            (hgap.path.frame.1.trans hpend)
          omega
        · by_cases hclosed : gapped.flushOoo.half.finConsumed = true
          · exact .inl ⟨hclosed, by simp [hclosed]⟩
          · obtain ⟨hsame, hlt⟩ := hprogress.resolve_left hclosed
            have hless := hflush.path.bytes_lt hm (hsame ▸ hlt)
            have hopen : gapped.flushOoo.half.finConsumed = false := by simpa using hclosed
            refine .inr ⟨hopen, ?_, hlt⟩
            simp [hopen, hless.ne]

theorem recoverKnownAckLoop_closes {f ack : ℕ} (hfa : f < ack) (fuel : ℕ) : ∀ (w : Pass) (n : ℕ),
    w.half.Sound n → w.half.pendingFin = some f → w.half.peerAckAbs = some ack → n < f →
      w.half.outOfOrder.size < fuel → (recoverKnownAckLoop ack fuel w).half.finConsumed = true := by
  induction fuel with
  | zero => intro w n _ _ _ _ hfuel; omega
  | succ fuel ih =>
      intro w n h hpend hpeer hnf hfuel
      have htrail := recoverKnownAckRound_trail h ack
      have hround := recoverKnownAckRound_closes h hpend hpeer hfa hnf
      unfold recoverKnownAckLoop
      generalize w.recoverKnownAckRound ack = r at htrail hround ⊢
      obtain ⟨w', goes⟩ := r
      rcases hround with ⟨hclosed, rfl⟩ | ⟨hopen, rfl, hlt⟩
      · exact hclosed
      · obtain ⟨m, -, hm⟩ := htrail.sound h
        have hpend' : w'.half.pendingFin = some f := htrail.path.frame.1.trans hpend
        have hpeer' : w'.half.peerAckAbs = some ack := htrail.path.frame.2.1.trans hpeer
        have hmf : m < f := by
          rcases htrail.waits h (.of_lt hpend hnf) hm hopen f hpend' with hlt | ⟨-, hnot⟩
          · exact hlt
          · exact absurd ⟨hpend', .inr (by simpa [TcpHalf.acked, hpeer'] using hfa)⟩ hnot
        exact ih w' m hm hpend' hpeer' hmf (by simp only at hlt; omega)

/-- ACK recovery closes a half that has not reached its acknowledged FIN. -/
theorem recoverKnownAck_closes {w : Pass} {n f : ℕ} (h : w.half.Sound n)
    (hpend : w.half.pendingFin = some f) (hack : w.half.acked f = true) (hnf : n < f) :
    w.recoverKnownAck.half.finConsumed = true := by
  unfold recoverKnownAck
  unfold TcpHalf.acked at hack
  cases hpeer : w.half.peerAckAbs with
  | none => simp [hpeer] at hack
  | some ack =>
      simp only [hpeer, decide_eq_true_eq] at hack
      exact recoverKnownAckLoop_closes hack _ w n h hpend hpeer hnf (Nat.lt_succ_self _)

theorem Micro.finValid {w w' : Pass} (hs : Micro w w') {f : ℕ} (hv : w.half.FinValid f) :
    w'.half.FinValid f := by
  cases hs with
  | chunk => exact hv
  | drop => exact hv
  | gap => exact hv
  | close => exact ⟨hv.1, .inl rfl⟩
  | stamp ts => exact hv

theorem Path.finValid {w w' : Pass} (hp : Path w w') {f : ℕ} (hv : w.half.FinValid f) :
    w'.half.FinValid f := by
  induction hp with
  | refl => exact hv
  | tail _ hs ih => exact hs.finValid ih

/-- A half that comes to rest open has no acknowledged FIN, when the call went through ACK
recovery. -/
theorem Trail.unacked {w w' : Pass} {n n' f : ℕ} (h : w.half.Sound n)
    (ht : Trail w.recoverKnownAck w') (hi' : w'.half.Idle n') (hopen : w'.half.finConsumed = false)
    (hpend : w'.half.pendingFin = some f) : w'.half.acked f = false := by
  by_contra hack
  have hpath : Path w w' := (recoverKnownAck_trail h).path.trans (Trail.path ht)
  have hpend₀ : w.half.pendingFin = some f := hpath.frame.1.symm.trans hpend
  have hack₀ : w.half.acked f = true := by
    have hsame : w.half.acked f = w'.half.acked f := by
      unfold TcpHalf.acked
      rw [hpath.frame.2.1]
    rw [hsame]
    simpa using hack
  by_cases hnf : n < f
  · obtain ⟨ts, heq⟩ := (Trail.path ht).of_closed (recoverKnownAck_closes h hpend₀ hack₀ hnf)
    rw [heq] at hopen
    exact absurd (recoverKnownAck_closes h hpend₀ hack₀ hnf) (by simpa [stamp] using hopen)
  · obtain ⟨m, hle, hm⟩ := hpath.sound h
    obtain rfl := hm.next_unique hi'.sound.next
    rcases hi'.waits hopen f hpend with hlt | ⟨-, -, hno⟩
    · omega
    · exact hack (by simp [hno])

end Pass

namespace TcpHalf

/-! ## Marking a FIN -/

/-- The FIN of a segment becomes the marker. -/
def Marks (h : TcpHalf) (fin : Bool) (n start finish : ℕ) : Prop :=
  fin = true ∧ n ≤ finish ∧
    (h.pendingFin = none ∨ h.pendingFinRequiresAck = true ∧ start ≤ n)

instance (h : TcpHalf) (fin : Bool) (n start finish : ℕ) :
    Decidable (h.Marks fin n start finish) :=
  inferInstanceAs (Decidable (_ ∧ _ ∧ (_ ∨ _)))

/-- The FIN marker once a segment is there. -/
def marker (h : TcpHalf) (fin : Bool) (n start finish : ℕ) : Option ℕ :=
  if h.Marks fin n start finish then some finish else h.pendingFin

/-- A buffered segment lies across `finish`.  One that starts there is across a FIN that the
segment at `start` announces ahead and the peer has not acknowledged. -/
def Straddled (h : TcpHalf) (n start finish : ℕ) : Prop :=
  ∃ e ∈ h.outOfOrder.entries, finish < e.1 + e.2.data.length ∧
    (e.1 < finish ∨ e.1 = finish ∧ n < start ∧ h.acked finish = false)

instance (h : TcpHalf) (n start finish : ℕ) : Decidable (h.Straddled n start finish) :=
  inferInstanceAs (Decidable (∃ e ∈ h.outOfOrder.entries, _ ∧ _))

/-- A call marks no FIN that a buffered segment lies across, emits no old payload again over
its FIN marker, and with a FIN marker stays below the top of the sequence space. -/
def FinRespected (h : TcpHalf) : Call → Prop
  | .accept seq syn fin _ data _ =>
      let h := h.observe seq syn
      ∀ n ∈ h.nextAbs, h.finConsumed = false →
        let start := extendSeq (payloadSeq seq syn) n
        let finish := satAdd start data.length
        (h.Marks fin n start finish → ¬ h.Straddled n start finish) ∧
          ∀ f ∈ h.marker fin n start finish, start + data.length ≤ u64Max ∧
            (data ≠ [] → start + data.length ≤ n → h.outOfOrder.isEmpty → n + data.length ≤ f)
  | _ => True

instance decidableFinRespected (h : TcpHalf) : (c : Call) → Decidable (h.FinRespected c)
  | .accept seq syn fin _ data _ =>
      inferInstanceAs (Decidable (∀ n ∈ (h.observe seq syn).nextAbs,
        (h.observe seq syn).finConsumed = false →
          (_ → ¬ _) ∧ ∀ f ∈ (h.observe seq syn).marker fin n (extendSeq (payloadSeq seq syn) n)
            (satAdd (extendSeq (payloadSeq seq syn) n) data.length), _ ∧ (_ → _ → _ → _)))
  | .observe _ _ => isTrue trivial
  | .acknowledge _ _ _ => isTrue trivial
  | .rstMatchesNext _ => isTrue trivial
  | .finalize _ => isTrue trivial

/-- No buffered segment lies across the FIN marker, between calls. -/
def Parted (h : TcpHalf) : Prop :=
  h.finConsumed = false → ∀ f, h.pendingFin = some f → ∀ e ∈ h.outOfOrder.entries,
    e.1 + e.2.data.length ≤ f ∨ f < e.1 ∨ f = e.1 ∧ h.FinValid f

/-- What FIN marking leaves. -/
theorem markFin_marker (h : TcpHalf) {n finish : ℕ} (start : ℕ) (hle : n ≤ finish) :
    h.Marks true n start finish ∧
        (h.markFin start finish n).pendingFin = some finish ∧
        (start ≤ n → (h.markFin start finish n).pendingFinRequiresAck = false) ∨
      ¬ h.Marks true n start finish ∧ h.markFin start finish n = h := by
  unfold markFin
  cases hpend : h.pendingFin with
  | none => exact .inl ⟨⟨rfl, hle, .inl hpend⟩, rfl, fun hsn ↦ by simpa using hsn⟩
  | some existing =>
      simp only
      by_cases hreq : h.pendingFinRequiresAck = true ∧ start ≤ n
      · refine .inl ⟨⟨rfl, hle, .inr hreq⟩, ?_⟩
        split_ifs with hsame
        · exact ⟨by simp [hsame.1], fun _ ↦ rfl⟩
        · exact ⟨rfl, fun _ ↦ rfl⟩
      · refine .inr ⟨?_, ?_⟩
        · rintro ⟨-, -, hnone | hmoves⟩
          · simp [hpend] at hnone
          · exact hreq hmoves
        · split_ifs with hsame
          · have hno : h.pendingFinRequiresAck = false := by
              by_contra hyes
              exact hreq ⟨by simpa using hyes, hsame.2⟩
            rw [← hno, ← hpend]
          · rfl

theorem truncateAtFin_half (w : Pass) (start finish : ℕ) (data : Bytes) :
    (w.truncateAtFin start finish data).1.half.pendingFin = none ∧
        w.half.pendingFinRequiresAck = true ∨
      (w.truncateAtFin start finish data).1.half = w.half := by
  unfold Pass.truncateAtFin
  split
  · exact .inr rfl
  · split_ifs with _ htentative
    · exact .inl ⟨rfl, htentative.1⟩
    · exact .inr rfl
    · exact .inr rfl
    · exact .inr rfl
    · exact .inr rfl

/-- What FIN marking and truncation leave: no marker, the old state, or a new marker. -/
theorem arrive_marker (h : TcpHalf) (seq : BitVec 32) (syn fin : Bool) (data : Bytes) (n : ℕ) :
    let start := extendSeq (payloadSeq seq syn) n
    let finish := satAdd start data.length
    let a := h.arrive seq syn fin data n
    a.pass.half.pendingFin = none ∨ ¬ h.Marks fin n start finish ∧ a.pass.half = h ∨
      h.Marks fin n start finish ∧ a.pass.half.pendingFin = some finish ∧
        (start ≤ n → a.pass.half.pendingFinRequiresAck = false) := by
  intro start finish a
  rcases truncateAtFin_half { half := if fin ∧ n ≤ finish then h.markFin start finish n else h }
    start finish data with ⟨hnone, -⟩ | hsame
  · exact .inl hnone
  · refine .inr ?_
    change _ ∧ (Pass.truncateAtFin _ start finish data).1.half = h ∨ _ ∧
      (Pass.truncateAtFin _ start finish data).1.half.pendingFin = some finish ∧
      (start ≤ n → (Pass.truncateAtFin _ start finish data).1.half.pendingFinRequiresAck = false)
    rw [hsame]
    split_ifs with hfin
    · rcases h.markFin_marker start hfin.2 with ⟨hmarks, hpend, hreq⟩ | ⟨hnot, heq⟩
      · exact .inr ⟨⟨hfin.1, hmarks.2⟩, hpend, hreq⟩
      · exact .inl ⟨fun hmarks ↦ hnot ⟨rfl, hmarks.2⟩, heq⟩
    · exact .inl ⟨fun hmarks ↦ hfin ⟨hmarks.1, hmarks.2.1⟩, rfl⟩

/-- A marker that needs no acknowledgement stays. -/
theorem arrive_of_validated {h : TcpHalf} {f : ℕ} (hpend : h.pendingFin = some f)
    (hno : h.pendingFinRequiresAck = false) (seq : BitVec 32) (syn fin : Bool) (data : Bytes)
    (n : ℕ) : (h.arrive seq syn fin data n).pass.half = h := by
  unfold arrive
  simp only
  generalize extendSeq (payloadSeq seq syn) n = start
  have hkeep : (if fin ∧ n ≤ satAdd start data.length then
      h.markFin start (satAdd start data.length) n else h) = h := by
    split_ifs with hfin
    · rcases h.markFin_marker start hfin.2 with ⟨hmarks, -⟩ | ⟨-, heq⟩
      · rcases hmarks.2.2 with hnone | ⟨hreq, -⟩
        · simp [hpend] at hnone
        · simp [hno] at hreq
      · exact heq
    · rfl
  rw [hkeep]
  rcases truncateAtFin_half { half := h } start (satAdd start data.length) data with
    ⟨-, hreq⟩ | hsame
  · simp [hno] at hreq
  · exact hsame

/-- Before any payload is stored. -/
theorem Idle.capped {h : TcpHalf} {w : Pass} {n f : ℕ} (hi : h.Idle n)
    (hnext : w.half.nextAbs = h.nextAbs) (hstream : w.half.streamOffset = h.streamOffset)
    (hbuffer : w.half.outOfOrder = h.outOfOrder) (hout : w.out.emitted = []) (hnf : n ≤ f)
    (hapart : ∀ e ∈ h.outOfOrder.entries,
      e.1 + e.2.data.length ≤ f ∨ f < e.1 ∨ f = e.1 ∧ w.half.FinValid f) :
    w.Capped (n - h.streamOffset) f := by
  have hoff := hi.sound.offset_le
  have hbase : n - h.streamOffset + w.half.streamOffset = n := by omega
  refine ⟨by simp [hout], by omega, fun _ ↦ ?_, fun _ e he ↦ ?_⟩
  · rw [hbase, hnext]
    exact hi.sound.next
  · rw [hbuffer] at he
    refine (hapart e he).imp_right (Or.imp_right ?_)
    rintro ⟨rfl, hvalid⟩
    have hahead := hi.ahead e he
    exact ⟨rfl, hvalid, by omega⟩

theorem arrive_capped {h : TcpHalf} {n f : ℕ} (hi : h.Idle n) (hopen : h.finConsumed = false)
    (hparted : h.Parted) {seq : BitVec 32} {syn fin : Bool} {tsNs : ℕ} {data : Bytes} {lim : Limits}
    (hobs : h.observe seq syn = h) (hclear : h.FinRespected (.accept seq syn fin tsNs data lim))
    (hpend : (h.arrive seq syn fin data n).pass.half.pendingFin = some f) :
    (h.arrive seq syn fin data n).pass.Capped (n - h.streamOffset) f ∧
      h.marker fin n (extendSeq (payloadSeq seq syn) n)
        (satAdd (extendSeq (payloadSeq seq syn) n) data.length) = some f := by
  have hclear' := hclear n (by rw [hobs]; exact hi.sound.next) (by rw [hobs]; exact hopen)
  rw [hobs] at hclear'
  have hmark := (h.arrive_remarked seq syn fin data n).half
  have hout := h.arrive_out seq syn fin data n
  have hnext : (h.arrive seq syn fin data n).pass.half.nextAbs = h.nextAbs := by rw [hmark]
  have hstream : (h.arrive seq syn fin data n).pass.half.streamOffset = h.streamOffset := by
    rw [hmark]
  have hbuffer : (h.arrive seq syn fin data n).pass.half.outOfOrder = h.outOfOrder := by rw [hmark]
  have hemitted : (h.arrive seq syn fin data n).pass.out.emitted = [] := by rw [hout]
  have hcases := h.arrive_marker seq syn fin data n
  simp only at hcases
  generalize (h.arrive seq syn fin data n).pass = w at *
  rcases hcases with hnone | ⟨hnot, heq⟩ | ⟨hmarks, hfinish, hreq⟩
  · simp [hnone] at hpend
  · rw [heq] at hpend
    refine ⟨hi.capped hnext hstream hbuffer hemitted (hi.waiting.le hopen hpend) ?_, ?_⟩
    · rw [heq]
      exact hparted hopen f hpend
    · rw [marker, if_neg hnot]
      exact hpend
  · obtain rfl := Option.some.inj (hfinish.symm.trans hpend)
    refine ⟨hi.capped hnext hstream hbuffer hemitted hmarks.2.1 fun e he ↦ ?_,
      by rw [marker, if_pos hmarks]⟩
    -- no segment lies across the new marker
    have hno := hclear'.1 hmarks
    by_contra hacross
    push Not at hacross
    obtain ⟨hend, hle, heq⟩ := hacross
    refine hno ⟨e, he, hend, ?_⟩
    by_cases hlt : e.1 < satAdd (extendSeq (payloadSeq seq syn) n) data.length
    · exact .inl hlt
    · have hef : e.1 = satAdd (extendSeq (payloadSeq seq syn) n) data.length := by omega
      refine .inr ⟨hef, ?_, ?_⟩
      · by_contra hbehind
        exact heq hef.symm ⟨hfinish, .inl (hreq (not_lt.mp hbehind))⟩
      · by_contra hack
        have hyes := eq_true_of_ne_false hack
        refine heq hef.symm ⟨hfinish, .inr ?_⟩
        rw [hmark]
        exact hyes

/-! ## Calls and runs -/

/-- The step lemma: a call that finds the half open emits nothing at or above the FIN marker
that it leaves. -/
theorem Treads.capped {h : TcpHalf} {n f : ℕ} {c : Call} {w' : Pass} (ht : Treads h n c w')
    (hi : h.Idle n) (hopen : h.finConsumed = false) (hparted : h.Parted) (hc : h.primed c = h)
    (hclear : h.FinRespected c) (hpend : w'.half.pendingFin = some f) :
    w'.Capped (n - h.streamOffset) f := by
  cases ht with
  | @walk c w w' hnoted hmono hem hgaps hquiet htrail =>
      have hpend' : w.half.pendingFin = some f := htrail.path.frame.1.symm.trans hpend
      have hpend₀ : h.pendingFin = some f := by
        rw [hnoted] at hpend'
        exact hpend'
      refine htrail.capped (hnoted.sound hi.sound) hpend' ?_
      refine hi.capped (by rw [hnoted]) (by rw [hnoted]) (by rw [hnoted]) hem
        (hi.waiting.le hopen hpend₀) fun e he ↦ ?_
      refine (hparted hopen f hpend₀ e he).imp_right (Or.imp_right ?_)
      rintro ⟨hef, -, hvalid⟩
      refine ⟨hef, hpend', ?_⟩
      rcases hvalid with hno | hack
      · exact .inl (by rw [hnoted]; exact hno)
      · exact .inr (hmono f hack)
  | @store seq syn fin tsNs data lim w w' _ hstores htrail =>
      have hobs : h.observe seq syn = h := hc
      have hs := arrive_sound hi.sound hopen seq syn fin data
      have hopen' : (h.arrive seq syn fin data n).pass.half.finConsumed = false := by
        rw [(h.arrive_remarked seq syn fin data n).half]
        exact hopen
      have hpend' : (h.arrive seq syn fin data n).pass.half.pendingFin = some f := by
        rw [← hstores.half_frame.2.1, ← htrail.path.frame.1]
        exact hpend
      obtain ⟨hcapped, hmarker⟩ := arrive_capped hi hopen hparted hobs hclear hpend'
      have hclear' := hclear n (by rw [hobs]; exact hi.sound.next) (by rw [hobs]; exact hopen)
      rw [hobs] at hclear'
      obtain ⟨hfits, hreplay⟩ := hclear'.2 f hmarker
      obtain ⟨k, hk⟩ := h.arrive_data seq syn fin data n
      have hlen : (h.arrive seq syn fin data n).data.length ≤ data.length := by
        rw [hk, List.length_take]
        exact min_le_right _ _
      obtain ⟨m, -, hm⟩ := hstores.sound hs hopen'
      refine htrail.capped hm (hstores.half_frame.2.1.trans hpend') ?_
      refine hstores.capped hs hopen' (hs.fin_le f hpend') hcapped (fun hne ↦ ?_) ?_
      · have hend := h.arrive_end_le seq syn fin data n hpend' hne
        rwa [satAdd_of_le (by omega)] at hend
      · intro hne hle hempty
        rcases h.arrive_cut seq syn fin data n hpend' hne with ⟨heq, -⟩ | ⟨hvalid, hlt, hend⟩
        · rw [heq] at hne hle ⊢
          refine hreplay hne hle (isEmpty_iff.mpr ?_)
          rw [(h.arrive_remarked seq syn fin data n).half] at hempty
          exact hempty
        · -- a payload wholly behind `n` is not cut at a FIN that is valid
          exfalso
          have hcases := h.arrive_marker seq syn fin data n
          simp only at hcases
          rcases hcases with hnone | ⟨-, heq⟩ | ⟨-, hfinish, -⟩
          · simp [hnone] at hpend'
          · rw [heq] at hvalid
            rcases hi.waiting hopen f hvalid.1 with hnf | ⟨-, hnot⟩
            · omega
            · exact hnot hvalid
          · have := Option.some.inj (hfinish.symm.trans hpend')
            omega

/-- Between calls: no buffered segment lies across the FIN marker, and an open half has none
that is acknowledged. -/
structure Barred (h : TcpHalf) (n : ℕ) : Prop where
  idle : h.Idle n
  parted : h.Parted
  unacked : h.finConsumed = false → ∀ f, h.pendingFin = some f → h.acked f = false

theorem Noted.finValid {h h' : TcpHalf} {f : ℕ} (hn : Noted h h')
    (hmono : h.acked f = true → h'.acked f = true) (hv : h.FinValid f) : h'.FinValid f := by
  refine ⟨?_, hv.2.imp ?_ hmono⟩
  · rw [hn]
    exact hv.1
  · intro hno
    rw [hn]
    exact hno

/-- A FIN that is valid between two calls stays valid. -/
theorem Treads.finValid {h : TcpHalf} {n f : ℕ} {c : Call} {w' : Pass} (ht : Treads h n c w')
    (hb : h.Barred n) (hv : h.FinValid f) : w'.half.FinValid f := by
  cases ht with
  | walk hnoted hmono _ _ _ htrail => exact htrail.path.finValid (hnoted.finValid (hmono f) hv)
  | @store seq syn fin tsNs data lim w w' hopen hstores htrail =>
      have hno : h.pendingFinRequiresAck = false := by
        rcases hv.2 with hno | hack
        · exact hno
        · simp [hb.unacked hopen f hv.1] at hack
      refine htrail.path.finValid ⟨?_, .inl ?_⟩
      · rw [hstores.half_frame.2.1, arrive_of_validated hv.1 hno]
        exact hv.1
      · rw [hstores.half_frame.2.2.1, arrive_of_validated hv.1 hno]
        exact hno

theorem acked_congr {h h' : TcpHalf} (heq : h'.peerAckAbs = h.peerAckAbs) (f : ℕ) :
    h'.acked f = h.acked f := by
  unfold acked
  rw [heq]

theorem acknowledge_unacked {h : TcpHalf} {n f : ℕ} (hi : h.Idle n) {ack : BitVec 32}
    {tsNs gapTimeoutNs : ℕ} (hopen : (h.acknowledge ack tsNs gapTimeoutNs).half.finConsumed = false)
    (hpend : (h.acknowledge ack tsNs gapTimeoutNs).half.pendingFin = some f) :
    (h.acknowledge ack tsNs gapTimeoutNs).half.acked f = false := by
  have hs := hi.sound.recordAck (extendSeq ack n) n
  simp only [acknowledge, hi.sound.next] at hopen hpend ⊢
  generalize h.recordAck (extendSeq ack n) n = h₀ at hs hopen hpend ⊢
  split_ifs at hopen hpend ⊢ with hquiet
  · have hnone := Option.isNone_iff_eq_none.mp hquiet.2
    exact absurd (hnone.symm.trans hpend) (by simp)
  · obtain ⟨m, -, hm⟩ := (Pass.recoverKnownAck_trail (w := { half := h₀ }) hs).sound hs
    obtain ⟨hrest, n', -, hi'⟩ := Pass.rest_trail hm gapTimeoutNs tsNs
    exact hrest.unacked hs hi' hopen hpend

theorem settle_unacked {a : Arrival} {n f tsNs : ℕ} {lim : Limits}
    (hs : (a.pass.acceptData a.startAbs a.expected tsNs a.data lim).half.Sound n)
    (hopen : (a.settle tsNs lim).half.finConsumed = false)
    (hpend : (a.settle tsNs lim).half.pendingFin = some f) :
    (a.settle tsNs lim).half.acked f = false := by
  have hrest := (a.settle_rest hs).1
  unfold Arrival.settle at hopen hpend hrest ⊢
  simp only at hopen hpend hrest ⊢
  generalize a.pass.acceptData a.startAbs a.expected tsNs a.data lim = w at hs hopen hpend hrest ⊢
  split_ifs at hopen hpend hrest ⊢ with hmarked
  · obtain ⟨m, -, hm⟩ := (Pass.recoverKnownAck_trail hs).sound hs
    obtain ⟨htrail, n', -, hi'⟩ := Pass.rest_trail hm lim.gapTimeoutNs tsNs
    exact htrail.unacked hs hi' hopen hpend
  · -- without a FIN marker, or closed, before the second ACK recovery
    refine absurd ⟨?_, ?_⟩ hmarked
    · rw [← hrest.path.frame.1, hpend]
      rfl
    · intro hclosed
      obtain ⟨ts, heq⟩ := hrest.path.of_closed hclosed
      rw [heq] at hopen
      simp [Pass.stamp, hclosed] at hopen

/-- A half that a call leaves open has no acknowledged FIN. -/
theorem step_unacked {h : TcpHalf} {n f : ℕ} (hb : h.Barred n) (c : Call) (hc : h.primed c = h)
    (hopen : (h.step c).half.finConsumed = false) (hpend : (h.step c).half.pendingFin = some f) :
    (h.step c).half.acked f = false := by
  cases c with
  | observe seq syn =>
      have hobs : h.observe seq syn = h := hc
      simp only [step, hobs] at hopen hpend ⊢
      exact hb.unacked hopen f hpend
  | rstMatchesNext seq => exact hb.unacked hopen f hpend
  | finalize tsNs =>
      have hpath := (finalize_trail hb.idle).1.path
      have hframe := hpath.frame
      rw [step, acked_congr hframe.2.1]
      exact hb.unacked (hpath.finValid_iff hopen f).1 f (hframe.1.symm.trans hpend)
  | acknowledge ack tsNs gapTimeoutNs => exact acknowledge_unacked hb.idle hopen hpend
  | accept seq syn fin tsNs data lim =>
      have hobs : h.observe seq syn = h := hc
      simp only [step, accept, hobs, hb.idle.sound.next] at hopen hpend ⊢
      split_ifs at hopen hpend ⊢ with hfin
      · simp [hfin] at hopen
      · have hfin' : h.finConsumed = false := by simpa using hfin
        have hs := arrive_sound hb.idle.sound hfin' seq syn fin data
        have hopen' : (h.arrive seq syn fin data n).pass.half.finConsumed = false := by
          rw [(h.arrive_remarked seq syn fin data n).half]
          exact hfin'
        obtain ⟨w₁, hstores, htrail⟩ := Pass.acceptData_trail hs hopen'
          (h.arrive seq syn fin data n).startAbs tsNs (h.arrive seq syn fin data n).data lim
        obtain ⟨n₁, -, h₁⟩ := hstores.sound hs hopen'
        obtain ⟨n₂, -, h₂⟩ := htrail.sound h₁
        exact settle_unacked h₂ hopen hpend

/-- The chunks that a call emits, with their sequence positions. -/
def emittedAt (h : TcpHalf) (c : Call) : List (ℕ × Bytes) :=
  (h.step c).out.emitted.map fun chunk ↦
    ((h.primed c).nextAbs.getD 0 - h.streamOffset + chunk.offset, chunk.data)

/-- Everything that a call emits lies below `f`. -/
def EmitsBelow (h : TcpHalf) (c : Call) (f : ℕ) : Prop :=
  ∀ chunk ∈ h.emittedAt c, chunk.1 + chunk.2.length ≤ f

theorem Treads.of_closed {h : TcpHalf} {n : ℕ} {c : Call} {w' : Pass} (ht : Treads h n c w')
    (hclosed : h.finConsumed = true) : w'.half.finConsumed = true ∧ w'.out.emitted = [] := by
  cases ht with
  | @walk c w w' hnoted hmono hem hgaps hquiet htrail =>
      have hclosed' : w.half.finConsumed = true := by
        rw [hnoted]
        exact hclosed
      obtain ⟨ts, rfl⟩ := htrail.path.of_closed hclosed'
      exact ⟨hclosed', hem⟩
  | store hopen => simp [hclosed] at hopen

/-- One call between two rests. -/
theorem Barred.step {h : TcpHalf} {n : ℕ} (hb : h.Barred n) {c : Call} (hc : h.primed c = h)
    (hclear : h.FinRespected c) : (∃ n', (h.step c).half.Barred n') ∧
      (∀ f, h.FinValid f → (h.step c).half.FinValid f) ∧
      ∀ f, (h.step c).half.pendingFin = some f → h.EmitsBelow c f := by
  obtain ⟨ht, n', -, hi'⟩ := step_treads hb.idle c hc
  have hcapped : ∀ {f}, h.finConsumed = false → (h.step c).half.pendingFin = some f →
      (h.step c).Capped (n - h.streamOffset) f :=
    fun hopen hpend ↦ ht.capped hb.idle hopen hb.parted hc hclear hpend
  refine ⟨⟨n', hi', ?_, fun hopen f hpend ↦ step_unacked hb c hc hopen hpend⟩,
    fun f hv ↦ ht.finValid hb hv, ?_⟩
  · intro hopen f hpend e he
    have hopen₀ : h.finConsumed = false := by
      by_contra hclosed
      simp [(ht.of_closed (eq_true_of_ne_false hclosed)).1] at hopen
    refine ((hcapped hopen₀ hpend).apart hopen e he).imp_right (Or.imp_right ?_)
    exact fun hvalid ↦ ⟨hvalid.1, hvalid.2.1⟩
  · intro f hpend chunk hchunk
    obtain ⟨raw, hraw, rfl⟩ := List.mem_map.mp hchunk
    by_cases hopen : h.finConsumed = false
    · rw [hc, hb.idle.sound.next, Option.getD_some]
      exact (hcapped hopen hpend).emitted raw hraw
    · rw [(ht.of_closed (eq_true_of_ne_false hopen)).2] at hraw
      cases hraw

/-- A run that has not begun, or is between two calls. -/
def BarredAt (h : TcpHalf) : Prop := h = {} ∨ ∃ n, h.Barred n

theorem finValid_primed (h : TcpHalf) (c : Call) (f : ℕ) :
    (h.primed c).FinValid f ↔ h.FinValid f := by
  unfold FinValid
  rw [acked_primed, primed_eq]

theorem Barred.primed {h : TcpHalf} {n : ℕ} (hb : h.Barred n) (c : Call) : (h.primed c).Barred n := by
  obtain ⟨hi, hnoted⟩ := hb.idle.primed c
  refine ⟨hi, fun hopen f hpend e he ↦ ?_, fun hopen f hpend ↦ ?_⟩
  · rw [finValid_primed]
    rw [hnoted] at hopen hpend he
    exact hb.parted hopen f hpend e he
  · rw [acked_primed]
    rw [hnoted] at hopen hpend
    exact hb.unacked hopen f hpend

theorem finRespected_primed {h : TcpHalf} {c : Call} (hclear : h.FinRespected c) :
    (h.primed c).FinRespected c := by
  cases c with
  | accept seq syn fin tsNs data lim =>
      simpa only [TcpHalf.primed, FinRespected, observe_observe] using hclear
  | observe seq syn => trivial
  | acknowledge ack tsNs gapTimeoutNs => trivial
  | rstMatchesNext seq => trivial
  | finalize tsNs => trivial

theorem emitsBelow_primed {h : TcpHalf} {c : Call} {f : ℕ} (hbelow : (h.primed c).EmitsBelow c f) :
    h.EmitsBelow c f := by
  unfold EmitsBelow emittedAt at hbelow ⊢
  have hoff : (h.primed c).streamOffset = h.streamOffset := by rw [primed_eq]
  rwa [step_primed, primed_primed, hoff] at hbelow

/-- One call of a run: what holds between calls still does, a valid FIN stays valid, and nothing
at or above the FIN marker is emitted. -/
theorem BarredAt.step {h : TcpHalf} (hb : h.BarredAt) {c : Call} (hclear : h.FinRespected c) :
    (h.step c).half.BarredAt ∧ (∀ f, h.FinValid f → (h.step c).half.FinValid f) ∧
      ∀ f, (h.step c).half.pendingFin = some f → h.EmitsBelow c f := by
  have hprimed : ∀ {n}, (h.primed c).Barred n → (h.step c).half.BarredAt ∧
      (∀ f, h.FinValid f → (h.step c).half.FinValid f) ∧
      ∀ f, (h.step c).half.pendingFin = some f → h.EmitsBelow c f := by
    intro n hb
    obtain ⟨hnext, hvalid, hbelow⟩ := hb.step (primed_primed h c) (finRespected_primed hclear)
    rw [step_primed] at hnext hvalid hbelow
    exact ⟨.inr hnext, fun f hv ↦ hvalid f ((finValid_primed h c f).mpr hv),
      fun f hpend ↦ emitsBelow_primed (hbelow f hpend)⟩
  rcases hb with rfl | ⟨n, hb⟩
  · cases hc : c.origin? with
    | none =>
        rw [step_default hc]
        exact ⟨.inl rfl, fun f hv ↦ hv, fun f hpend ↦ absurd hpend (by simp)⟩
    | some o =>
        refine hprimed ⟨primed_idle_of_default hc, fun _ f hpend ↦ ?_, fun _ f hpend ↦ ?_⟩
        · rw [primed_eq] at hpend
          simp at hpend
        · rw [primed_eq] at hpend
          simp at hpend
  · exact hprimed (hb.primed c)

theorem BarredAt.after {cs : List Call} : ∀ {h : TcpHalf}, h.BarredAt → h.Along FinRespected cs →
    (h.after cs).BarredAt ∧ ∀ f, h.FinValid f → (h.after cs).FinValid f := by
  induction cs with
  | nil => exact fun hb _ ↦ ⟨hb, fun _ hv ↦ hv⟩
  | cons c cs ih =>
      intro h hb hclear
      obtain ⟨hnext, hvalid, -⟩ := hb.step hclear.1
      obtain ⟨hrest, hkeep⟩ := ih hnext hclear.2
      exact ⟨hrest, fun f hv ↦ hkeep f (hvalid f hv)⟩

end TcpHalf

/-- From the call on that leaves a FIN valid, nothing at or above it is emitted. -/
def FinBounds (cs : List Call) : Prop :=
  ∀ as c bs f, cs = as ++ c :: bs → (({} : TcpHalf).after (as ++ [c])).FinValid f →
    ∀ ds d es, c :: bs = ds ++ d :: es → (({} : TcpHalf).after (as ++ ds)).EmitsBelow d f

/-- In runs that respect their FIN markers, a valid FIN bounds what is emitted. -/
theorem finBounds_of_finRespected (cs : List Call)
    (hclear : ({} : TcpHalf).Along TcpHalf.FinRespected cs) : FinBounds cs := by
  rintro as c bs f rfl hvalid ds d es hds
  have hsplit : as ++ c :: bs = as ++ ds ++ d :: es := by rw [hds, List.append_assoc]
  obtain ⟨hpre, hd, -⟩ := TcpHalf.along_append.mp (hsplit ▸ hclear)
  obtain ⟨hb, -⟩ := TcpHalf.BarredAt.after (.inl rfl) hpre
  refine (hb.step hd).2.2 f ?_
  -- the FIN is still the marker after the later call
  cases ds with
  | nil =>
      obtain ⟨rfl, -⟩ := List.cons.inj hds
      rw [List.append_nil, ← TcpHalf.after_snoc]
      exact hvalid.1
  | cons c' ds =>
      obtain ⟨rfl, rfl⟩ := List.cons.inj hds
      have hlater : as ++ c :: ds ++ [d] = as ++ [c] ++ (ds ++ [d]) := by simp
      have hall : as ++ c :: (ds ++ d :: es) = as ++ [c] ++ (ds ++ [d]) ++ es := by simp
      obtain ⟨hto, -⟩ := TcpHalf.along_append.mp (hall ▸ hclear)
      obtain ⟨hfront, hback⟩ := TcpHalf.along_append.mp hto
      obtain ⟨hrest, -⟩ := TcpHalf.BarredAt.after (.inl rfl) hfront
      have hkept := (hrest.after hback).2 f hvalid
      rw [← TcpHalf.after_append, ← hlater, TcpHalf.after_snoc] at hkept
      exact hkept.1

/-- A segment ahead, and then the bytes up to it with a FIN in the middle of the segment. -/
def straddledFinRun : List Call :=
  [.accept 100 false false 0 [1] ⟨64, 8, 9⟩, .accept 104 false false 0 [5, 6, 7, 8] ⟨64, 8, 9⟩,
    .accept 101 false true 0 [2, 3, 4, 5, 6] ⟨64, 8, 9⟩]

/-- The FIN is validated at 106 and bytes 106 and 107 are emitted by the same call. -/
theorem not_finBounds_straddledFinRun : ¬ FinBounds straddledFinRun := by
  intro hbounds
  have hbelow := hbounds (straddledFinRun.take 2)
    (.accept 101 false true 0 [2, 3, 4, 5, 6] ⟨64, 8, 9⟩) [] (2 ^ 32 + 106) rfl (by decide) []
    (.accept 101 false true 0 [2, 3, 4, 5, 6] ⟨64, 8, 9⟩) [] rfl
  exact absurd (hbelow (2 ^ 32 + 104, [5, 6, 7, 8]) (by decide)) (by decide)

/-- A FIN announced ahead, data up to it, and data past it. -/
def respectedFinRun : List Call :=
  [.accept 100 false false 0 [1] ⟨64, 8, 9⟩, .accept 103 false true 0 [4, 5] ⟨64, 8, 9⟩,
    .acknowledge (BitVec.ofNat 32 106) 0 9, .accept 101 false false 0 [2, 3, 4, 5, 6] ⟨64, 8, 9⟩]

theorem finBounds_respectedFinRun :
    (({} : TcpHalf).after (respectedFinRun.take 3)).FinValid (2 ^ 32 + 105) ∧
      FinBounds respectedFinRun :=
  ⟨by decide, finBounds_of_finRespected respectedFinRun (by decide)⟩

end Bazalt.Flow
