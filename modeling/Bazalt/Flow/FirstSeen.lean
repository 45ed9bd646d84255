import Bazalt.Flow.Tiling

/-!
# First-seen semantics

A call admits a byte when the half is open, the byte's position is not behind the
next expected one and FIN truncation leaves it.  As long as no call replays payload
that is wholly behind, every emitted byte is the one admitted first at its position
and gaps are declared only where nothing was admitted.
-/

namespace Bazalt.Flow

open Lib OrdMap

namespace TcpHalf

/-- The byte a call admits at extended sequence position `p`. -/
def admitted (h : TcpHalf) : Call → ℕ → Option UInt8
  | .accept seq syn fin _ data _, p =>
      let h := h.observe seq syn
      match h.nextAbs with
      | none => none
      | some n =>
          let a := h.arrive seq syn fin data n
          if h.finConsumed = false ∧ n ≤ p ∧ a.startAbs ≤ p then a.data[p - a.startAbs]? else none
  | _, _ => none

/-- The byte that the earliest call of a run to admit position `p` admits there. -/
def firstAdmitted (h : TcpHalf) : List Call → ℕ → Option UInt8
  | [], _ => none
  | c :: cs, p => (h.admitted c p).or ((h.step c).half.firstAdmitted cs p)

/-- Every call of a run meets `P` in the state it finds. -/
def Along (P : TcpHalf → Call → Prop) (h : TcpHalf) : List Call → Prop
  | [] => True
  | c :: cs => P h c ∧ (h.step c).half.Along P cs

/-- The segment ends below the top of the sequence space, and if it has payload and
nothing is buffered, some of the payload is new. -/
def BringsNew (h : TcpHalf) : Call → Prop
  | .accept seq syn _ _ data _ =>
      let h := h.observe seq syn
      ∀ n ∈ h.nextAbs, h.finConsumed = false →
        extendSeq (payloadSeq seq syn) n + data.length < u64Max ∧
          (h.outOfOrder.isEmpty → data ≠ [] →
            n < extendSeq (payloadSeq seq syn) n + data.length)
  | _ => True

instance decidableAlong (P : TcpHalf → Call → Prop) [∀ h c, Decidable (P h c)] :
    ∀ (h : TcpHalf) (cs : List Call), Decidable (h.Along P cs)
  | _, [] => isTrue trivial
  | h, c :: cs =>
      have := decidableAlong P (h.step c).half cs
      inferInstanceAs (Decidable (P h c ∧ (h.step c).half.Along P cs))

instance decidableBringsNew (h : TcpHalf) : (c : Call) → Decidable (h.BringsNew c)
  | .accept seq syn _ _ data _ =>
      inferInstanceAs (Decidable (∀ n ∈ (h.observe seq syn).nextAbs,
        (h.observe seq syn).finConsumed = false →
          extendSeq (payloadSeq seq syn) n + data.length < u64Max ∧
            ((h.observe seq syn).outOfOrder.isEmpty → data ≠ [] →
              n < extendSeq (payloadSeq seq syn) n + data.length)))
  | .observe _ _ => isTrue trivial
  | .acknowledge _ _ _ => isTrue trivial
  | .rstMatchesNext _ => isTrue trivial
  | .finalize _ => isTrue trivial

theorem firstAdmitted_append (h : TcpHalf) (as bs : List Call) (p : ℕ) :
    h.firstAdmitted (as ++ bs) p =
      (h.firstAdmitted as p).or ((h.after as).firstAdmitted bs p) := by
  induction as generalizing h with
  | nil => rfl
  | cons c as ih => simp [firstAdmitted, after, ih, Option.or_assoc]

theorem along_append {P : TcpHalf → Call → Prop} {h : TcpHalf} {as bs : List Call} :
    h.Along P (as ++ bs) ↔ h.Along P as ∧ (h.after as).Along P bs := by
  induction as generalizing h with
  | nil => simp [Along, after]
  | cons c as ih => simp [Along, after, ih, and_assoc]

/-! ## Truncation leaves new payload new -/

theorem markFin_eq_of_ne {h : TcpHalf} {startAbs endAbs expected fin : ℕ}
    (hpend : (h.markFin startAbs endAbs expected).pendingFin = some fin) (hne : fin ≠ endAbs) :
    h.markFin startAbs endAbs expected = h := by
  unfold markFin at hpend ⊢
  split at hpend
  · exact absurd (Option.some.inj hpend).symm hne
  · rename_i existing hex
    split_ifs at hpend ⊢ with h₁ h₂
    · exact absurd (Option.some.inj (hex.symm.trans hpend)) (by omega)
    · exact absurd (Option.some.inj hpend).symm hne
    · rfl

theorem arrive_new {h : TcpHalf} {n : ℕ} (hi : h.Idle n) (hopen : h.finConsumed = false)
    (seq : BitVec 32) (syn fin : Bool) (data : Bytes)
    (hnew : n < extendSeq (payloadSeq seq syn) n + data.length)
    (hne : (h.arrive seq syn fin data n).data ≠ []) :
    n < extendSeq (payloadSeq seq syn) n + (h.arrive seq syn fin data n).data.length := by
  unfold arrive at hne ⊢
  simp only at hne ⊢
  generalize extendSeq (payloadSeq seq syn) n = start at hnew hne ⊢
  have hmark : ∀ f, (if fin ∧ n ≤ satAdd start data.length then
      h.markFin start (satAdd start data.length) n else h).pendingFin = some f →
      f ≠ satAdd start data.length →
      (if fin ∧ n ≤ satAdd start data.length then
        h.markFin start (satAdd start data.length) n else h) = h := by
    intro f hf hfe
    split_ifs at hf ⊢
    · exact markFin_eq_of_ne hf hfe
    · rfl
  generalize (if fin ∧ n ≤ satAdd start data.length then
      h.markFin start (satAdd start data.length) n else h) = h₀ at hmark hne ⊢
  unfold Pass.truncateAtFin at hne ⊢
  split at hne
  · exact hnew
  · rename_i f hf
    have hle := satAdd_le_add start data.length
    split_ifs at hne ⊢ with h₁ h₂ h₃ h₄
    · exact hnew
    · simp at hne
    · simp at hne
    · obtain rfl := hmark f hf (by omega)
      rcases hi.waits hopen f hf with hlt | ⟨-, hreq, hack⟩
      · simp only [List.length_take]
        omega
      · exact absurd ⟨hreq, by simpa using hack⟩ h₂
    · exact hnew

/-! ## One call -/

/-- What is known when a call has stored its payload: buffered bytes first, then what
the call admits. -/
def Known (h : TcpHalf) (c : Call) (p : ℕ) (b : UInt8) : Prop :=
  h.Held p b ∨ (∀ x, ¬ h.Held p x) ∧ h.admitted c p = some b

theorem admitted_accept {h : TcpHalf} {n p : ℕ} {b : UInt8} (hn : h.nextAbs = some n)
    (hopen : h.finConsumed = false) {seq : BitVec 32} {syn fin : Bool} {tsNs : ℕ} {data : Bytes}
    {lim : Limits} (hobs : h.observe seq syn = h) (hp : n ≤ p) :
    h.admitted (.accept seq syn fin tsNs data lim) p = some b ↔
      extendSeq (payloadSeq seq syn) n ≤ p ∧
        (h.arrive seq syn fin data n).data[p - extendSeq (payloadSeq seq syn) n]? = some b := by
  simp only [admitted, hobs, hn, arrive_startAbs]
  by_cases hle : extendSeq (payloadSeq seq syn) n ≤ p
  · simp [hopen, hp, hle]
  · simp [hle]

theorem admitted_of_closed {h : TcpHalf} {c : Call} (hc : h.primed c = h)
    (hclosed : h.finConsumed = true ∨ ∀ seq syn fin tsNs data lim,
      c ≠ .accept seq syn fin tsNs data lim) (p : ℕ) : h.admitted c p = none := by
  cases c with
  | accept seq syn fin tsNs data lim =>
      simp only [primed] at hc
      have hfin := hclosed.resolve_right fun hno ↦ hno _ _ _ _ _ _ rfl
      simp only [admitted, hc]
      split
      · rfl
      · simp [hfin]
  | observe seq syn => rfl
  | acknowledge ack tsNs gapTimeoutNs => rfl
  | rstMatchesNext seq => rfl
  | finalize tsNs => rfl

/-- What one call delivers: the walk reads `Known` off, and what stays ahead of an
open half is still `Known`. -/
structure Tells (h : TcpHalf) (n : ℕ) (c : Call) (w' : Pass) (n' : ℕ)
    (es : List (Span UInt8)) : Prop where
  delivers : Span.Delivers (h.Known c) n es (n + Span.width es)
  emits : Pass.Emits { half := h } w' es
  rest : w'.half.finConsumed = false →
    n' = n + Span.width es ∧ ∀ p b, n' ≤ p → (w'.half.Held p b ↔ h.Known c p b)

/-- A path whose start holds what is known. -/
theorem walk_tells {h : TcpHalf} {n n' : ℕ} {c : Call} {w w' : Pass} (hp : Pass.Path w w')
    (hstart : Pass.Emits { half := h } w []) (hw : w.half.Sound n) (hw' : w'.half.Sound n')
    (hknown : ∀ p b, n ≤ p → (w.half.Held p b ↔ h.Known c p b)) :
    ∃ es, Tells h n c w' n' es := by
  obtain ⟨es, hes⟩ := hp.reads hw hw'
  refine ⟨es, hes.delivers.congr hknown, hstart.trans hes.emits, fun hopen ↦ ?_⟩
  rcases hes.lands with ⟨-, hn', hheld⟩ | ⟨-, hclosed, -⟩
  · refine ⟨hn', fun p b hpn ↦ ?_⟩
    rw [hheld p b (by omega), hknown p b (by omega)]
  · simp [hclosed] at hopen

/-- New payload straight into the output, then a path. -/
theorem push_tells {h : TcpHalf} {n n' : ℕ} {c : Call} {w w' : Pass} {data : Bytes} {tsNs : ℕ}
    (hp : Pass.Path (w.push data tsNs) w') (hstart : Pass.Emits { half := h } w [])
    (hw : w.half.Sound n) (hempty : w.half.outOfOrder.entries = []) (hw' : w'.half.Sound n')
    (hopen : w.half.finConsumed = false) (hne : data ≠ []) (hmax : n + data.length ≤ u64Max)
    (hknown : ∀ p b, n ≤ p → (h.Known c p b ↔ data[p - n]? = some b)) :
    ∃ es, Tells h n c w' n' es := by
  have hs := Pass.push_sound hw hempty hopen data tsNs
  rw [satAdd_of_le hmax] at hs
  have hoff := hw.offset_le
  have hbeyond : ∀ p b, n + data.length ≤ p →
      ((w.push data tsNs).half.Held p b ↔ h.Known c p b) := by
    intro p b hpn
    rw [hknown p b (by omega), List.getElem?_eq_none (by omega)]
    simp [Held, Holds, Pass.push, hempty]
  obtain ⟨fs, hfs⟩ := hp.reads hs hw'
  have hwidth : n + Span.width (.chunk data :: fs) = n + data.length + Span.width fs := by
    simp [Span.length, Nat.add_assoc]
  refine ⟨.chunk data :: fs, ?_, ?_, fun hopen' ↦ ?_⟩
  · rw [hwidth]
    refine .chunk n data fs _ hne ?_ (hfs.delivers.congr hbeyond)
    intro i b hb
    rw [hknown _ b (by omega)]
    simpa using hb
  · exact (hstart.trans (Pass.push_emits tsNs (by omega))).trans hfs.emits
  · rw [hwidth]
    rcases hfs.lands with ⟨-, hn', hheld⟩ | ⟨-, hclosed, -⟩
    · refine ⟨hn', fun p b hpn ↦ ?_⟩
      rw [hheld p b (by omega), hbeyond p b (by omega)]
    · simp [hclosed] at hopen'

theorem Does.tells {h : TcpHalf} {n n' : ℕ} {c : Call} {w' : Pass} (hi : h.Idle n)
    (hc : h.primed c = h) (hd : Does h n c w') (hi' : w'.half.Idle n') (hnew : h.BringsNew c) :
    ∃ es, Tells h n c w' n' es := by
  cases hd with
  | @walk c w w' hnoted hmono hem hgaps hquiet hp =>
      have hstart : Pass.Emits { half := h } w [] := by
        refine .of_eq hem hgaps ?_
        rw [hnoted]
      refine walk_tells hp hstart (hnoted.sound hi.sound) hi'.sound fun p b _ ↦ ?_
      simp only [Known, admitted_of_closed hc hquiet p, reduceCtorEq, and_false, or_false]
      rw [hnoted]
      rfl
  | @store seq syn fin tsNs data lim w w' hopen hstores hp =>
      simp only [primed] at hc
      have hadm : ∀ p b, n ≤ p → (h.admitted (.accept seq syn fin tsNs data lim) p = some b ↔ _) :=
        fun p b hnp ↦ admitted_accept hi.sound.next hopen hc hnp
      have hmark := h.arrive_remarked seq syn fin data n
      have hout := h.arrive_out seq syn fin data n
      have hs := arrive_sound hi.sound hopen seq syn fin data
      have hfresh := arrive_new hi hopen seq syn fin data
      obtain ⟨k, hk⟩ := h.arrive_data seq syn fin data n
      obtain ⟨hend, hsome⟩ : extendSeq (payloadSeq seq syn) n + data.length < u64Max ∧
          (h.outOfOrder.isEmpty → data ≠ [] →
            n < extendSeq (payloadSeq seq syn) n + data.length) := by
        simp only [BringsNew, hc] at hnew
        exact hnew n hi.sound.next hopen
      generalize h.arrive seq syn fin data n = a at *
      generalize extendSeq (payloadSeq seq syn) n = start at *
      have hlen : a.data.length ≤ data.length := by
        rw [hk, List.length_take]
        exact min_le_right _ _
      have hstart : Pass.Emits { half := h } a.pass [] := by
        refine .of_eq ?_ ?_ ?_
        · rw [hout]
        · rw [hout]
        · rw [hmark.half]
      have hheld : ∀ p b, a.pass.half.Held p b ↔ h.Held p b := by
        intro p b
        rw [hmark.half]
        rfl
      have hfin : a.pass.half.finConsumed = false := by
        rw [hmark.half]
        exact hopen
      cases hstores with
      | nothing hnil =>
          refine walk_tells hp hstart hs hi'.sound fun p b hnp ↦ ?_
          simp [Known, hadm p b hnp, hnil, hheld]
      | buffer hne hcase hlo hins =>
          have hins' : Pass.Emits a.pass w [] := by
            refine .of_eq ?_ ?_ ?_
            · rw [hins.out]
            · rw [hins.out]
            · rw [hins.half]
          have hsat : satAdd start a.data.length = start + a.data.length :=
            satAdd_of_le (by omega)
          have hw := hins.sound hs hfin (by omega)
          refine walk_tells hp (hstart.trans hins') hw hi'.sound fun p b hnp ↦ ?_
          rw [hins.held, Known, hadm p b hnp]
          simp only [hheld, Pass.segmentBytes, hsat]
          refine or_congr Iff.rfl (and_congr Iff.rfl ⟨?_, ?_⟩)
          · rintro ⟨h₁, h₂, h₃⟩
            exact ⟨by omega, h₃⟩
          · rintro ⟨h₁, h₂⟩
            have := (List.getElem?_eq_some_iff.mp h₂).1
            exact ⟨by omega, by omega, h₂⟩
      | direct hle hlt hempty hw₀ =>
          have hdrop : a.data.drop (n - start) ≠ [] := by
            rw [ne_eq, List.drop_eq_nil_iff]
            omega
          have hmax : n + (a.data.drop (n - start)).length ≤ u64Max := by
            rw [List.length_drop]
            omega
          have hknown : ∀ p b, n ≤ p → (h.Known (.accept seq syn fin tsNs data lim) p b ↔
              (a.data.drop (n - start))[p - n]? = some b) := by
            intro p b hnp
            have hfree : ∀ x, ¬ h.Held p x := by
              intro x hx
              obtain ⟨e, he, -⟩ := (hheld p x).mpr hx
              simp [hempty] at he
            rw [Known, hadm p b hnp, List.getElem?_drop,
              show n - start + (p - n) = p - start by omega]
            simp [hfree, show start ≤ p by omega]
          rcases hw₀ with rfl | rfl
          · exact push_tells hp hstart hs hempty hi'.sound hfin hdrop hmax hknown
          · exact push_tells (w := a.pass.markRetransmit) hp hstart.marked hs hempty hi'.sound
              hfin hdrop hmax hknown
      | replay hne hle hempty =>
          -- the defect: excluded, since the payload has something new in it
          have hnil : h.outOfOrder.isEmpty = true := by
            rw [hmark.half] at hempty
            exact isEmpty_iff.mpr hempty
          have hdata : data ≠ [] := by
            rintro rfl
            simp [hk] at hne
          have hlt := hfresh (hsome hnil hdata) hne
          omega

/-! ## Runs -/

/-- While the half is open, it stands at its stream offset from the origin `o` and
holds, from there on, exactly what was `seen`. -/
structure Tracks (h : TcpHalf) (o : ℕ) (seen : ℕ → Option UInt8) (n : ℕ) : Prop where
  idle : h.Idle n
  place : h.finConsumed = false → n = o + h.streamOffset
  held : h.finConsumed = false → ∀ p b, n ≤ p → (h.Held p b ↔ seen p = some b)

theorem Tracks.primed {h : TcpHalf} {o n : ℕ} {seen : ℕ → Option UInt8} (ht : h.Tracks o seen n)
    (c : Call) : (h.primed c).Tracks o seen n := by
  obtain ⟨hi, hnoted⟩ := ht.idle.primed c
  refine ⟨hi, ?_, ?_⟩
  · rw [hnoted]
    exact ht.place
  · rw [hnoted]
    exact ht.held

theorem admitted_primed (h : TcpHalf) (c : Call) (p : ℕ) :
    (h.primed c).admitted c p = h.admitted c p := by
  cases c with
  | accept seq syn fin tsNs data lim => simp only [TcpHalf.primed, admitted, observe_observe]
  | observe seq syn => rfl
  | acknowledge ack tsNs gapTimeoutNs => rfl
  | rstMatchesNext seq => rfl
  | finalize tsNs => rfl

theorem bringsNew_primed {h : TcpHalf} {c : Call} (hnew : h.BringsNew c) :
    (h.primed c).BringsNew c := by
  cases c with
  | accept seq syn fin tsNs data lim =>
      simpa only [TcpHalf.primed, BringsNew, observe_observe] using hnew
  | observe seq syn => trivial
  | acknowledge ack tsNs gapTimeoutNs => trivial
  | rstMatchesNext seq => trivial
  | finalize tsNs => trivial

theorem Tracks.known {h : TcpHalf} {o n : ℕ} {seen : ℕ → Option UInt8} (ht : h.Tracks o seen n)
    (hopen : h.finConsumed = false) (c : Call) {p : ℕ} (hp : n ≤ p) (b : UInt8) :
    h.Known c p b ↔ (seen p).or (h.admitted c p) = some b := by
  simp only [Known, ht.held hopen p _ hp]
  cases hs : seen p with
  | none => simp
  | some x => simp

/-- A closed half does nothing. -/
theorem Does.of_closed {h : TcpHalf} {n : ℕ} {c : Call} {w' : Pass} (hd : Does h n c w')
    (hclosed : h.finConsumed = true) : Pass.Emits { half := h } w' [] ∧
      w'.half.finConsumed = true := by
  cases hd with
  | @walk c w w' hnoted hmono hem hgaps hquiet hp =>
      have hfin : w.half.finConsumed = true := by
        rw [hnoted]
        exact hclosed
      obtain ⟨ts, rfl⟩ := hp.of_closed hfin
      refine ⟨.of_eq hem hgaps ?_, hfin⟩
      change w.half.streamOffset = _
      rw [hnoted]
  | store hopen => simp [hclosed] at hopen

/-- The step lemma. -/
theorem Tracks.step {h : TcpHalf} {o n : ℕ} {seen : ℕ → Option UInt8} (ht : h.Tracks o seen n)
    {c : Call} (hnew : h.BringsNew c) :
    ∃ n' es, (h.step c).half.Tracks o (fun p ↦ (seen p).or (h.admitted c p)) n' ∧
      Pass.Emits { half := h } (h.step c) es ∧ (∀ e ∈ es, 0 < e.length) ∧
      (∀ q data, (q, data) ∈ Span.chunksAt h.streamOffset es → ∀ i b, data[i]? = some b →
        (seen (o + q + i)).or (h.admitted c (o + q + i)) = some b) ∧
      ∀ q len, (q, len) ∈ Span.gapsAt h.streamOffset es → ∀ i, i < len →
        (seen (o + q + i)).or (h.admitted c (o + q + i)) = none := by
  obtain ⟨hdoes, n', -, hi'⟩ := ht.idle.step c
  have hoff : (h.primed c).streamOffset = h.streamOffset := by rw [(ht.idle.primed c).2]
  have ht₀ := ht.primed c
  simp only [← admitted_primed h c]
  suffices ∃ es, Pass.Emits { half := h.primed c } (h.step c) es ∧ (∀ e ∈ es, 0 < e.length) ∧
      ((h.step c).half.finConsumed = false → n' = o + (h.step c).half.streamOffset ∧
        ∀ p b, n' ≤ p → ((h.step c).half.Held p b ↔
          (seen p).or ((h.primed c).admitted c p) = some b)) ∧
      (∀ q data, (q, data) ∈ Span.chunksAt (h.primed c).streamOffset es → ∀ i b,
        data[i]? = some b →
        (seen (o + q + i)).or ((h.primed c).admitted c (o + q + i)) = some b) ∧
      ∀ q len, (q, len) ∈ Span.gapsAt (h.primed c).streamOffset es → ∀ i, i < len →
        (seen (o + q + i)).or ((h.primed c).admitted c (o + q + i)) = none by
    obtain ⟨es, hem, hpos, hrest, hchunks, hgaps⟩ := this
    refine ⟨n', es, ⟨hi', fun hopen ↦ (hrest hopen).1, fun hopen ↦ (hrest hopen).2⟩, ?_, hpos,
      by simpa only [hoff] using hchunks, by simpa only [hoff] using hgaps⟩
    exact ⟨by simpa only [hoff] using hem.chunks, by simpa only [hoff] using hem.gaps,
      by simpa only [hoff] using hem.offset⟩
  by_cases hopen : (h.primed c).finConsumed = false
  · obtain ⟨es, hes⟩ := hdoes.tells ht₀.idle (primed_primed h c) hi' (bringsNew_primed hnew)
    have hn := ht₀.place hopen
    refine ⟨es, hes.emits, hes.delivers.length_pos, fun hopen' ↦ ?_, ?_, ?_⟩
    · obtain ⟨hn', hheld⟩ := hes.rest hopen'
      refine ⟨?_, fun p b hp ↦ ?_⟩
      · have hoff' := hes.emits.offset
        simp only at hoff'
        omega
      · rw [hheld p b hp, ht₀.known hopen c (by omega) b]
    · intro q data hmem i b hb
      obtain ⟨hle, hknown, -⟩ := hes.delivers.chunk_known hmem hb
      rw [show n + (q - (h.primed c).streamOffset) + i = o + q + i by omega] at hknown
      exact (ht₀.known hopen c (by omega) b).mp hknown
    · intro q len hmem i hlt
      obtain ⟨hle, hunknown, -⟩ := hes.delivers.gap_unknown hmem
      refine Option.eq_none_iff_forall_ne_some.mpr fun b hb ↦ hunknown i hlt b ?_
      rw [show n + (q - (h.primed c).streamOffset) + i = o + q + i by omega]
      exact (ht₀.known hopen c (by omega) b).mpr hb
  · have hclosed : (h.primed c).finConsumed = true := by simpa using hopen
    obtain ⟨hem, hclosed'⟩ := hdoes.of_closed hclosed
    exact ⟨[], hem, by simp, by simp [hclosed'], by simp [Span.chunksAt], by simp [Span.gapsAt]⟩

theorem admitted_default {c : Call} (hc : c.origin? = none) (h : TcpHalf) (p : ℕ) :
    h.admitted c p = none := by
  cases c with
  | accept seq syn fin tsNs data lim => simp [Call.origin?] at hc
  | observe seq syn => rfl
  | acknowledge ack tsNs gapTimeoutNs => rfl
  | rstMatchesNext seq => rfl
  | finalize tsNs => rfl

/-- The half that the call after a run finds, primed for it: untouched, or tracking what
the run admitted. -/
inductive Reached (cs : List Call) : Prop
  | untouched : origin? cs = none → ({} : TcpHalf).after cs = {} →
      (∀ p, ({} : TcpHalf).firstAdmitted cs p = none) →
      (∀ out ∈ ({} : TcpHalf).outcomes cs, out = {}) → Reached cs
  | tracks (o n : ℕ) (es : List (Span UInt8)) : origin? cs = some o →
      (({} : TcpHalf).after cs).Tracks o (({} : TcpHalf).firstAdmitted cs) n →
      emittedChunks (({} : TcpHalf).outcomes cs) = Span.chunksAt 0 es →
      (({} : TcpHalf).after cs).streamOffset = Span.width es →
      Reached cs

/-- The call after an untouched run that initializes the half. -/
theorem tracks_of_origin {c : Call} {o : ℕ} (hc : c.origin? = some o)
    {seen : ℕ → Option UInt8} (hseen : ∀ p, seen p = none) :
    (({} : TcpHalf).primed c).Tracks o seen o := by
  refine ⟨primed_idle_of_default hc, fun _ ↦ ?_, fun _ p b _ ↦ ?_⟩
  · rw [primed_eq]
    rfl
  · rw [primed_eq, hseen]
    simp only [reduceCtorEq, iff_false]
    exact not_holds_empty p b

/-- The chunks and gaps of call `c` after the run `as`, judged by what the run and the
call admitted. -/
structure Told (as : List Call) (c : Call) (out : ReassemblyOutcome) : Prop where
  chunks : ∀ chunk ∈ out.emitted, ∃ o, origin? (as ++ [c]) = some o ∧
    ∀ i b, chunk.data[i]? = some b →
      ({} : TcpHalf).firstAdmitted (as ++ [c]) (o + chunk.offset + i) = some b
  gaps : ∀ gap ∈ out.gaps, ∃ o, origin? (as ++ [c]) = some o ∧
    ∀ i, i < gap.len → ({} : TcpHalf).firstAdmitted (as ++ [c]) (o + gap.offset + i) = none

theorem firstAdmitted_snoc (as : List Call) (c : Call) (p : ℕ) :
    ({} : TcpHalf).firstAdmitted (as ++ [c]) p =
      (({} : TcpHalf).firstAdmitted as p).or ((({} : TcpHalf).after as).admitted c p) := by
  rw [firstAdmitted_append]
  simp [firstAdmitted]

theorem emittedChunks_snoc (as : List Call) (c : Call) :
    emittedChunks (({} : TcpHalf).outcomes (as ++ [c])) =
      emittedChunks (({} : TcpHalf).outcomes as) ++
        ((({} : TcpHalf).after as).step c).out.emitted.map (·.placed) := by
  rw [outcomes_append]
  simp [emittedChunks, outcomes]

theorem after_snoc (as : List Call) (c : Call) :
    ({} : TcpHalf).after (as ++ [c]) = ((({} : TcpHalf).after as).step c).half := by
  rw [after_append]
  rfl

theorem Tracks.extend {h : TcpHalf} {as : List Call} {c : Call} {o n : ℕ}
    (es : List (Span UInt8)) (ht : h.Tracks o (({} : TcpHalf).firstAdmitted as) n)
    (hnew : h.BringsNew c) (hstep : h.step c = (({} : TcpHalf).after as).step c)
    (hadm : ∀ p, h.admitted c p = (({} : TcpHalf).after as).admitted c p)
    (ho : origin? (as ++ [c]) = some o)
    (hes : emittedChunks (({} : TcpHalf).outcomes as) = Span.chunksAt 0 es)
    (hoff : h.streamOffset = Span.width es) :
    Reached (as ++ [c]) ∧ Told as c ((({} : TcpHalf).after as).step c).out := by
  obtain ⟨n', fs, ht', hem, -, hchunks, hgaps⟩ := ht.step hnew
  have hchunksEq := hem.chunks
  have hgapsEq := hem.gaps
  have hoffEq := hem.offset
  simp only [hstep, hadm, ← firstAdmitted_snoc, List.map_nil, List.nil_append] at *
  refine ⟨.tracks o n' (es ++ fs) ho ?_ ?_ ?_, ⟨?_, ?_⟩⟩
  · rw [after_snoc]
    exact ht'
  · rw [emittedChunks_snoc, hes, hchunksEq, Span.chunksAt_append, hoff, Nat.zero_add]
  · rw [after_snoc, hoffEq, hoff, Span.width_append]
  · intro chunk hmem
    refine ⟨o, ho, hchunks chunk.offset chunk.data ?_⟩
    rw [← hchunksEq]
    exact List.mem_map_of_mem (f := fun c : ReassembledChunk ↦ c.placed) hmem
  · intro gap hmem
    refine ⟨o, ho, hgaps gap.offset gap.len ?_⟩
    rw [← hgapsEq]
    exact List.mem_map_of_mem (f := fun g : StreamGap ↦ g.placed) hmem

theorem origin?_snoc (as : List Call) (c : Call) :
    origin? (as ++ [c]) = (origin? as).or c.origin? := by
  simp [origin?, List.findSome?_append]

theorem Reached.step {as : List Call} (hr : Reached as) {c : Call}
    (hnew : (({} : TcpHalf).after as).BringsNew c) :
    Reached (as ++ [c]) ∧ Told as c ((({} : TcpHalf).after as).step c).out := by
  cases hr with
  | untouched ho hafter hseen hout =>
      cases hc : c.origin? with
      | none =>
          have hstep := step_default hc
          rw [hafter, hstep]
          refine ⟨.untouched ?_ ?_ ?_ ?_, by simp, by simp⟩
          · rw [origin?_snoc, ho, hc]
            rfl
          · rw [after_snoc, hafter, hstep]
          · intro p
            rw [firstAdmitted_snoc, hseen, admitted_default hc]
            rfl
          · rw [outcomes_append, hafter]
            simpa [outcomes, hstep, or_imp, forall_and] using hout
      | some o =>
          rw [hafter] at hnew
          refine (tracks_of_origin hc hseen).extend [] (bringsNew_primed hnew) ?_ ?_ ?_
            (emittedChunks_trivial hout).1 (by rw [primed_eq]; rfl)
          · rw [hafter, step_primed]
          · intro p
            rw [hafter, admitted_primed]
          · rw [origin?_snoc, ho, hc]
            rfl
  | tracks o n es ho ht hes hoff =>
      refine ht.extend es hnew rfl (fun _ ↦ rfl) ?_ hes hoff
      rw [origin?_snoc, ho]
      rfl

theorem reached_of_bringsNew {cs : List Call} (hnew : ({} : TcpHalf).Along BringsNew cs) :
    Reached cs := by
  induction cs using List.reverseRecOn with
  | nil => exact .untouched rfl rfl (fun _ ↦ rfl) (by simp [outcomes])
  | append_singleton as c ih =>
      obtain ⟨has, hc⟩ := along_append.mp hnew
      exact ((ih has).step hc.1).1

theorem mem_outcomes {h : TcpHalf} {cs : List Call} {out : ReassemblyOutcome}
    (hout : out ∈ h.outcomes cs) :
    ∃ as c bs, cs = as ++ c :: bs ∧ out = ((h.after as).step c).out := by
  induction cs generalizing h with
  | nil => simp [outcomes] at hout
  | cons c cs ih =>
      rcases List.mem_cons.mp hout with rfl | hout
      · exact ⟨[], c, cs, rfl, rfl⟩
      · obtain ⟨as, c', bs, rfl, rfl⟩ := ih hout
        exact ⟨c :: as, c', bs, rfl, rfl⟩

theorem told_of_bringsNew {as bs : List Call} {c : Call}
    (hnew : ({} : TcpHalf).Along BringsNew (as ++ c :: bs)) :
    Told as c ((({} : TcpHalf).after as).step c).out := by
  obtain ⟨has, hc⟩ := along_append.mp hnew
  exact ((reached_of_bringsNew has).step hc.1).2

theorem origin?_extend {as bs : List Call} {c : Call} {o : ℕ}
    (ho : origin? (as ++ [c]) = some o) : origin? (as ++ c :: bs) = some o := by
  rw [origin?, List.append_cons, List.findSome?_append]
  rw [origin?] at ho
  simp [ho]

end TcpHalf

open TcpHalf in
/-- First-seen semantics of a run: emitted bytes are the first admitted at their
positions, no position is emitted twice, and gaps are declared where nothing has been
admitted yet. -/
structure FirstSeen (cs : List Call) : Prop where
  chunks : ∀ out ∈ ({} : TcpHalf).outcomes cs, ∀ chunk ∈ out.emitted,
    ∃ o, origin? cs = some o ∧ ∀ i b, chunk.data[i]? = some b →
      ({} : TcpHalf).firstAdmitted cs (o + chunk.offset + i) = some b
  once : (emittedChunks (({} : TcpHalf).outcomes cs)).Pairwise
    fun c d ↦ c.1 + c.2.length ≤ d.1
  gaps : ∀ as c bs, cs = as ++ c :: bs →
    ∀ gap ∈ ((({} : TcpHalf).after as).step c).out.gaps, ∃ o, origin? cs = some o ∧
      ∀ i, i < gap.len →
        ({} : TcpHalf).firstAdmitted (as ++ [c]) (o + gap.offset + i) = none

/-- Runs in which every segment ends below the top of the sequence space and no payload
arrives wholly behind while nothing is buffered have first-seen semantics. -/
theorem firstSeen_of_bringsNew (cs : List Call)
    (hnew : ({} : TcpHalf).Along TcpHalf.BringsNew cs) : FirstSeen cs := by
  refine ⟨?_, ?_, ?_⟩
  · intro out hout chunk hchunk
    obtain ⟨as, c, bs, rfl, rfl⟩ := TcpHalf.mem_outcomes hout
    obtain ⟨o, ho, hbytes⟩ := (TcpHalf.told_of_bringsNew hnew).chunks chunk hchunk
    refine ⟨o, TcpHalf.origin?_extend ho, fun i b hb ↦ ?_⟩
    rw [List.append_cons, TcpHalf.firstAdmitted_append, hbytes i b hb]
    rfl
  · cases TcpHalf.reached_of_bringsNew hnew with
    | untouched _ _ _ hout => simp [(TcpHalf.emittedChunks_trivial hout).1]
    | tracks o n es _ _ hes _ =>
        rw [hes]
        exact Span.chunksAt_apart 0 es
  · rintro as c bs rfl gap hgap
    obtain ⟨o, ho, hnone⟩ := (TcpHalf.told_of_bringsNew hnew).gaps gap hgap
    exact ⟨o, TcpHalf.origin?_extend ho, hnone⟩

/-- A segment and its retransmission. -/
def replayRun : List Call :=
  [.accept 100 false false 0 [1, 2, 3, 4] ⟨64, 8, 9⟩,
    .accept 100 false false 1 [1, 2, 3, 4] ⟨64, 8, 9⟩]

/-- The retransmission is emitted again, as bytes that no call has admitted. -/
theorem not_firstSeen_replayRun : ¬ FirstSeen replayRun := by
  intro h
  have hout : ({ emitted := [⟨4, 1, [1, 2, 3, 4]⟩], retransmit := true } : ReassemblyOutcome) ∈
      ({} : TcpHalf).outcomes replayRun := by decide
  obtain ⟨o, ho, hbytes⟩ := h.chunks _ hout ⟨4, 1, [1, 2, 3, 4]⟩ (by simp)
  have horigin : origin? replayRun = some (2 ^ 32 + 100) := by decide
  obtain rfl : 2 ^ 32 + 100 = o := Option.some.inj (horigin.symm.trans ho)
  exact absurd (hbytes 0 1 rfl) (by decide)

/-- A hole, overlapping out-of-order segments and the bytes that fill the hole. -/
def overlapRun : List Call :=
  [.accept 100 false false 0 [1, 2] ⟨64, 8, 9⟩, .accept 104 false false 0 [5, 6] ⟨64, 8, 9⟩,
    .accept 101 false false 0 [9, 3, 4, 9, 9, 7] ⟨64, 8, 9⟩]

theorem firstSeen_overlapRun :
    emittedChunks (({} : TcpHalf).outcomes overlapRun) =
      [(0, [1, 2]), (2, [3, 4]), (4, [5, 6]), (6, [7])] ∧ FirstSeen overlapRun := by
  refine ⟨by decide, firstSeen_of_bringsNew overlapRun ?_⟩
  decide

end Bazalt.Flow
