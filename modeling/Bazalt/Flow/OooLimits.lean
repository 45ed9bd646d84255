import Bazalt.Flow.Rounds
import Bazalt.Flow.Tiling

/-!
# The limits of the out-of-order buffer

Pressure recovery stops when a round makes no progress, and a round makes none when a
tentative FIN stands before the first buffered segment.  Only segments that were there
before the FIN can lie behind it, since payload that arrives behind a tentative FIN discards
it.  So what such a FIN keeps in the buffer is no more than what an earlier call left.
-/

namespace Bazalt.Flow

open Lib OrdMap

namespace TcpHalf

def Within (h : TcpHalf) (lim : Limits) : Prop :=
  h.outOfOrderBytes ≤ lim.maxOoo ∧ h.outOfOrder.size ≤ lim.maxOooSegments

/-- The buffered segments behind `f`. -/
def behind (h : TcpHalf) (f : ℕ) : List (ℕ × BufferedSegment) :=
  h.outOfOrder.entries.filter fun e ↦ decide (f < e.1)

/-- What is buffered behind a pending FIN is within the limits. -/
def FinFits (h : TcpHalf) (lim : Limits) : Prop :=
  ∀ f, h.pendingFin = some f →
    ((h.behind f).map fun e ↦ e.2.data.length).sum ≤ lim.maxOoo ∧
      (h.behind f).length ≤ lim.maxOooSegments

/-- Segments that all come from a buffer within the limits. -/
theorem Within.of_subset {h : TcpHalf} {lim : Limits} (hw : h.Within lim) (hb : h.Buffered)
    {es : List (ℕ × BufferedSegment)} (hnodup : es.Nodup) (hsub : es ⊆ h.outOfOrder.entries) :
    (es.map fun e ↦ e.2.data.length).sum ≤ lim.maxOoo ∧ es.length ≤ lim.maxOooSegments := by
  obtain ⟨l, hperm, hl⟩ := List.subperm_of_subset hnodup hsub
  have hsum : (es.map fun e ↦ e.2.data.length).sum ≤ total BufferedSegment.data h.outOfOrder := by
    rw [← (hperm.map fun e : ℕ × BufferedSegment ↦ e.2.data.length).sum_eq]
    exact (hl.map _).sum_le_sum fun _ _ ↦ Nat.zero_le _
  refine ⟨(hb.bytes ▸ hsum).trans hw.1, ?_⟩
  rw [← hperm.length_eq]
  exact hl.length_le.trans hw.2

theorem nodup_entries (m : OrdMap ℕ BufferedSegment) : m.entries.Nodup :=
  m.sorted.imp fun hlt heq ↦ absurd (heq ▸ hlt) (lt_irrefl _)

theorem Within.finFits {h : TcpHalf} {lim : Limits} (hw : h.Within lim) (hb : h.Buffered) :
    h.FinFits lim := fun _ _ ↦
  hw.of_subset hb ((nodup_entries _).filter _) (List.filter_subset_self _)

theorem Within.of_empty {h : TcpHalf} (hb : h.Buffered) (hempty : h.outOfOrder.entries = [])
    (lim : Limits) : h.Within lim := by
  rw [Within, hb.bytes, total, size, hempty]
  exact ⟨Nat.zero_le _, Nat.zero_le _⟩

end TcpHalf

namespace Pass

theorem Path.within {w w' : Pass} (hp : Path w w') {n : ℕ} (h : w.half.Sound n) {lim : Limits}
    (hw : w.half.Within lim) : w'.half.Within lim :=
  ⟨(hp.bytes_le h).trans hw.1, hp.size_le.trans hw.2⟩

theorem Path.finFits {w w' : Pass} (hp : Path w w') {lim : Limits} (hf : w.half.FinFits lim) :
    w'.half.FinFits lim := by
  intro f hpend
  have hsub : (w'.half.behind f).Sublist (w.half.behind f) := hp.entries_sublist.filter _
  obtain ⟨hbytes, hcount⟩ := hf f (hp.frame.1 ▸ hpend)
  exact ⟨((hsub.map _).sum_le_sum fun _ _ ↦ Nat.zero_le _).trans hbytes,
    hsub.length_le.trans hcount⟩

theorem recoverOooPressureLoop_within {lim : Limits} (fuel : ℕ) : ∀ (w : Pass) (n : ℕ),
    w.half.Sound n → w.half.FinFits lim → w.half.outOfOrder.size < fuel →
      (recoverOooPressureLoop lim.maxOoo lim.maxOooSegments fuel w).half.Within lim := by
  induction fuel with
  | zero => intro w n _ _ hfuel; omega
  | succ fuel ih =>
      intro w n h hfits hfuel
      have hbytes := h.buffered.bytes
      unfold recoverOooPressureLoop
      split_ifs with hover
      · rw [h.next]
        cases hfirst : w.half.outOfOrder.first? with
        | none => exact TcpHalf.Within.of_empty h.buffered (first?_eq_none.mp hfirst) lim
        | some e =>
            -- a FIN before the first segment would have everything behind it
            have hclip : ∀ f, w.half.pendingFin = some f → e.1 ≤ f := by
              intro f hpend
              by_contra hlt
              have hall : w.half.behind f = w.half.outOfOrder.entries := by
                rw [TcpHalf.behind, List.filter_eq_self]
                intro a ha
                rw [decide_eq_true_eq]
                exact (not_le.mp hlt).trans_le (first?_le hfirst ha)
              obtain ⟨hsum, hcount⟩ := hfits f hpend
              rw [hall] at hsum hcount
              rw [total] at hbytes
              rw [size] at hover
              omega
            have hgap := gapToFirst_trail h hfirst le_rfl
            have hprogress := round_progress h hfirst hclip rfl
            simp only
            generalize (if n < e.1 then w.emitGapTo e.1 else w) = gapped at hgap hprogress ⊢
            obtain ⟨m, -, hm⟩ := hgap.sound h
            have hflush := flushOoo_trail hm
            obtain ⟨k, -, hk⟩ := hflush.sound hm
            have hclosed : gapped.flushOoo.half.finConsumed = true →
                gapped.flushOoo.half.Within lim := fun hclosed ↦
              TcpHalf.Within.of_empty hk.buffered (hk.closed hclosed) lim
            rcases hprogress with hfin | ⟨hsame, hlt⟩
            · rw [if_pos (.inl hfin)]
              exact hclosed hfin
            · rw [← hsame] at hlt
              have hless := hflush.path.bytes_lt hm hlt
              by_cases hfin : gapped.flushOoo.half.finConsumed = true
              · rw [if_pos (.inl hfin)]
                exact hclosed hfin
              · rw [if_neg (by rintro (hfin' | hle); exacts [hfin hfin', absurd hle (by omega)])]
                refine ih _ k hk (Path.finFits (hgap.path.trans hflush.path) hfits) ?_
                rw [hsame] at hlt
                omega
      · rw [not_or] at hover
        exact ⟨not_lt.mp hover.1, not_lt.mp hover.2⟩

theorem recover_within {w : Pass} {n : ℕ} (h : w.half.Sound n) {lim : Limits}
    (hfits : w.half.FinFits lim) :
    (w.recoverKnownAck.recoverOooPressure lim.maxOoo lim.maxOooSegments).half.Within lim := by
  have hack := recoverKnownAck_trail h
  obtain ⟨m, -, hm⟩ := hack.sound h
  exact recoverOooPressureLoop_within _ _ m hm (hack.path.finFits hfits) (Nat.lt_succ_self _)

/-- Payload that ends at or before a pending FIN adds nothing behind it. -/
theorem Stores.finFits {w w₁ : Pass} {n start tsNs : ℕ} {data : Bytes} {lim : Limits}
    (hs : Stores w n start tsNs data w₁) (h : w.half.Sound n) (hw : w.half.Within lim)
    (hend : ∀ f, w.half.pendingFin = some f → data ≠ [] → satAdd start data.length ≤ f) :
    w₁.half.FinFits lim := by
  have hnone : ∀ {w' : Pass}, w'.half.outOfOrder.entries = [] → w'.half.FinFits lim := by
    intro w' hempty f _
    rw [TcpHalf.behind, hempty]
    exact ⟨Nat.zero_le _, Nat.zero_le _⟩
  cases hs with
  | nothing => exact hw.finFits h.buffered
  | @buffer _ lo hne hcase hlo hins =>
      intro f hpend
      rw [hins.half] at hpend
      refine hw.of_subset h.buffered ((TcpHalf.nodup_entries _).filter _) fun e he ↦ ?_
      obtain ⟨hmem, hlt⟩ := List.mem_filter.mp he
      rcases hins.adds e hmem with hold | ⟨-, hhi⟩
      · exact hold
      · have := hend f hpend hne
        have := of_decide_eq_true hlt
        omega
  | direct hle hlt hempty hw₀ =>
      rcases hw₀ with rfl | rfl
      · exact hnone hempty
      · exact hnone hempty
  | replay hne hle hempty => exact hnone hempty

/-- Payload that goes straight into the output leaves the buffer alone. -/
theorem acceptContiguous_sublist {w w' : Pass} {start n tsNs : ℕ} {data : Bytes}
    (h : w.acceptContiguous start n tsNs data = (w', false)) :
    w'.half.outOfOrder.entries.Sublist w.half.outOfOrder.entries := by
  have hemit : ∀ (w₀ : Pass) (bytes : Bytes),
      (w₀.emit bytes tsNs).half.outOfOrder.entries.Sublist w₀.half.outOfOrder.entries := by
    intro w₀ bytes
    unfold emit
    split_ifs
    · exact List.Sublist.refl _
    · exact (consumeFinIfReady_path (w₀.push bytes tsNs)).entries_sublist
  have hmark : (if start < n then w.markRetransmit else w).half = w.half := by
    split_ifs <;> rfl
  unfold acceptContiguous at h
  simp only at h
  generalize (if start < n then w.markRetransmit else w) = w₀ at h hmark
  generalize (if start < n ∧ n - start < data.length then n - start else 0) = skipped at h
  rw [← hmark]
  split_ifs at h
  · obtain ⟨rfl, -⟩ := Prod.mk.inj h
    exact hemit _ _
  · cases (Prod.mk.inj h).2
  · obtain ⟨rfl, -⟩ := Prod.mk.inj h
    exact List.Sublist.refl _

theorem acceptData_within {w : Pass} {n start : ℕ} (tsNs : ℕ) {data : Bytes} {lim : Limits}
    (h : w.half.Sound n) (hopen : w.half.finConsumed = false) (hw : w.half.Within lim)
    (hend : ∀ f, w.half.pendingFin = some f → data ≠ [] → satAdd start data.length ≤ f) :
    (w.acceptData start n tsNs data lim).half.Within lim := by
  unfold acceptData
  simp only
  split_ifs with hempty hahead
  · exact hw
  · have hstores := acceptAhead_stores h.buffered hahead (by simpa using hempty) tsNs
    obtain ⟨m, -, hm⟩ := hstores.sound h hopen
    exact recover_within hm (hstores.finFits h hw hend)
  · obtain ⟨w₁, hstores, htrail⟩ := acceptContiguous_trail h hopen (not_lt.mp hahead)
      (by simpa using hempty) tsNs
    obtain ⟨m, -, hm⟩ := hstores.sound h hopen
    obtain ⟨k, -, hk⟩ := htrail.sound hm
    split
    · next w₂ heq =>
        rw [heq] at htrail hk
        exact recover_within hk (htrail.path.finFits (hstores.finFits h hw hend))
    · next w₂ heq =>
        rw [heq] at hk
        have hsub := acceptContiguous_sublist heq
        refine ⟨?_, hsub.length_le.trans hw.2⟩
        rw [hk.buffered.bytes]
        exact (total_le_of_sublist hsub).trans (h.buffered.bytes ▸ hw.1)

end Pass

namespace TcpHalf

/-- A payload that is not thrown away whole ends before a pending FIN, or is cut there. -/
theorem arrive_cut (h : TcpHalf) (seq : BitVec 32) (syn fin : Bool) (data : Bytes) (n : ℕ) {f : ℕ}
    (hpend : (h.arrive seq syn fin data n).pass.half.pendingFin = some f)
    (hne : (h.arrive seq syn fin data n).data ≠ []) :
    (h.arrive seq syn fin data n).data = data ∧
        satAdd (extendSeq (payloadSeq seq syn) n) data.length ≤ f ∨
      (h.arrive seq syn fin data n).pass.half.FinValid f ∧
        f < satAdd (extendSeq (payloadSeq seq syn) n) data.length ∧
        extendSeq (payloadSeq seq syn) n + (h.arrive seq syn fin data n).data.length = f := by
  unfold arrive at hpend hne ⊢
  simp only at hpend hne ⊢
  generalize extendSeq (payloadSeq seq syn) n = start at hpend hne ⊢
  generalize (if fin ∧ n ≤ satAdd start data.length then
    h.markFin start (satAdd start data.length) n else h) = h₀ at hpend hne ⊢
  unfold Pass.truncateAtFin at hpend hne ⊢
  cases hfin : h₀.pendingFin with
  | none =>
      simp only [hfin] at hpend
      cases hpend
  | some f' =>
      simp only [hfin] at hpend hne ⊢
      split_ifs at hpend hne ⊢ with hlt htentative hbehind hempty
      · exact absurd rfl hne
      · exact absurd rfl hne
      · obtain rfl := Option.some.inj (hfin.symm.trans hpend)
        have hsat := satAdd_le_add start data.length
        refine .inr ⟨⟨hpend, ?_⟩, hlt, ?_⟩
        · by_contra hnot
          rw [not_or] at hnot
          exact htentative ⟨eq_true_of_ne_false hnot.1, hnot.2⟩
        · rw [List.length_take]
          omega
      · obtain rfl := Option.some.inj (hfin.symm.trans hpend)
        exact .inl ⟨rfl, not_lt.mp hlt⟩

/-- What truncation leaves of a payload ends at or before a pending FIN. -/
theorem arrive_end_le (h : TcpHalf) (seq : BitVec 32) (syn fin : Bool) (data : Bytes) (n : ℕ) {f : ℕ}
    (hpend : (h.arrive seq syn fin data n).pass.half.pendingFin = some f)
    (hne : (h.arrive seq syn fin data n).data ≠ []) :
    satAdd (extendSeq (payloadSeq seq syn) n) (h.arrive seq syn fin data n).data.length ≤ f := by
  rcases h.arrive_cut seq syn fin data n hpend hne with ⟨heq, hle⟩ | ⟨-, -, hend⟩
  · rwa [heq]
  · exact (satAdd_le_add _ _).trans hend.le

theorem accept_within {h : TcpHalf} {n : ℕ} (hi : h.Idle n) {lim : Limits} (hw : h.Within lim)
    {seq : BitVec 32} {syn : Bool} (hobs : h.observe seq syn = h) (fin : Bool) (tsNs : ℕ)
    (data : Bytes) : (h.accept seq syn fin tsNs data lim).half.Within lim := by
  simp only [accept, hobs, hi.sound.next]
  split_ifs with hfin
  · exact hw
  · have hopen : h.finConsumed = false := by simpa using hfin
    have hs := arrive_sound hi.sound hopen seq syn fin data
    have hmark := (h.arrive_remarked seq syn fin data n).half
    have hend := fun f ↦ h.arrive_end_le seq syn fin data n (f := f)
    have hopen' : (h.arrive seq syn fin data n).pass.half.finConsumed = false := by
      rw [hmark]
      exact hopen
    have hw' : (h.arrive seq syn fin data n).pass.half.Within lim := by
      rw [hmark]
      exact hw
    have hstart := h.arrive_startAbs seq syn fin data n
    have hexpected := h.arrive_expected seq syn fin data n
    generalize h.arrive seq syn fin data n = a at *
    rw [← hexpected] at hs
    rw [← hstart] at hend
    have hdata := Pass.acceptData_within tsNs hs hopen' hw' hend
    obtain ⟨w₁, hstores, htrail⟩ := Pass.acceptData_trail hs hopen' a.startAbs tsNs a.data lim
    obtain ⟨n₁, -, h₁⟩ := hstores.sound hs hopen'
    obtain ⟨n₂, -, h₂⟩ := htrail.sound h₁
    exact (a.settle_rest h₂).1.path.within h₂ hdata

theorem Treads.within {h : TcpHalf} {n : ℕ} {c : Call} {w' : Pass} {lim : Limits} (hi : h.Idle n)
    (hw : h.Within lim) (ht : Treads h n c w')
    (hc : ∀ seq syn fin tsNs data lim, c ≠ .accept seq syn fin tsNs data lim) :
    w'.half.Within lim := by
  cases ht with
  | @walk c w w' hnoted _ _ _ _ htrail =>
      refine htrail.path.within (hnoted.sound hi.sound) ?_
      rw [hnoted]
      exact hw
  | store => exact absurd rfl (hc _ _ _ _ _ _)

end TcpHalf

/-- The limits of the buffer that a call is made with. -/
def Call.Under (lim : Limits) : Call → Prop
  | .accept _ _ _ _ _ l => l.maxOoo = lim.maxOoo ∧ l.maxOooSegments = lim.maxOooSegments
  | _ => True

instance (lim : Limits) : DecidablePred (Call.Under lim)
  | .accept _ _ _ _ _ l =>
      inferInstanceAs (Decidable (l.maxOoo = lim.maxOoo ∧ l.maxOooSegments = lim.maxOooSegments))
  | .observe _ _ => isTrue trivial
  | .acknowledge _ _ _ => isTrue trivial
  | .rstMatchesNext _ => isTrue trivial
  | .finalize _ => isTrue trivial

namespace TcpHalf

/-- The step lemma. -/
theorem step_within {h : TcpHalf} {n : ℕ} (hi : h.Idle n) {lim : Limits} (hw : h.Within lim)
    {c : Call} (hc : h.primed c = h) (hlim : c.Under lim) : (h.step c).half.Within lim := by
  have ht := (step_treads hi c hc).1
  cases c with
  | accept seq syn fin tsNs data l =>
      have hw' : h.Within l := by
        rw [Within, hlim.1, hlim.2]
        exact hw
      have hnext := accept_within hi hw' hc fin tsNs data
      rw [Within, hlim.1, hlim.2] at hnext
      exact hnext
  | observe seq syn => exact ht.within hi hw (by simp)
  | acknowledge ack tsNs gapTimeoutNs => exact ht.within hi hw (by simp)
  | rstMatchesNext seq => exact ht.within hi hw (by simp)
  | finalize tsNs => exact ht.within hi hw (by simp)

theorem primed_within {h : TcpHalf} {lim : Limits} (hw : h.Within lim) (c : Call) :
    (h.primed c).Within lim := by
  rw [primed_eq]
  exact hw

/-- The run lemma. -/
theorem settled_within {lim : Limits} {cs : List Call} : ∀ {h : TcpHalf}, h.Settled →
    h.Within lim → (∀ c ∈ cs, c.Under lim) → (h.after cs).Settled ∧ (h.after cs).Within lim := by
  induction cs with
  | nil => exact fun hs hw _ ↦ ⟨hs, hw⟩
  | cons c cs ih =>
      intro h hs hw hlim
      have hnext : (h.step c).half.Settled ∧ (h.step c).half.Within lim := by
        have hprimed : ∀ {n}, (h.primed c).Idle n → (h.step c).half.Settled ∧
            (h.step c).half.Within lim := by
          intro n hi
          have hstep := step_within hi (primed_within hw c) (primed_primed h c)
            (hlim c List.mem_cons_self)
          obtain ⟨n', -, hi'⟩ := (step_treads hi c (primed_primed h c)).2
          rw [step_primed] at hstep hi'
          exact ⟨.inr ⟨n', hi'⟩, hstep⟩
        rcases hs with rfl | ⟨n, hi⟩
        · cases hc : c.origin? with
          | none =>
              rw [step_default hc]
              exact ⟨.inl rfl, hw⟩
          | some o => exact hprimed (primed_idle_of_default hc)
        · exact hprimed (hi.primed c).1
      exact ih hnext.1 hnext.2 fun d hd ↦ hlim d (List.mem_cons_of_mem _ hd)

/-- The buffered intervals are not empty, do not meet and lie above the next expected byte,
their bytes are counted, and a consumed FIN leaves none. -/
structure BufferOk (h : TcpHalf) : Prop where
  nonempty : ∀ e ∈ h.outOfOrder.entries, e.2.data ≠ []
  disjoint : h.outOfOrder.entries.Pairwise fun a b ↦ a.1 + a.2.data.length ≤ b.1
  above : ∀ e ∈ h.outOfOrder.entries, ∃ n, h.nextAbs = some n ∧ n < e.1
  bytes : h.outOfOrderBytes = (h.outOfOrder.entries.map fun e ↦ e.2.data.length).sum
  closed : h.finConsumed = true → h.outOfOrder.entries = []

theorem Settled.bufferOk {h : TcpHalf} (hs : h.Settled) : h.BufferOk := by
  rcases hs with rfl | ⟨n, hi⟩
  · exact ⟨by simp, by simp, by simp, rfl, fun _ ↦ rfl⟩
  · have hb := hi.sound.buffered
    exact ⟨hb.tidy.nonempty, hb.tidy.apart, fun e he ↦ ⟨n, hi.sound.next, hi.ahead e he⟩, hb.bytes,
      hi.sound.closed⟩

/-- After every run of calls with the same limits the buffer is in order and within them. -/
theorem bufferOk_within (lim : Limits) (cs : List Call) (hlim : ∀ c ∈ cs, c.Under lim) :
    (({} : TcpHalf).after cs).BufferOk ∧ (({} : TcpHalf).after cs).Within lim := by
  have hempty : ({} : TcpHalf).Within lim := ⟨Nat.zero_le _, Nat.zero_le _⟩
  obtain ⟨hs, hw⟩ := settled_within (.inl rfl) hempty hlim
  exact ⟨hs.bufferOk, hw⟩

/-- Three segments ahead, a tentative FIN before the last of them, and one more segment. -/
def pressedRun : List Call :=
  [.accept 100 false false 0 [1] ⟨4, 2, 9⟩, .accept 110 false false 0 [2, 3] ⟨4, 2, 9⟩,
    .accept 120 false false 0 [4, 5] ⟨4, 2, 9⟩, .accept 115 false true 0 [] ⟨4, 2, 9⟩,
    .accept 106 false false 0 [6] ⟨4, 2, 9⟩]

theorem bufferOk_within_pressedRun :
    (∀ c ∈ pressedRun, c.Under ⟨4, 2, 9⟩) ∧
      (({} : TcpHalf).after pressedRun).pendingFin = some (2 ^ 32 + 115) ∧
      (({} : TcpHalf).after pressedRun).outOfOrderBytes = 4 ∧
      (({} : TcpHalf).after pressedRun).BufferOk ∧
      (({} : TcpHalf).after pressedRun).Within ⟨4, 2, 9⟩ :=
  ⟨by decide, by decide, by decide, bufferOk_within ⟨4, 2, 9⟩ pressedRun (by decide)⟩

end TcpHalf

end Bazalt.Flow
