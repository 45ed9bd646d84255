import Bazalt.Flow.Tiling

/-!
# Rounds of recovery

A round of a recovery loop declares the hole before the first buffered segment a gap and
flushes.  It removes the segment, unless a pending FIN stands before it.
-/

namespace Bazalt.Flow

open Lib OrdMap

namespace Pass

/-! ## What stays buffered -/

theorem Micro.entries_sublist {w w' : Pass} (hs : Micro w w') :
    w'.half.outOfOrder.entries.Sublist w.half.outOfOrder.entries := by
  cases hs with
  | chunk => exact List.tail_sublist _
  | drop => exact List.tail_sublist _
  | gap => exact List.Sublist.refl _
  | close => exact List.nil_sublist _
  | stamp ts => exact List.Sublist.refl _

theorem Path.entries_sublist {w w' : Pass} (hp : Path w w') :
    w'.half.outOfOrder.entries.Sublist w.half.outOfOrder.entries := by
  induction hp with
  | refl => exact List.Sublist.refl _
  | tail _ hs ih => exact hs.entries_sublist.trans ih

theorem Path.bytes_le {w w' : Pass} (hp : Path w w') {n : ℕ} (h : w.half.Sound n) :
    w'.half.outOfOrderBytes ≤ w.half.outOfOrderBytes := by
  obtain ⟨n', -, h'⟩ := hp.sound h
  rw [h.buffered.bytes, h'.buffered.bytes]
  exact total_le_of_sublist hp.entries_sublist

/-- A path that has removed a segment has fewer bytes buffered. -/
theorem Path.bytes_lt {w w' : Pass} (hp : Path w w') {n : ℕ} (h : w.half.Sound n)
    (hlt : w'.half.outOfOrder.size < w.half.outOfOrder.size) :
    w'.half.outOfOrderBytes < w.half.outOfOrderBytes := by
  obtain ⟨n', -, h'⟩ := hp.sound h
  rw [h.buffered.bytes, h'.buffered.bytes]
  exact h.buffered.tidy.total_lt_of_sublist hp.entries_sublist hlt

/-! ## One round -/

/-- A flush removes a segment that is not ahead. -/
theorem flushOoo_size_lt {w : Pass} {n : ℕ} {e : ℕ × BufferedSegment} (h : w.half.Sound n)
    (hfirst : w.half.outOfOrder.first? = some e) (hle : e.1 ≤ n) :
    w.flushOoo.half.outOfOrder.size < w.half.outOfOrder.size := by
  rcases flushOooLoop_succ h w.half.outOfOrder.size with ⟨-, hahead⟩ | ⟨w', htrail, hlt, heq⟩
  · exact absurd (hahead e (mem_of_first? hfirst)) (not_lt.mpr hle)
  · obtain ⟨n', -, h'⟩ := htrail.sound h
    rw [flushOoo, heq]
    exact (flushOooLoop_trail _ w' n' h').path.size_le.trans_lt hlt

theorem flushOoo_of_closed {w : Pass} (h : w.half.finConsumed = true) : w.flushOoo = w := by
  rw [flushOoo, flushOooLoop.eq_2, if_pos h]

theorem emitGapTo_eq {w : Pass} {n target : ℕ} (h : w.half.Sound n) (hlt : n < target)
    (hclip : ∀ f, w.half.pendingFin = some f → target ≤ f) :
    w.emitGapTo target = (w.skipTo n target).consumeFinIfReady := by
  unfold emitGapTo
  rw [h.next]
  cases hpend : w.half.pendingFin with
  | none => simp only [if_neg (not_le.mpr hlt)]
  | some f => simp only [min_eq_left (hclip f hpend), if_neg (not_le.mpr hlt)]

/-- A gap that no FIN is in the way of closes the half or leaves `target` expected. -/
theorem emitGapTo_cases {w : Pass} {n target : ℕ} (h : w.half.Sound n) (hlt : n < target)
    (hclip : ∀ f, w.half.pendingFin = some f → target ≤ f) :
    (w.emitGapTo target).half.finConsumed = true ∨
      w.emitGapTo target = w.skipTo n target := by
  rw [emitGapTo_eq h hlt hclip]
  unfold consumeFinIfReady
  split_ifs with hfin
  · exact .inl hfin
  · split
    · split_ifs
      · exact .inr rfl
      · exact .inl rfl
      · exact .inr rfl
    · exact .inr rfl

/-- The gap before the first segment, up to a FIN that is in the way. -/
theorem emitGapTo_clipped {w : Pass} {n target f : ℕ} (h : w.half.Sound n)
    (hpend : w.half.pendingFin = some f) (hf : f ≤ target) : w.emitGapTo target = w.emitGapTo f := by
  unfold emitGapTo
  rw [h.next]
  simp only [hpend, min_eq_right hf, min_self]

/-- A round that no FIN is in the way of closes the half or removes a segment. -/
theorem round_progress {w : Pass} {n : ℕ} {e : ℕ × BufferedSegment} (h : w.half.Sound n)
    (hfirst : w.half.outOfOrder.first? = some e)
    (hclip : ∀ f, w.half.pendingFin = some f → e.1 ≤ f) {gapped : Pass}
    (hgapped : gapped = if n < e.1 then w.emitGapTo e.1 else w) :
    gapped.flushOoo.half.finConsumed = true ∨
      gapped.half.outOfOrder = w.half.outOfOrder ∧
        gapped.flushOoo.half.outOfOrder.size < w.half.outOfOrder.size := by
  have htrail := gapToFirst_trail h hfirst le_rfl
  rw [← hgapped] at htrail
  obtain ⟨m, -, hm⟩ := htrail.sound h
  by_cases hlt : n < e.1
  · rw [if_pos hlt] at hgapped
    rcases emitGapTo_cases h hlt hclip with hclosed | heq
    · rw [← hgapped] at hclosed
      rw [flushOoo_of_closed hclosed]
      exact .inl hclosed
    · rw [← hgapped] at heq
      have hfirst' : gapped.half.outOfOrder.first? = some e := by
        rw [heq]
        exact hfirst
      have hm' : gapped.half.nextAbs = some e.1 := by
        rw [heq]
        rfl
      obtain rfl := hm.next_unique hm'
      refine .inr ⟨by rw [heq]; rfl, ?_⟩
      have := flushOoo_size_lt hm hfirst' le_rfl
      rwa [heq] at this ⊢
  · rw [if_neg hlt] at hgapped
    rw [hgapped]
    exact .inr ⟨rfl, flushOoo_size_lt h hfirst (not_lt.mp hlt)⟩

end Pass

/-! ## A pending FIN -/

namespace TcpHalf

/-- The FIN marker is at `f`, and it is validated or the peer has acknowledged it. -/
def FinValid (h : TcpHalf) (f : ℕ) : Prop :=
  h.pendingFin = some f ∧ (h.pendingFinRequiresAck = false ∨ h.acked f = true)

instance (h : TcpHalf) (f : ℕ) : Decidable (h.FinValid f) :=
  inferInstanceAs (Decidable (_ ∧ (_ ∨ _)))

/-- No FIN is ready, when `n` is expected. -/
def Waits (h : TcpHalf) (n : ℕ) : Prop :=
  h.finConsumed = false → ∀ f, h.pendingFin = some f → n < f ∨ n = f ∧ ¬ h.FinValid f

theorem Idle.waiting {h : TcpHalf} {n : ℕ} (hi : h.Idle n) : h.Waits n := by
  intro hopen f hpend
  refine (hi.waits hopen f hpend).imp_right ?_
  rintro ⟨rfl, hreq, hack⟩
  refine ⟨rfl, ?_⟩
  rintro ⟨-, hno | hyes⟩
  · simp [hreq] at hno
  · simp [hack] at hyes

theorem Waits.le {h : TcpHalf} {n f : ℕ} (hw : h.Waits n) (hopen : h.finConsumed = false)
    (hpend : h.pendingFin = some f) : n ≤ f := by
  rcases hw hopen f hpend with hlt | ⟨rfl, -⟩
  · exact hlt.le
  · exact le_rfl

end TcpHalf

namespace Pass

/-- `consumeFinIfReady` closes the half, or no FIN is ready. -/
theorem consumeFinIfReady_waits {w : Pass} {n : ℕ} (h : w.half.Sound n) :
    (∃ f, w.half.pendingFin = some f ∧ f ≤ n ∧ (f = n → w.half.FinValid f) ∧
      w.consumeFinIfReady = w.closeAt f n) ∨
      w.consumeFinIfReady = w ∧ w.half.Waits n := by
  unfold consumeFinIfReady
  rw [h.next]
  split_ifs with hfin
  · exact .inr ⟨rfl, fun hopen ↦ by simp [hfin] at hopen⟩
  · cases hpend : w.half.pendingFin with
    | none => exact .inr ⟨rfl, fun _ f hf ↦ by simp [hpend] at hf⟩
    | some f =>
        simp only
        split_ifs with hle hwait
        · refine .inr ⟨rfl, fun _ f' hf' ↦ ?_⟩
          obtain rfl := Option.some.inj (hpend.symm.trans hf')
          refine .inr ⟨hwait.1.symm, ?_⟩
          rintro ⟨-, hno | hyes⟩
          · simp [hwait.2.1] at hno
          · exact hwait.2.2 hyes
        · refine .inl ⟨f, rfl, hle, fun heq ↦ ⟨hpend, ?_⟩, rfl⟩
          by_contra hno
          rw [not_or] at hno
          exact hwait ⟨heq, by simpa using hno.1, hno.2⟩
        · refine .inr ⟨rfl, fun _ f' hf' ↦ ?_⟩
          obtain rfl := Option.some.inj (hpend.symm.trans hf')
          exact .inl (not_le.mp hle)

theorem consumeFinIfReady_rests {w : Pass} {n n' : ℕ} (h : w.half.Sound n)
    (h' : w.consumeFinIfReady.half.Sound n') : w.consumeFinIfReady.half.Waits n' := by
  rcases consumeFinIfReady_waits h with ⟨f, -, -, -, heq⟩ | ⟨heq, hwaits⟩
  · rw [heq]
    exact fun hopen ↦ by cases hopen
  · rw [heq] at h' ⊢
    exact h.next_unique h'.next ▸ hwaits

theorem Micro.sound_of {w w' : Pass} (hs : Micro w w') {n : ℕ} (h : w.half.Sound n) :
    ∃ n', w'.half.Sound n' := by
  obtain ⟨n', -, h'⟩ := hs.sound h
  exact ⟨n', h'⟩

theorem Move.waits {w w' : Pass} (hm : Move w w') {n n' : ℕ} (h : w.half.Sound n)
    (h' : w'.half.Sound n') (hw : w.half.Waits n) : w'.half.Waits n' := by
  cases hm with
  | chunk hfin hnext hfirst =>
      obtain ⟨m, hs⟩ := (Micro.chunk hfin hnext hfirst).sound_of h
      exact consumeFinIfReady_rests hs h'
  | drop hfin hnext hfirst hle => exact h.next_unique h'.next ▸ hw
  | gap hfin hnext hlt hclip hahead hland =>
      obtain ⟨m, hs⟩ := (Micro.gap hfin hnext hlt hclip hahead hland).sound_of h
      exact consumeFinIfReady_rests hs h'
  | fin => exact consumeFinIfReady_rests h h'
  | stamp ts => exact h.next_unique h'.next ▸ hw

theorem Trail.waits {w w' : Pass} (ht : Trail w w') {n : ℕ} (h : w.half.Sound n)
    (hw : w.half.Waits n) : ∀ {n'}, w'.half.Sound n' → w'.half.Waits n' := by
  induction ht with
  | refl => exact fun h' ↦ h.next_unique h'.next ▸ hw
  | tail ht hm ih =>
      intro n' h'
      obtain ⟨m, -, hs⟩ := Trail.sound ht h
      exact hm.waits hs h' (ih hs)

/-- A buffered segment stays buffered until it is behind. -/
theorem Path.kept_or_past {w w' : Pass} (hp : Path w w') {n : ℕ} (h : w.half.Sound n)
    {e : ℕ × BufferedSegment} (he : e ∈ w.half.outOfOrder.entries) :
    ∀ {n'}, w'.half.Sound n' → w'.half.finConsumed = false →
      e ∈ w'.half.outOfOrder.entries ∨ e.1 + e.2.data.length ≤ n' := by
  induction hp with
  | refl => exact fun _ _ ↦ .inl he
  | @tail w₁ w₂ hp hs ih =>
      intro n' h' hopen
      obtain ⟨m, -, hm⟩ := Path.sound hp h
      obtain ⟨m', hle, hm'⟩ := hs.sound hm
      obtain rfl := hm'.next_unique h'.next
      cases hs with
      | @chunk k segment hfin hnext hfirst =>
          obtain rfl := hm.next_unique hnext
          rcases ih hm hfin with hmem | hpast
          · rcases mem_first_or_tail hfirst hmem with rfl | hmem
            · exact .inr (h'.next_unique (hm.chunk_next hfirst)).ge
            · exact .inl hmem
          · exact .inr (hpast.trans hle)
      | @drop k j segment hfin hnext hfirst hend =>
          obtain rfl := hm.next_unique hnext
          rcases ih hm hfin with hmem | hpast
          · rcases mem_first_or_tail hfirst hmem with rfl | hmem
            · exact .inr (hend.trans hle)
            · exact .inl hmem
          · exact .inr (hpast.trans hle)
      | @gap k target hfin hnext hlt hclip hahead hland =>
          exact (ih hm hfin).imp_right fun hpast ↦ hpast.trans hle
      | close => cases hopen
      | stamp ts => exact (ih hm hopen).imp_right fun hpast ↦ hpast.trans hle

theorem Micro.finValid_iff {w w' : Pass} (hs : Micro w w') (hopen : w'.half.finConsumed = false)
    (f : ℕ) : w.half.finConsumed = false ∧ (w'.half.FinValid f ↔ w.half.FinValid f) := by
  cases hs with
  | chunk hfin => exact ⟨hfin, Iff.rfl⟩
  | drop hfin => exact ⟨hfin, Iff.rfl⟩
  | gap hfin => exact ⟨hfin, Iff.rfl⟩
  | close => cases hopen
  | stamp ts => exact ⟨hopen, Iff.rfl⟩

/-- As long as the half is open, its FIN marker stays what it is. -/
theorem Path.finValid_iff {w w' : Pass} (hp : Path w w') (hopen : w'.half.finConsumed = false)
    (f : ℕ) : w.half.finConsumed = false ∧ (w'.half.FinValid f ↔ w.half.FinValid f) := by
  induction hp with
  | refl => exact ⟨hopen, Iff.rfl⟩
  | tail _ hs ih =>
      obtain ⟨hopen', hiff⟩ := hs.finValid_iff hopen f
      obtain ⟨hstart, hrest⟩ := ih hopen'
      exact ⟨hstart, hiff.trans hrest⟩

theorem Move.of_closed {w w' : Pass} (hm : Move w w') (hfin : w.half.finConsumed = true) :
    ∃ ts, w' = w.stamp ts :=
  hm.path.of_closed hfin

/-- A gap up to a FIN that is valid closes the half. -/
theorem emitGapTo_valid {w : Pass} {n f : ℕ} (h : w.half.Sound n) (hlt : n < f)
    (hvalid : w.half.FinValid f) : (w.emitGapTo f).half.finConsumed = true := by
  have hnot : ¬ (f = f ∧ w.half.pendingFinRequiresAck ∧ ¬ w.half.acked f) := by
    rintro ⟨-, hreq, hack⟩
    rcases hvalid.2 with hno | hyes
    · simp [hreq] at hno
    · exact hack hyes
  rw [emitGapTo_eq h hlt fun f' hf' ↦ (Option.some.inj (hvalid.1.symm.trans hf')).le]
  unfold consumeFinIfReady
  split_ifs with hfin
  · exact hfin
  · have hpend : (w.skipTo n f).half.pendingFin = some f := hvalid.1
    have hnext : (w.skipTo n f).half.nextAbs = some f := rfl
    simp only [hpend, hnext, if_pos le_rfl]
    split_ifs with hwait
    · exact absurd ⟨rfl, hwait.2⟩ hnot
    · rfl

end Pass

end Bazalt.Flow
