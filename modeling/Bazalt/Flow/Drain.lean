import Bazalt.Flow.Rounds

/-!
# What `finalize` drains

`finalize` declares every hole a gap and emits what is buffered behind it.  A gap stops at a
pending FIN, also at a tentative one that nobody has acknowledged, and the half is not closed
there: what is buffered behind such a FIN stays in the buffer.
-/

namespace Bazalt.Flow

open Lib OrdMap

namespace Pass

/-- How a trail passes a FIN that is not valid: it does not, or a segment across the FIN is
emitted and closes the half. -/
theorem Trail.tentative {w w' : Pass} (ht : Trail w w') {n f : ℕ} (h : w.half.Sound n)
    (hw : w.half.Waits n) (hopen : w.half.finConsumed = false)
    (hpend : w.half.pendingFin = some f) (hnot : ¬ w.half.FinValid f) :
    w'.half.finConsumed = false ∨ w'.half.finConsumed = true ∧
      ∃ w₀ k segment es, Path w w₀ ∧ w₀.half.Sound k ∧ w₀.half.finConsumed = false ∧
        w₀.half.outOfOrder.first? = some (k, segment) ∧ k ≤ f ∧ f < k + segment.data.length ∧
        Emits w w' es ∧ n + Span.width es = k + segment.data.length := by
  induction ht with
  | refl => exact .inl hopen
  | @tail w₁ w₂ ht hm ih =>
      rcases ih with hopen₁ | ⟨hclosed, w₀, k, segment, es, hp, h₀, hopen₀, hfirst, hkf, hcross,
        hemits, hwidth⟩
      · obtain ⟨k, -, h₁⟩ := Trail.sound ht h
        have hw₁ := Trail.waits ht h hw h₁
        have hpend₁ : w₁.half.pendingFin = some f := (Trail.path ht).frame.1.trans hpend
        have hnot₁ : ¬ w₁.half.FinValid f := fun hv ↦
          hnot (((Trail.path ht).finValid_iff hopen₁ f).2.mp hv)
        have hkf := hw₁.le hopen₁ hpend₁
        -- a half that is open and expects at most `f` is not closed there
        have hstays : ∀ {u : Pass} {m : ℕ}, u.half.Sound m → u.half.finConsumed = false →
            u.half.pendingFin = some f → ¬ u.half.FinValid f → m ≤ f →
            u.consumeFinIfReady.half.finConsumed = false := by
          intro u m hu huopen hupend hunot hmf
          rcases consumeFinIfReady_waits hu with ⟨f', hf', hle, hvalid, -⟩ | ⟨heq, -⟩
          · obtain rfl := Option.some.inj (hupend.symm.trans hf')
            exact absurd (hvalid (le_antisymm hle hmf)) hunot
          · rw [heq]
            exact huopen
        cases hm with
        | @chunk k' segment hfin hnext hfirst =>
            obtain rfl := h₁.next_unique hnext
            have hchunk : Micro w₁ ((w₁.popFirst segment).push segment.data segment.tsNs) :=
              .chunk hfin hnext hfirst
            obtain ⟨m, -, hm⟩ := hchunk.sound h₁
            obtain rfl := hm.next_unique (h₁.chunk_next hfirst)
            by_cases hle : k + segment.data.length ≤ f
            · exact .inl (hstays hm hopen₁ hpend₁ hnot₁ hle)
            · have hpath : Path w _ := (Trail.path ht).tail hchunk
              obtain ⟨es, hes⟩ := hpath.reads h hm
              have hend : n + Span.width es = k + segment.data.length := by
                rcases hes.lands with ⟨-, hn', -⟩ | ⟨-, hclosed, -⟩
                · exact hn'.symm
                · change w₁.half.finConsumed = true at hclosed
                  simp [hopen₁] at hclosed
              have hcloses : ((w₁.popFirst segment).push segment.data
                  segment.tsNs).consumeFinIfReady.half.finConsumed = true := by
                rcases consumeFinIfReady_waits hm with ⟨f', -, -, -, heq⟩ | ⟨-, hwaits⟩
                · rw [heq]
                  rfl
                · exact absurd (hwaits.le hopen₁ hpend₁) hle
              have hsame : Emits ((w₁.popFirst segment).push segment.data segment.tsNs)
                  ((w₁.popFirst segment).push segment.data segment.tsNs).consumeFinIfReady [] := by
                rcases consumeFinIfReady_waits hm with ⟨f', -, -, -, heq⟩ | ⟨heq, -⟩
                · rw [heq]
                  exact .of_eq rfl rfl rfl
                · rw [heq]
                  exact .of_eq rfl rfl rfl
              refine .inr ⟨hcloses, w₁, k, segment, es, Trail.path ht, h₁, hopen₁, hfirst, hkf,
                not_le.mp hle, ?_, hend⟩
              have := hes.emits.trans hsame
              rwa [List.append_nil] at this
        | drop hfin hnext hfirst hle => exact .inl hopen₁
        | @gap k' target hfin hnext hlt hclip hahead hland =>
            have hgap : Micro w₁ (w₁.skipTo k' target) := .gap hfin hnext hlt hclip hahead hland
            obtain ⟨m, -, hm⟩ := hgap.sound h₁
            obtain rfl : m = target := hm.next_unique rfl
            exact .inl (hstays hm hopen₁ hpend₁ hnot₁ (hclip f hpend₁))
        | fin => exact .inl (hstays h₁ hopen₁ hpend₁ hnot₁ hkf)
        | stamp ts => exact .inl hopen₁
      · obtain ⟨ts, rfl⟩ := hm.of_closed hclosed
        exact .inr ⟨hclosed, w₀, k, segment, es, hp, h₀, hopen₀, hfirst, hkf, hcross,
          ⟨hemits.chunks, hemits.gaps, hemits.offset⟩, hwidth⟩

/-- The loop of `finalize` closes the half or empties the buffer, when nothing is buffered
behind a FIN that is not valid. -/
theorem finalizeLoop_drains (fuel : ℕ) : ∀ (w : Pass) (n : ℕ), w.half.Sound n → w.half.Waits n →
    (∀ f, w.half.pendingFin = some f → ¬ w.half.FinValid f →
      ∀ e ∈ w.half.outOfOrder.entries, e.1 ≤ f) → w.half.outOfOrder.size < fuel →
      (finalizeLoop fuel w).half.finConsumed = true ∨
        (finalizeLoop fuel w).half.outOfOrder.entries = [] := by
  induction fuel with
  | zero => intro w n _ _ _ hfuel; omega
  | succ fuel ih =>
      intro w n h hw hbehind hfuel
      unfold finalizeLoop
      rw [h.next]
      cases hfirst : w.half.outOfOrder.first? with
      | none => exact .inr (first?_eq_none.mp hfirst)
      | some e =>
          have hmem := mem_of_first? hfirst
          have hopen : w.half.finConsumed = false := by
            by_contra hclosed
            have hnil := h.closed (by simpa using hclosed)
            rw [hnil] at hmem
            cases hmem
          have hgap := gapToFirst_trail h hfirst le_rfl
          have hprogress : (if n < e.1 then w.emitGapTo e.1 else w).flushOoo.half.finConsumed = true ∨
              (if n < e.1 then w.emitGapTo e.1 else w).half.outOfOrder = w.half.outOfOrder ∧
              (if n < e.1 then w.emitGapTo e.1 else w).flushOoo.half.outOfOrder.size <
                w.half.outOfOrder.size := by
            by_cases hclip : ∀ f, w.half.pendingFin = some f → e.1 ≤ f
            · exact round_progress h hfirst hclip rfl
            · -- the FIN before the first segment is valid, so the gap up to it closes the half
              push Not at hclip
              obtain ⟨f, hpend, hlt⟩ := hclip
              have hvalid : w.half.FinValid f := by
                by_contra hnot
                exact absurd (hbehind f hpend hnot e hmem) (not_le.mpr hlt)
              have hnf : n < f := by
                rcases hw hopen f hpend with hnf | ⟨-, hnot⟩
                · exact hnf
                · exact absurd hvalid hnot
              have hcloses := emitGapTo_valid h hnf hvalid
              rw [if_pos (hnf.trans hlt), emitGapTo_clipped h hpend hlt.le,
                flushOoo_of_closed hcloses]
              exact .inl hcloses
          simp only
          generalize (if n < e.1 then w.emitGapTo e.1 else w) = gapped at hgap hprogress ⊢
          obtain ⟨m, -, hm⟩ := hgap.sound h
          have hflush := flushOoo_trail hm
          obtain ⟨k, -, hk⟩ := hflush.sound hm
          by_cases hfin : gapped.flushOoo.half.finConsumed = true
          · rw [if_pos (.inl hfin)]
            exact .inl hfin
          · obtain ⟨hsame, hlt⟩ := hprogress.resolve_left hfin
            have hless := hflush.path.bytes_lt hm (hsame ▸ hlt)
            rw [if_neg (by rintro (hfin' | ⟨-, heq⟩); exacts [hfin hfin', absurd heq hless.ne])]
            have htrail : Trail w gapped.flushOoo := hgap.trans hflush
            have hopen' : gapped.flushOoo.half.finConsumed = false := by simpa using hfin
            refine ih _ k hk (htrail.waits h hw hk) (fun f hpend hnot a ha ↦ ?_) (by omega)
            refine hbehind f (htrail.path.frame.1 ▸ hpend) (fun hvalid ↦ hnot ?_) a
              (htrail.path.entries_sublist.subset ha)
            exact (htrail.path.finValid_iff hopen' f).2.mpr hvalid

end Pass

namespace TcpHalf

/-- `finalize` leaves nothing in the buffer, and reads what was there off in order, up to a
FIN that is valid. -/
structure Drains (h : TcpHalf) : Prop where
  empty : h.finalize.half.outOfOrder.entries = []
  emitted : ∀ n, h.nextAbs = some n → ∃ es, Pass.Emits { half := h } h.finalize es ∧
    Span.Delivers h.Held n es (n + Span.width es) ∧
    ∀ p b, h.Held p b → p < n + Span.width es ∨ ∃ f, h.FinValid f ∧ f ≤ p

/-- Nothing is buffered behind a FIN that is neither validated nor acknowledged. -/
def NoneBehind (h : TcpHalf) : Prop :=
  ∀ f, h.pendingFin = some f → ¬ h.FinValid f → ∀ e ∈ h.outOfOrder.entries, e.1 ≤ f

theorem finalize_empty {h : TcpHalf} {n : ℕ} (hi : h.Idle n) (hnone : h.NoneBehind) :
    h.finalize.half.outOfOrder.entries = [] := by
  obtain ⟨-, n', -, hi'⟩ := finalize_trail hi
  have hloop := Pass.finalizeLoop_drains (h.outOfOrder.size + 1) { half := h } n hi.sound hi.waiting
    hnone (Nat.lt_succ_self _)
  have hrest := Pass.consumeFinIfReady_path (Pass.finalizeLoop (h.outOfOrder.size + 1) { half := h })
  rcases hloop with hclosed | hempty
  · obtain ⟨ts, heq⟩ := hrest.of_closed hclosed
    refine hi'.sound.closed ?_
    change (Pass.consumeFinIfReady _).half.finConsumed = true
    rw [heq]
    exact hclosed
  · exact List.sublist_nil.mp (hempty ▸ hrest.entries_sublist)

/-- What `finalize` reads off, when it closes the half at a FIN that was not valid. -/
theorem finalize_cross {h : TcpHalf} {n f : ℕ} (hi : h.Idle n) (hopen : h.finConsumed = false)
    (hpend : h.pendingFin = some f) (hnot : ¬ h.FinValid f)
    (hclosed : h.finalize.half.finConsumed = true) {es : List (Span UInt8)}
    (hemits : Pass.Emits { half := h } h.finalize es) : ∀ e ∈ h.outOfOrder.entries,
      e.1 ≤ f ∧ e.1 + e.2.data.length ≤ n + Span.width es ∨ f < e.1 ∧ n + Span.width es ≤ e.1 := by
  rcases (finalize_trail hi).1.tentative hi.sound hi.waiting hopen hpend hnot with
    hstill | ⟨-, w₀, k, segment, fs, hp, h₀, hopen₀, hfirst, hkf, hcross, hfs, hwidth⟩
  · simp [hclosed] at hstill
  · have hsame : Span.width es = Span.width fs := by
      have h₁ := hemits.offset
      have h₂ := hfs.offset
      omega
    rw [hsame, hwidth]
    intro e he
    rcases hp.kept_or_past hi.sound he h₀ hopen₀ with hmem | hpast
    · rcases mem_first_or_tail hfirst hmem with rfl | hmem
      · exact .inl ⟨hkf, le_rfl⟩
      · have hend := h₀.buffered.tidy.first?_end_le hfirst hmem
        simp only at hend
        exact .inr ⟨by omega, hend⟩
    · exact .inl (by omega)

theorem Idle.drains_iff_noneBehind {h : TcpHalf} {n : ℕ} (hi : h.Idle n) :
    h.Drains ↔ h.NoneBehind := by
  obtain ⟨htrail, n', -, hi'⟩ := finalize_trail hi
  obtain ⟨es, hes⟩ := htrail.path.reads hi.sound hi'.sound
  constructor
  · intro hdrains f hpend hnot e he
    by_contra hlt
    have hopen : h.finConsumed = false := by
      by_contra hclosed
      rw [hi.sound.closed (by simpa using hclosed)] at he
      cases he
    -- the first byte of the segment behind the FIN is not emitted
    have hpos := hi.sound.buffered.tidy.length_pos he
    have hheld : h.Held e.1 e.2.data[0] := ⟨e, he, le_rfl, by simp⟩
    obtain ⟨fs, hfs, -, hall⟩ := hdrains.emitted n hi.sound.next
    have hwidth : Span.width fs = Span.width es := by
      have h₁ := hfs.offset
      have h₂ := hes.emits.offset
      omega
    have hemitted : e.1 < n + Span.width es := by
      rcases hall _ _ hheld with hlt | ⟨f', hvalid, -⟩
      · omega
      · obtain rfl := Option.some.inj (hpend.symm.trans hvalid.1)
        exact absurd hvalid hnot
    by_cases hclosed : h.finalize.half.finConsumed = true
    · rcases finalize_cross hi hopen hpend hnot hclosed hes.emits e he with ⟨hle, -⟩ | ⟨-, hle⟩
      · exact hlt hle
      · omega
    · have hopen' : h.finalize.half.finConsumed = false := by simpa using hclosed
      have hle := hi'.waiting.le hopen' (htrail.path.frame.1.trans hpend)
      rcases hes.lands with ⟨-, hn', -⟩ | ⟨-, hclosed', -⟩
      · omega
      · exact hclosed hclosed'
  · intro hnone
    refine ⟨finalize_empty hi hnone, fun m hm ↦ ?_⟩
    obtain rfl := hi.sound.next_unique hm
    refine ⟨es, hes.emits, hes.delivers, ?_⟩
    rintro p b ⟨e, he, hle, hget⟩
    have hlt : p < e.1 + e.2.data.length := by
      have := (List.getElem?_eq_some_iff.mp hget).1
      omega
    have hopen : h.finConsumed = false := by
      by_contra hclosed
      rw [hi.sound.closed (by simpa using hclosed)] at he
      cases he
    rcases hes.lands with ⟨hsame, hn', -⟩ | ⟨-, hclosed, f, hpend, hfin, -⟩
    · -- an open half has emitted all of its buffer
      have hopen' : h.finalize.half.finConsumed = false := hsame.trans hopen
      rcases htrail.path.kept_or_past hi.sound he hi'.sound hopen' with hmem | hpast
      · rw [finalize_empty hi hnone] at hmem
        cases hmem
      · exact .inl (by omega)
    · by_cases hvalid : h.FinValid f
      · by_cases hpf : p < n + Span.width es
        · exact .inl hpf
        · exact .inr ⟨f, hvalid, by omega⟩
      · rcases finalize_cross hi hopen hpend hvalid hclosed hes.emits e he with
          ⟨-, hpast⟩ | ⟨hbehind, -⟩
        · exact .inl (by omega)
        · exact absurd (hnone f hpend hvalid e he) (not_le.mpr hbehind)

/-- After every run of calls, `finalize` drains the half exactly when nothing is buffered
behind a FIN that is neither validated nor acknowledged. -/
theorem drains_iff (cs : List Call) :
    (({} : TcpHalf).after cs).Drains ↔ (({} : TcpHalf).after cs).NoneBehind := by
  rcases settled_after cs with hdefault | ⟨n, hi⟩
  · rw [hdefault]
    constructor
    · exact fun _ f hpend ↦ absurd hpend (by simp)
    · exact fun _ ↦ ⟨rfl, fun n hn ↦ absurd hn (by simp)⟩
  · exact hi.drains_iff_noneBehind

/-- A segment ahead, and a bare FIN before it. -/
def tentativeFinRun : List Call :=
  [.accept 100 false false 0 [1] ⟨9, 9, 9⟩, .accept 120 false false 0 [2, 3] ⟨9, 9, 9⟩,
    .accept 110 false true 0 [] ⟨9, 9, 9⟩]

/-- The two bytes behind the tentative FIN are still buffered after `finalize`. -/
theorem not_drains_tentativeFinRun :
    (({} : TcpHalf).after tentativeFinRun).finalize.half.outOfOrderBytes = 2 ∧
      ¬ (({} : TcpHalf).after tentativeFinRun).Drains := by
  refine ⟨by decide, fun hdrains ↦ ?_⟩
  exact absurd hdrains.empty (by decide)

end TcpHalf

end Bazalt.Flow
