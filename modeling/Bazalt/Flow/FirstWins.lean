import Bazalt.Flow.Buffer

/-!
# The union that keeps the first bytes

`insertOooFirstSeen` leaves its loop, grows the counter by the positions that it fills, and says
whether the segment met an interval.
-/

namespace Bazalt.Flow

open Lib OrdMap

namespace Pass

variable {start finish tsNs : ℕ} {data : Bytes} {cursor cursor' : ℕ} {w w' : Pass}

/-- A round marks a retransmission exactly when it passes an interval. -/
theorem Round.retransmit_iff (h : Round start finish tsNs data cursor w cursor' w')
    (hcur : cursor < finish) : w'.out.retransmit = true ↔ w.out.retransmit = true ∨
      ∃ p, cursor ≤ p ∧ p < cursor' ∧ Covered BufferedSegment.data w.half.outOfOrder p := by
  cases h with
  | skip e he hle hlt =>
      exact ⟨fun _ ↦ .inr ⟨cursor, le_rfl, by omega, e, he, hle, hlt⟩, fun _ ↦ rfl⟩
  | fill hole =>
      refine ⟨.inl, ?_⟩
      rintro (hmark | ⟨p, hp, hp', e, he, hle, hlt⟩)
      · exact hmark
      · rcases hole e he with h | h <;> omega
  | fillSkip e he hlt hfinish hpos hole =>
      exact ⟨fun _ ↦ .inr ⟨e.1, hlt.le, by omega, e, he, le_rfl, by omega⟩, fun _ ↦ rfl⟩

/-- In the middle of the loop: what is ahead of the cursor is as it was, and what is behind it has
been looked at. -/
structure Marked (start finish : ℕ) (w : Pass) (s : ℕ × Pass) : Prop where
  buffered : s.2.half.Buffered
  start_le : start ≤ s.1
  le_finish : s.1 ≤ finish
  ahead : ∀ p, s.1 ≤ p → (Covered BufferedSegment.data s.2.half.outOfOrder p ↔
    Covered BufferedSegment.data w.half.outOfOrder p)
  retransmit_iff : s.2.out.retransmit = true ↔ w.out.retransmit = true ∨
    ∃ p, start ≤ p ∧ p < s.1 ∧ Covered BufferedSegment.data w.half.outOfOrder p

theorem Inserts.covered_of_ge {lo hi : ℕ} (h : Inserts w w' lo hi (segmentBytes start data lo hi))
    {p : ℕ} (hp : hi ≤ p) : Covered BufferedSegment.data w'.half.outOfOrder p ↔
      Covered BufferedSegment.data w.half.outOfOrder p := by
  rw [covered_iff_holds, covered_iff_holds]
  apply exists_congr
  intro b
  refine (h.held p b).trans ⟨fun hheld ↦ hheld.resolve_right fun hnew ↦ ?_, .inl⟩
  exact absurd hnew.2.2.1 (by omega)

/-- The step lemma. -/
theorem Marked.round (tsNs : ℕ) (hlen : finish ≤ start + data.length) (hmax : finish ≤ u64Max)
    {s : ℕ × Pass} (h : Marked start finish w s) (hcur : s.1 < finish) :
    Marked start finish w (insertOooRound start finish tsNs data s.1 s.2) ∧
      s.1 < (insertOooRound start finish tsNs data s.1 s.2).1 := by
  have hround := round_insertOooRound start tsNs data
    h.buffered.tidy h.buffered.bound hcur
  obtain ⟨hless, hle⟩ := hround.lt hcur
  have hins := hround.inserts h.buffered hcur h.start_le hlen hmax
  refine ⟨⟨hins.buffered, h.start_le.trans hless.le, hle, fun p hp ↦ ?_, ?_⟩, hless⟩
  · rw [hins.covered_of_ge hp]
    exact h.ahead p (hless.le.trans hp)
  · rw [hround.retransmit_iff hcur, h.retransmit_iff, or_assoc]
    apply or_congr Iff.rfl
    constructor
    · rintro (⟨p, hp, hp', hcovered⟩ | ⟨p, hp, hp', hcovered⟩)
      · exact ⟨p, hp, hp'.trans hless, hcovered⟩
      · exact ⟨p, h.start_le.trans hp, hp', (h.ahead p hp).mp hcovered⟩
    · rintro ⟨p, hp, hp', hcovered⟩
      by_cases hbehind : p < s.1
      · exact .inl ⟨p, hp, hbehind, hcovered⟩
      · exact .inr ⟨p, not_lt.mp hbehind, hp', (h.ahead p (not_lt.mp hbehind)).mpr hcovered⟩

/-- The loop leaves at the end of the segment. -/
theorem Marked.leaves (tsNs : ℕ) (hlen : finish ≤ start + data.length) (hmax : finish ≤ u64Max)
    {fuel : ℕ} {s : ℕ × Pass} (h : Marked start finish w s) (hfuel : finish - s.1 < fuel) :
    Leaves (insertOooTurn start finish tsNs data) s
        (loop (insertOooTurn start finish tsNs data) fuel s) ∧
      (loop (insertOooTurn start finish tsNs data) fuel s).1 = finish ∧
      Marked start finish w (loop (insertOooTurn start finish tsNs data) fuel s) := by
  induction fuel generalizing s with
  | zero => omega
  | succ fuel ih =>
      by_cases hcur : s.1 < finish
      · have hturn : insertOooTurn start finish tsNs data s =
            .again (insertOooRound start finish tsNs data s.1 s.2) := if_pos hcur
        obtain ⟨hnext, hless⟩ := h.round tsNs hlen hmax hcur
        rw [loop, hturn]
        obtain ⟨hleaves, heq, hmarked⟩ := ih hnext (by omega)
        exact ⟨.again hturn hleaves, heq, hmarked⟩
      · have hturn : insertOooTurn start finish tsNs data s = .stop s := if_neg hcur
        rw [loop, hturn]
        exact ⟨.stop hturn, le_antisymm h.le_finish (not_lt.mp hcur), h⟩

theorem marked_start (hb : w.half.Buffered) (hle : start ≤ finish) :
    Marked start finish w (start, w) where
  buffered := hb
  start_le := le_rfl
  le_finish := hle
  ahead _ _ := Iff.rfl
  retransmit_iff := by
    refine ⟨.inl, fun h ↦ h.resolve_right ?_⟩
    rintro ⟨p, hp, hp', -⟩
    omega

/-! ## The counter -/

/-- The positions of the segment that nothing covers. -/
def fresh (w : Pass) (start : ℕ) (data : Bytes) : Set ℕ :=
  {p | start ≤ p ∧ p < start + data.length ∧
    ¬ Covered BufferedSegment.data w.half.outOfOrder p}

theorem finite_fresh (w : Pass) (start : ℕ) (data : Bytes) : (w.fresh start data).Finite :=
  (Set.finite_Ico start (start + data.length)).subset fun _ hp ↦ ⟨hp.1, hp.2.1⟩

theorem Inserts.total_eq (hb : w.half.Buffered)
    (h : Inserts w w' start (start + data.length)
      (segmentBytes start data start (start + data.length))) :
    w'.half.outOfOrderBytes = w.half.outOfOrderBytes + (w.fresh start data).ncard := by
  obtain ⟨hfinite, htotal⟩ := hb.tidy.total_eq_ncard
  obtain ⟨-, htotal'⟩ := h.buffered.tidy.total_eq_ncard
  have hunion : {p | Covered BufferedSegment.data w'.half.outOfOrder p} =
      {p | Covered BufferedSegment.data w.half.outOfOrder p} ∪ w.fresh start data := by
    ext p
    simp only [fresh, Set.mem_ofPred_eq, Set.mem_union]
    constructor
    · intro hp
      obtain ⟨b, hheld⟩ := covered_iff_holds.mp hp
      rcases (h.held p b).mp hheld with hold | ⟨hfree, hp', hlt, -⟩
      · exact .inl (covered_iff_holds.mpr ⟨b, hold⟩)
      · refine .inr ⟨hp', hlt, fun hcovered ↦ ?_⟩
        obtain ⟨c, hc⟩ := covered_iff_holds.mp hcovered
        exact hfree c hc
    · rintro (hp | ⟨hp, hlt, hfree⟩)
      · obtain ⟨b, hheld⟩ := covered_iff_holds.mp hp
        exact covered_iff_holds.mpr ⟨b, (h.held p b).mpr (.inl hheld)⟩
      · have hget : data[p - start]? = some data[p - start] := List.getElem?_eq_getElem (by omega)
        refine covered_iff_holds.mpr ⟨_, (h.held p _).mpr (.inr ⟨fun c hc ↦ ?_, hp, hlt, hget⟩)⟩
        exact hfree (covered_iff_holds.mpr ⟨c, hc⟩)
  have hdisjoint : Disjoint {p | Covered BufferedSegment.data w.half.outOfOrder p}
      (w.fresh start data) := by
    apply Set.disjoint_left.mpr
    exact fun p hp hfresh ↦ hfresh.2.2 hp
  rw [h.buffered.bytes, htotal', hunion, Set.ncard_union_eq hdisjoint hfinite (w.finite_fresh _ _),
    hb.bytes, htotal]

/-- Another counter. -/
def withBytes (w : Pass) (bytes : ℕ) : Pass :=
  { w with half := { w.half with outOfOrderBytes := bytes } }

/-- The loop does not look at the counter. -/
theorem insertOooRound_withBytes (start finish tsNs : ℕ) (data : Bytes) (cursor : ℕ) (w : Pass)
    (bytes : ℕ) : ∃ bytes', insertOooRound start finish tsNs data cursor (w.withBytes bytes) =
      ((insertOooRound start finish tsNs data cursor w).1,
        (insertOooRound start finish tsNs data cursor w).2.withBytes bytes') := by
  have hmap : (w.withBytes bytes).half.outOfOrder = w.half.outOfOrder := rfl
  unfold insertOooRound
  rw [hmap]
  cases (w.half.outOfOrder.lastLE? cursor).filter
      (fun e ↦ decide (cursor < e.2.finish e.1)) with
  | some e => exact ⟨bytes, rfl⟩
  | none =>
      cases w.half.outOfOrder.firstIn? cursor finish with
      | none =>
          dsimp only
          split_ifs
          · exact ⟨_, rfl⟩
          · exact ⟨bytes, rfl⟩
      | some e =>
          dsimp only
          split_ifs
          · exact ⟨_, rfl⟩
          · exact ⟨_, rfl⟩
          · exact ⟨bytes, rfl⟩
          · exact ⟨bytes, rfl⟩

theorem loop_withBytes (start finish tsNs : ℕ) (data : Bytes) (fuel cursor : ℕ) (w : Pass)
    (bytes : ℕ) : ∃ bytes', loop (insertOooTurn start finish tsNs data) fuel
        (cursor, w.withBytes bytes) =
      ((loop (insertOooTurn start finish tsNs data) fuel (cursor, w)).1,
        (loop (insertOooTurn start finish tsNs data) fuel (cursor, w)).2.withBytes bytes') := by
  induction fuel generalizing cursor w bytes with
  | zero => exact ⟨bytes, rfl⟩
  | succ fuel ih =>
      unfold loop insertOooTurn
      by_cases hcur : cursor < finish
      · obtain ⟨bytes', hround⟩ :=
          insertOooRound_withBytes start finish tsNs data cursor w bytes
        simp only [if_pos hcur, hround]
        exact ih _ _ bytes'
      · simp only [if_neg hcur]
        exact ⟨bytes, rfl⟩

theorem insertOooFirstSeen_eq (w : Pass) (start tsNs : ℕ) (data : Bytes)
    (hseg : start + data.length ≤ u64Max) : w.insertOooFirstSeen start tsNs data =
      (loop (insertOooTurn start (start + data.length) tsNs data) (data.length + 1)
        (start, w)).2 := by
  rw [insertOooFirstSeen, satAdd_of_le hseg, insertOooLoop_eq_loop]

theorem Buffered.insertOooFirstSeen_spec (hb : w.half.Buffered) (start tsNs : ℕ) (data : Bytes)
    (hseg : start + data.length ≤ u64Max) :
    (loop (insertOooTurn start (start + data.length) tsNs data) (data.length + 1) (start, w)).1 =
        start + data.length ∧
      ((w.insertOooFirstSeen start tsNs data).out.retransmit = true ↔ w.out.retransmit = true ∨
        ∃ p, start ≤ p ∧ p < start + data.length ∧
          Covered BufferedSegment.data w.half.outOfOrder p) := by
  have hfuel : start + data.length - start < data.length + 1 := by omega
  obtain ⟨-, heq, hmarked⟩ := (marked_start hb (Nat.le_add_right start data.length)).leaves tsNs
    le_rfl hseg hfuel
  have hmark := hmarked.retransmit_iff
  rw [heq] at hmark
  rw [insertOooFirstSeen_eq w start tsNs data hseg]
  exact ⟨heq, hmark⟩

theorem buffered_withBytes (htidy : Tidy BufferedSegment.data w.half.outOfOrder)
    (hbound : ∀ e ∈ w.half.outOfOrder.entries, e.1 + e.2.data.length ≤ u64Max) :
    (w.withBytes (total BufferedSegment.data w.half.outOfOrder)).half.Buffered :=
  ⟨htidy, hbound, rfl⟩

/-- The union keeps the first bytes, from any tidy map. -/
theorem insertOooFirstSeen_firstWins (w : Pass) (start tsNs : ℕ) (data : Bytes)
    (htidy : Tidy BufferedSegment.data w.half.outOfOrder)
    (hbound : ∀ e ∈ w.half.outOfOrder.entries, e.1 + e.2.data.length ≤ u64Max)
    (hseg : start + data.length ≤ u64Max) :
    Leaves (insertOooTurn start (start + data.length) tsNs data) (start, w)
        (start + data.length, w.insertOooFirstSeen start tsNs data) ∧
      Tidy BufferedSegment.data (w.insertOooFirstSeen start tsNs data).half.outOfOrder ∧
      (∀ p b, (w.insertOooFirstSeen start tsNs data).half.Held p b ↔ w.half.Held p b ∨
        (∀ c, ¬ w.half.Held p c) ∧ start ≤ p ∧ data[p - start]? = some b) ∧
      (w.half.outOfOrderBytes = total BufferedSegment.data w.half.outOfOrder →
        (w.insertOooFirstSeen start tsNs data).half.outOfOrderBytes =
          w.half.outOfOrderBytes + (w.fresh start data).ncard) ∧
      ((w.insertOooFirstSeen start tsNs data).out.retransmit = true ↔ w.out.retransmit = true ∨
        ∃ p, start ≤ p ∧ p < start + data.length ∧
          Covered BufferedSegment.data w.half.outOfOrder p) := by
  have hb := buffered_withBytes htidy hbound
  -- the loop runs as it does with the counter that the map has
  generalize hw : w.withBytes (total BufferedSegment.data w.half.outOfOrder) = w₀ at hb
  obtain ⟨bytes, hsame⟩ := loop_withBytes start (start + data.length) tsNs data (data.length + 1)
    start w (total BufferedSegment.data w.half.outOfOrder)
  rw [hw] at hsame
  obtain ⟨hcursor, hmark⟩ := Buffered.insertOooFirstSeen_spec hb start tsNs data hseg
  have hins := insertOooFirstSeen_inserts hb start tsNs data
  rw [satAdd_of_le hseg] at hins
  have heq := w.insertOooFirstSeen_eq start tsNs data hseg
  have heq₀ : w₀.insertOooFirstSeen start tsNs data =
      (w.insertOooFirstSeen start tsNs data).withBytes bytes := by
    rw [insertOooFirstSeen_eq w₀ start tsNs data hseg, hsame, heq]
  rw [heq₀] at hmark hins
  subst hw
  refine ⟨?_, hins.buffered.tidy, fun p b ↦ ?_, fun hbytes ↦ ?_, hmark⟩
  · have hend : (loop (insertOooTurn start (start + data.length) tsNs data) (data.length + 1)
        (start, w)).1 = start + data.length := by
      rw [hsame] at hcursor
      exact hcursor
    have hpair : loop (insertOooTurn start (start + data.length) tsNs data) (data.length + 1)
        (start, w) = (start + data.length, w.insertOooFirstSeen start tsNs data) :=
      Prod.ext hend heq.symm
    rw [← hpair]
    apply leaves_of_stop
    rw [hpair]
    exact if_neg (lt_irrefl _)
  · refine (hins.held p b).trans (or_congr Iff.rfl (and_congr Iff.rfl ?_))
    refine ⟨fun h ↦ ⟨h.1, h.2.2⟩, fun h ↦ ⟨h.1, ?_, h.2⟩⟩
    have := (List.getElem?_eq_some_iff.mp h.2).1
    omega
  · have hwith : w.withBytes (total BufferedSegment.data w.half.outOfOrder) = w := by
      rw [← hbytes]
      rfl
    rw [hwith] at heq₀ hins
    rw [← heq₀] at hins
    exact hins.total_eq (hwith ▸ hb)

/-- A segment that meets one interval and goes past it. -/
def bridged : Pass :=
  { half := {
      nextAbs := some 100
      outOfOrder := (OrdMap.empty.insert 104 ⟨[1, 2], 7⟩)
      outOfOrderBytes := 2 } }

theorem insertOooFirstSeen_firstWins_bridged :
    (bridged.insertOooFirstSeen 102 9 [5, 5, 5, 5, 5]).half.outOfOrderBytes = 2 + 3 ∧
      ((bridged.insertOooFirstSeen 102 9 [5, 5, 5, 5, 5]).half.Held 105 2 ↔
        bridged.half.Held 105 2 ∨ (∀ c, ¬ bridged.half.Held 105 c) ∧ 102 ≤ 105 ∧
          ([5, 5, 5, 5, 5] : Bytes)[105 - 102]? = some 2) := by
  have htidy : Tidy BufferedSegment.data bridged.half.outOfOrder := ⟨by decide, by decide⟩
  exact ⟨by decide +kernel, (insertOooFirstSeen_firstWins bridged 102 9 [5, 5, 5, 5, 5] htidy
    (by decide) (by decide)).2.2.1 105 2⟩

end Pass

end Bazalt.Flow
