import Bazalt.Lib.Loop
import Bazalt.Lib.Run

/-!
# Workers of the stages

The workers that the CPU budget leaves are split between flow tracking, L7 and matching.  Every
stage gets its share rounded down, but at least one worker.  Then workers are added where the
most is missing, or taken away where the most is over, until the sum is right.
-/

namespace Bazalt.Live

open Lib

/-- An operation on `usize`; an overflow is a panic. -/
def usize (n : ℕ) : Option ℕ := if n < 2 ^ 64 then some n else none

/-- An operation on `isize`; an overflow is a panic. -/
def isize (z : ℤ) : Option ℤ := if -2 ^ 63 ≤ z ∧ z < 2 ^ 63 then some z else none

/-- `as isize`, which wraps. -/
def asIsize (n : ℕ) : ℤ := if n < 2 ^ 63 then n else n - 2 ^ 64

/-- The counts of the three stages: flow, L7, matcher. -/
abbrev Counts := Fin 3 → ℕ

def weights : Counts := ![30, 40, 30]

def Counts.sum (counts : Counts) : Option ℕ := usize (counts 0 + counts 1 + counts 2)

def initialCounts (total : ℕ) : Option Counts := do
  let flow ← usize (total * weights 0)
  let l7 ← usize (total * weights 1)
  let matcher ← usize (total * weights 2)
  return ![max (flow / 100) 1, max (l7 / 100) 1, max (matcher / 100) 1]

def deficit (total : ℕ) (counts : Counts) (i : Fin 3) : Option ℤ := do
  let share ← usize (weights i * total)
  let used ← usize (counts i * 100)
  isize (asIsize share - asIsize used)

def surplus (total : ℕ) (counts : Counts) (i : Fin 3) : Option ℤ := do
  let used ← usize (counts i * 100)
  let share ← usize (weights i * total)
  isize (asIsize used - asIsize share)

def largestDeficit (total : ℕ) (counts : Counts) : Option (Fin 3) := do
  let (best, _) ← [0, 1, 2].foldlM (fun (best : Fin 3 × ℤ) i ↦ do
    let deficit ← deficit total counts i
    return if best.2 < deficit then (i, deficit) else best) (0, -2 ^ 63)
  return best

/-- A stage with one worker keeps it. -/
def largestSurplus (total : ℕ) (counts : Counts) : Option (Option (Fin 3)) := do
  let (best, _) ← [0, 1, 2].foldlM (fun (best : Option (Fin 3) × ℤ) i ↦
    if counts i ≤ 1 then return best
    else do
      let surplus ← surplus total counts i
      return if best.2 < surplus then (some i, surplus) else best) (none, -2 ^ 63)
  return best

/-- A round of the loop that adds workers; `none` is a panic. -/
def addTurn (total : ℕ) : Option Counts → Turn (Option Counts)
  | none => .stop none
  | some counts =>
      match counts.sum with
      | none => .stop none
      | some sum =>
          if sum < total then
            .again do
              let best ← largestDeficit total counts
              let count ← usize (counts best + 1)
              return Function.update counts best count
          else .stop (some counts)

def takeTurn (total : ℕ) : Option Counts → Turn (Option Counts)
  | none => .stop none
  | some counts =>
      match counts.sum with
      | none => .stop none
      | some sum =>
          if total < sum then
            match largestSurplus total counts with
            | none => .stop none
            | some none => .stop (some counts)
            | some (some i) => .again (some (Function.update counts i (counts i - 1)))
          else .stop (some counts)

/-- The fuel is enough for one worker a round. -/
def distributeStageWorkers (total : ℕ) : Option (ℕ × ℕ × ℕ) := do
  let total := max total 3
  let counts ← initialCounts total
  let counts ← loop (addTurn total) (total + 1) (some counts)
  let counts ← loop (takeTurn total) (counts 0 + counts 1 + counts 2 + 1) (some counts)
  return (counts 0, counts 1, counts 2)

/-! ## Rounds without a panic -/

/-- The share of a stage, in hundredths of a worker. -/
def share (total : ℕ) (i : Fin 3) : ℕ := weights i * total

/-- Every stage has its share rounded down or one worker more, L7 the most, and there are not too
many workers. -/
structure Apportioned (total : ℕ) (counts : Counts) : Prop where
  pos : ∀ i, 1 ≤ counts i
  near : ∀ i, counts i = share total i / 100 ∨ counts i = share total i / 100 + 1
  l7 : ∀ i, counts i ≤ counts 1
  sum_le : counts 0 + counts 1 + counts 2 ≤ total

theorem deficit_eq {total : ℕ} {counts : Counts} {i : Fin 3} (hshare : share total i < 2 ^ 63)
    (hused : counts i * 100 < 2 ^ 63) :
    deficit total counts i = some ((share total i : ℤ) - (counts i * 100 : ℕ)) := by
  have hmul : usize (weights i * total) = some (share total i) :=
    if_pos (lt_trans hshare (by norm_num))
  have hcount : usize (counts i * 100) = some (counts i * 100) :=
    if_pos (lt_trans hused (by norm_num))
  rw [deficit, hmul, hcount]
  simp only [Option.bind_eq_bind, Option.bind_some, asIsize, if_pos hshare, if_pos hused]
  exact if_pos (by omega)

theorem le_of_deficit {total : ℕ} {counts : Counts} {i : Fin 3} {d : ℤ}
    (h : deficit total counts i = some d) : -2 ^ 63 ≤ d := by
  obtain ⟨share, -, h⟩ := Option.bind_eq_some_iff.mp h
  obtain ⟨used, -, h⟩ := Option.bind_eq_some_iff.mp h
  unfold isize at h
  split_ifs at h with hrange
  rw [← Option.some.inj h]
  exact hrange.1

/-- No stage lacks more than the one that is found. -/
theorem largestDeficit_spec {total : ℕ} {counts : Counts} {d : Fin 3 → ℤ}
    (h : ∀ i, deficit total counts i = some (d i)) :
    ∃ i, largestDeficit total counts = some i ∧ ∀ j, d j ≤ d i := by
  have hlow := le_of_deficit (h 0)
  have hbest : largestDeficit total counts =
      some (if max (d 0) (d 1) < d 2 then 2 else if d 0 < d 1 then 1 else 0) := by
    simp only [largestDeficit, List.foldlM_cons, List.foldlM_nil, h, Option.bind_eq_bind,
      Option.bind_some, Option.pure_def]
    congr 1
    split_ifs <;> first | rfl | omega
  refine ⟨_, hbest, fun j ↦ ?_⟩
  split_ifs with h2 h1
  all_goals
    have hj : d j = d 0 ∨ d j = d 1 ∨ d j = d 2 := by fin_cases j <;> simp
    omega

section

variable {total : ℕ} {counts : Counts}

theorem share_eq (total : ℕ) :
    share total 0 = 30 * total ∧ share total 1 = 40 * total ∧ share total 2 = 30 * total :=
  ⟨rfl, rfl, rfl⟩

theorem Apportioned.sum (h : Apportioned total counts) (hbound : 40 * total < 2 ^ 63) :
    counts.sum = some (counts 0 + counts 1 + counts 2) := by
  have hsum := h.sum_le
  exact if_pos (by omega)

/-- As long as a worker is missing, all deficits can be computed. -/
theorem Apportioned.deficit (h : Apportioned total counts) (hbound : 40 * total < 2 ^ 63)
    (hmissing : counts 0 + counts 1 + counts 2 < total) (i : Fin 3) :
    deficit total counts i = some ((share total i : ℤ) - (counts i * 100 : ℕ)) := by
  obtain ⟨h0, h1, h2⟩ := share_eq total
  have hnear0 := h.near 0
  have hnear1 := h.near 1
  have hnear2 := h.near 2
  rw [h0] at hnear0
  rw [h1] at hnear1
  rw [h2] at hnear2
  apply deficit_eq
  · fin_cases i
    · change 30 * total < 2 ^ 63
      omega
    · exact hbound
    · change 30 * total < 2 ^ 63
      omega
  · fin_cases i
    · simp only [Fin.zero_eta]
      omega
    · -- L7 has its extra worker only when the sum of the shares leaves room for it
      simp only [Fin.mk_one]
      omega
    · simp only [Fin.reduceFinMk]
      omega

theorem sum_update_succ (counts : Counts) (i : Fin 3) :
    Function.update counts i (counts i + 1) 0 + Function.update counts i (counts i + 1) 1 +
      Function.update counts i (counts i + 1) 2 = counts 0 + counts 1 + counts 2 + 1 := by
  fin_cases i <;> simp [Function.update] <;> omega

/-- The stage that lacks the most has its share rounded down, and L7 has more workers. -/
theorem Apportioned.add (h : Apportioned total counts)
    (hmissing : counts 0 + counts 1 + counts 2 < total) {i : Fin 3}
    (hmost : ∀ j, (share total j : ℤ) - (counts j * 100 : ℕ) ≤
      (share total i : ℤ) - (counts i * 100 : ℕ)) :
    Apportioned total (Function.update counts i (counts i + 1)) := by
  obtain ⟨h0, h1, h2⟩ := share_eq total
  have hmost0 := hmost 0
  have hmost1 := hmost 1
  have hmost2 := hmost 2
  rw [h0] at hmost0
  rw [h1] at hmost1
  rw [h2] at hmost2
  have hi : counts i = share total i / 100 := by
    rcases h.near i with heq | heq
    · exact heq
    · -- otherwise no stage lacks anything, but a worker is missing
      omega
  refine ⟨fun j ↦ ?_, fun j ↦ ?_, fun j ↦ ?_, ?_⟩
  · by_cases hj : j = i
    · simp [hj]
    · rw [Function.update_of_ne hj]
      exact h.pos j
  · by_cases hj : j = i
    · rw [hj, Function.update_self]
      exact .inr (by rw [hi])
    · rw [Function.update_of_ne hj]
      exact h.near j
  · have hl7 := h.l7 j
    have hbehind : i ≠ 1 → counts i < counts 1 := by
      intro hne
      have hshare : share total i = 30 * total := by
        fin_cases i <;> first | rfl | exact absurd rfl hne
      omega
    by_cases hi1 : i = 1
    · subst hi1
      by_cases hj : j = 1
      · rw [hj]
      · rw [Function.update_of_ne hj, Function.update_self]
        omega
    · rw [Function.update_of_ne (Ne.symm hi1)]
      by_cases hj : j = i
      · rw [hj, Function.update_self]
        exact hbehind hi1
      · rw [Function.update_of_ne hj]
        exact hl7
  · rw [sum_update_succ]
    omega

theorem apportioned_initialCounts (hthree : 3 ≤ total) (hbound : 40 * total < 2 ^ 63) :
    ∃ counts, initialCounts total = some counts ∧ Apportioned total counts := by
  have hmul : ∀ i, usize (total * weights i) = some (total * weights i) := by
    intro i
    refine if_pos ?_
    have hle : weights i ≤ 40 := by fin_cases i <;> decide
    have := Nat.mul_le_mul_left total hle
    omega
  refine ⟨_, by simp only [initialCounts, hmul, Option.bind_eq_bind, Option.bind_some]; rfl, ?_⟩
  have hweights : weights 0 = 30 ∧ weights 1 = 40 ∧ weights 2 = 30 := ⟨rfl, rfl, rfl⟩
  have hshare := share_eq total
  refine ⟨fun i ↦ ?_, fun i ↦ ?_, fun i ↦ ?_, ?_⟩
  · fin_cases i <;> simp
  · fin_cases i <;> simp [hweights, hshare] <;> omega
  · fin_cases i <;> simp [hweights] <;> omega
  · simp [hweights]
    omega

theorem eq_of_sum_eq_some {sum : ℕ} (h : counts.sum = some sum) :
    sum = counts 0 + counts 1 + counts 2 := by
  unfold Counts.sum usize at h
  split_ifs at h
  exact (Option.some.inj h).symm

def missing (total : ℕ) (s : Option Counts) : ℕ :=
  (s.map fun counts ↦ total - (counts 0 + counts 1 + counts 2)).getD 0

theorem missing_addTurn {s s' : Option Counts} (h : addTurn total s = .again s') :
    missing total s' < missing total s := by
  cases s with
  | none => cases h
  | some counts =>
      unfold addTurn at h
      cases hsum : counts.sum with
      | none => simp [hsum] at h
      | some sum =>
          have heq := eq_of_sum_eq_some hsum
          simp only [hsum] at h
          split_ifs at h with hless
          obtain rfl := Turn.again.inj h
          cases hbest : largestDeficit total counts with
          | none =>
              simp only [missing, Option.bind_eq_bind, Option.bind_none, Option.map_none,
                Option.getD_none, Option.map_some, Option.getD_some]
              omega
          | some i =>
              have hnext := sum_update_succ counts i
              unfold usize
              simp only [missing, Option.bind_eq_bind, Option.bind_some, Option.map_some,
                Option.getD_some]
              split_ifs
              · simp only [Option.bind_some, Option.pure_def, Option.map_some, Option.getD_some]
                omega
              · simp only [Option.bind_none, Option.map_none, Option.getD_none]
                omega

/-- The step lemma. -/
theorem Apportioned.addTurn (h : Apportioned total counts) (hbound : 40 * total < 2 ^ 63) :
    counts 0 + counts 1 + counts 2 = total ∧ addTurn total (some counts) = .stop (some counts) ∨
      ∃ counts', addTurn total (some counts) = .again (some counts') ∧
        Apportioned total counts' := by
  have hle := h.sum_le
  by_cases hmissing : counts 0 + counts 1 + counts 2 < total
  · right
    have hdeficit := h.deficit hbound hmissing
    obtain ⟨i, hbest, hmost⟩ := largestDeficit_spec hdeficit
    refine ⟨_, ?_, h.add hmissing hmost⟩
    have hcount : usize (counts i + 1) = some (counts i + 1) := by
      refine if_pos ?_
      have := h.l7 i
      omega
    simp only [Live.addTurn, h.sum hbound, if_pos hmissing, hbest, Option.bind_eq_bind,
      Option.bind_some, hcount, Option.pure_def]
  · left
    refine ⟨by omega, ?_⟩
    simp only [Live.addTurn, h.sum hbound, if_neg hmissing]

/-- The run lemma. -/
theorem Apportioned.exists_leaves (h : Apportioned total counts) (hbound : 40 * total < 2 ^ 63) :
    ∃ counts', loop (Live.addTurn total) (total + 1) (some counts) = some counts' ∧
      Leaves (Live.addTurn total) (some counts) (some counts') ∧ Apportioned total counts' ∧
        counts' 0 + counts' 1 + counts' 2 = total := by
  have hfuel : missing total (some counts) < total + 1 := by
    simp only [missing, Option.map_some, Option.getD_some]
    omega
  have hleaves : Leaves (Live.addTurn total) (some counts) _ :=
    leaves_loop (m := missing total) (fun s s' ↦ missing_addTurn) hfuel
  obtain ⟨counts', heq, happ, hsum⟩ := hleaves.rule
    (I := fun s ↦ ∃ c, s = some c ∧ Apportioned total c)
    (J := fun s ↦ ∃ c, s = some c ∧ Apportioned total c ∧ c 0 + c 1 + c 2 = total)
    (by
      rintro s s' ⟨c, rfl, hc⟩ hagain
      rcases hc.addTurn hbound with ⟨-, hstop⟩ | ⟨c', hnext, hc'⟩
      · cases hstop.symm.trans hagain
      · exact ⟨c', (Turn.again.inj (hnext.symm.trans hagain)).symm, hc'⟩)
    (by
      rintro s r ⟨c, rfl, hc⟩ hstop
      rcases hc.addTurn hbound with ⟨hsum, hstop'⟩ | ⟨c', hnext, -⟩
      · exact ⟨c, (Turn.stop.inj (hstop'.symm.trans hstop)).symm, hc, hsum⟩
      · cases hnext.symm.trans hstop)
    ⟨counts, rfl, h⟩
  exact ⟨counts', heq, heq ▸ hleaves, happ, hsum⟩

end

theorem distributeStageWorkers_spec (total : ℕ) (hbound : 40 * total < 2 ^ 63) :
    ∃ initial counts : Counts, initialCounts (max total 3) = some initial ∧
      Leaves (addTurn (max total 3)) (some initial) (some counts) ∧
      Leaves (takeTurn (max total 3)) (some counts) (some counts) ∧
      distributeStageWorkers total = some (counts 0, counts 1, counts 2) ∧
      counts 0 + counts 1 + counts 2 = max total 3 ∧
      ∀ i, 1 ≤ counts i ∧ (counts i = weights i * max total 3 / 100 ∨
        counts i = weights i * max total 3 / 100 + 1) ∧ counts i ≤ counts 1 := by
  have hbound' : 40 * max total 3 < 2 ^ 63 := by omega
  obtain ⟨initial, hinitial, happ⟩ := apportioned_initialCounts (le_max_right total 3) hbound'
  obtain ⟨counts, hloop, hleaves, happ', hsum⟩ := happ.exists_leaves hbound'
  have htake : takeTurn (max total 3) (some counts) = .stop (some counts) := by
    simp only [takeTurn, happ'.sum hbound', hsum, if_neg (lt_irrefl _)]
  refine ⟨initial, counts, hinitial, hleaves, .stop htake, ?_, hsum,
    fun i ↦ ⟨happ'.pos i, happ'.near i, happ'.l7 i⟩⟩
  have htaken : loop (takeTurn (max total 3)) (counts 0 + counts 1 + counts 2 + 1) (some counts) =
      some counts := by
    rw [loop, htake]
  simp only [distributeStageWorkers, hinitial, hloop, htaken, Option.bind_eq_bind,
    Option.bind_some, Option.pure_def]

/-- Sixteen workers: the shares are 4.8, 6.4 and 4.8. -/
theorem distributeStageWorkers_sixteen :
    40 * 16 < 2 ^ 63 ∧ ∃ counts : Counts,
      distributeStageWorkers 16 = some (counts 0, counts 1, counts 2) ∧
        counts 0 + counts 1 + counts 2 = 16 ∧ distributeStageWorkers 16 = some (5, 6, 5) := by
  obtain ⟨-, counts, -, -, -, hcounts, hsum, -⟩ := distributeStageWorkers_spec 16 (by norm_num)
  exact ⟨by norm_num, counts, hcounts, hsum, by decide +kernel⟩

end Bazalt.Live
