import Mathlib.Data.List.Destutter
import Mathlib.Tactic

/-!
# Logs

A log is a list that grows at its end.  Entries that repeat the one before them are
collapsed by `List.destutter`.
-/

namespace Bazalt.Lib

section

variable {α : Type*} [DecidableEq α]

theorem destutter'_concat (x : α) (l : List α) : ∀ a, (l ++ [x]).destutter' (· ≠ ·) a =
    l.destutter' (· ≠ ·) a ++ if (a :: l).getLast? = some x then [] else [x] := by
  induction l with
  | nil =>
      intro a
      by_cases h : a = x
      · simp [List.destutter', h]
      · simp [List.destutter', h]
  | cons b l ih =>
      intro a
      rw [List.cons_append, List.destutter', List.destutter', List.getLast?_cons_cons]
      split_ifs with hab hlast
      all_goals rw [ih]
      · simp [hlast]
      · simp [hlast]
      · obtain rfl := not_not.mp hab
        simp_all
      · obtain rfl := not_not.mp hab
        simp_all

/-- Another element repeats the last one, or is the next of the collapsed list. -/
theorem destutter_concat (x : α) (l : List α) : (l ++ [x]).destutter (· ≠ ·) =
    l.destutter (· ≠ ·) ++ if l.getLast? = some x then [] else [x] := by
  cases l with
  | nil => rfl
  | cons a l => exact destutter'_concat x l a

theorem getLast?_destutter (l : List α) : (l.destutter (· ≠ ·)).getLast? = l.getLast? := by
  induction l using List.reverseRecOn with
  | nil => rfl
  | append_singleton l x ih =>
      rw [destutter_concat]
      split_ifs with h
      · rw [List.append_nil, ih, h, List.getLast?_concat]
      · rw [List.getLast?_concat, List.getLast?_concat]

theorem mem_destutter {l : List α} {a : α} : a ∈ l.destutter (· ≠ ·) ↔ a ∈ l := by
  induction l using List.reverseRecOn with
  | nil => rfl
  | append_singleton l x ih =>
      rw [destutter_concat, List.mem_append, List.mem_append, ih]
      split_ifs with h
      · have hx : x ∈ l := List.mem_of_getLast? h
        simp only [List.not_mem_nil, or_false, List.mem_singleton]
        exact ⟨.inl, fun h ↦ h.elim id fun hax ↦ hax ▸ hx⟩
      · rfl

end

end Bazalt.Lib
