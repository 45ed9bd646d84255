import Mathlib.Data.List.TakeWhile
import Mathlib.Tactic

/-!
# Whitespace around a text

A text without the whitespace at its ends, where whitespace is what Unicode calls `White_Space`.
-/

namespace Bazalt.Lib

/-- `char::is_whitespace`. -/
def isWhitespace (c : Char) : Bool :=
  let n := c.toNat
  decide (9 ≤ n ∧ n ≤ 13 ∨ n = 0x20 ∨ n = 0x85 ∨ n = 0xa0 ∨ n = 0x1680 ∨
    0x2000 ≤ n ∧ n ≤ 0x200a ∨ n = 0x2028 ∨ n = 0x2029 ∨ n = 0x202f ∨ n = 0x205f ∨ n = 0x3000)

/-- `str::trim`. -/
def trim (s : List Char) : List Char :=
  ((s.dropWhile isWhitespace).reverse.dropWhile isWhitespace).reverse

theorem dropWhile_of_forall {p : Char → Bool} {s : List Char} (h : ∀ c ∈ s, p c) :
    s.dropWhile p = [] := by
  have happend : (s ++ []).dropWhile p = [].dropWhile p := List.dropWhile_append_of_pos h
  rwa [List.append_nil, List.dropWhile_nil] at happend

/-- Whitespace around a text goes away. -/
theorem trim_append {ws ws' : List Char} (hws : ∀ c ∈ ws, isWhitespace c)
    (hws' : ∀ c ∈ ws', isWhitespace c) (s : List Char) : trim (ws ++ s ++ ws') = trim s := by
  unfold trim
  rw [List.append_assoc, List.dropWhile_append_of_pos hws, List.dropWhile_append]
  split_ifs with hempty
  · rw [List.isEmpty_iff.mp hempty, dropWhile_of_forall hws']
  · rw [List.reverse_append, List.dropWhile_append_of_pos]
    exact fun c hc ↦ hws' c (List.mem_reverse.mp hc)

/-- A text is its trimmed text between whitespace. -/
theorem exists_trim (s : List Char) : ∃ ws ws', s = ws ++ trim s ++ ws' ∧
    (∀ c ∈ ws, isWhitespace c) ∧ ∀ c ∈ ws', isWhitespace c := by
  have hfront : s.takeWhile isWhitespace ++ s.dropWhile isWhitespace = s :=
    List.takeWhile_append_dropWhile
  have hback : (s.dropWhile isWhitespace).reverse.takeWhile isWhitespace ++
      (s.dropWhile isWhitespace).reverse.dropWhile isWhitespace =
        (s.dropWhile isWhitespace).reverse := List.takeWhile_append_dropWhile
  refine ⟨s.takeWhile isWhitespace,
    ((s.dropWhile isWhitespace).reverse.takeWhile isWhitespace).reverse, ?_,
    fun c hc ↦ List.mem_takeWhile_imp hc,
    fun c hc ↦ List.mem_takeWhile_imp (List.mem_reverse.mp hc)⟩
  rw [trim, List.append_assoc, ← List.reverse_append, hback, List.reverse_reverse, hfront]

theorem trim_trim (s : List Char) : trim (trim s) = trim s := by
  obtain ⟨ws, ws', hs, hws, hws'⟩ := exists_trim s
  have hsame := trim_append hws hws' (trim s)
  rwa [← hs, eq_comm] at hsame

theorem dropWhile_of_forall_not {p : Char → Bool} {s : List Char} (h : ∀ c ∈ s, p c = false) :
    s.dropWhile p = s := by
  cases s with
  | nil => rfl
  | cons c s => exact List.dropWhile_cons_of_neg (by simp [h c List.mem_cons_self])

/-- A text without whitespace stays as it is. -/
theorem trim_of_forall_not {s : List Char} (h : ∀ c ∈ s, isWhitespace c = false) : trim s = s := by
  rw [trim, dropWhile_of_forall_not h,
    dropWhile_of_forall_not fun c hc ↦ h c (List.mem_reverse.mp hc), List.reverse_reverse]

end Bazalt.Lib
