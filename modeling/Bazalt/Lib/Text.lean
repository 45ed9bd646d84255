import Mathlib.Data.Char
import Mathlib.Data.List.Lex
import Mathlib.Data.List.Sort
import Mathlib.Tactic

/-!
# Text of fixed width

Texts are ordered by their first difference.  For texts of one width this is the order of
what they spell: of their parts one after the other, and of numbers that are padded with
zeros.
-/

namespace Bazalt.Lib

section

variable {α : Type*} [LinearOrder α]

/-- Texts with parts of one width compare part by part. -/
theorem append_lt_append_iff {a b c d : List α} (h : a.length = b.length) :
    a ++ c < b ++ d ↔ a < b ∨ a = b ∧ c < d := by
  induction a generalizing b with
  | nil =>
      obtain rfl := List.length_eq_zero_iff.mp h.symm
      simp
  | cons x a ih =>
      cases b with
      | nil => simp at h
      | cons y b =>
          have hrest := ih (b := b) (by simpa using h)
          rw [List.cons_append, List.cons_append, List.cons_lt_cons_iff, List.cons_lt_cons_iff,
            hrest, List.cons.injEq]
          tauto

end

/-- Sorting puts the elements of a list into the order of a sorted one. -/
theorem insertionSort_eq_of_perm {α : Type*} {r : α → α → Prop} [DecidableRel r] [Std.Total r]
    [IsTrans α r] [Std.Antisymm r] {l sorted : List α} (h : l.Perm sorted)
    (hsorted : sorted.Pairwise r) : l.insertionSort r = sorted :=
  ((List.perm_insertionSort r l).trans h).eq_of_pairwise' (List.pairwise_insertionSort r l) hsorted

/-! ## Numbers -/

/-- The last `width` digits of a number, with leading zeros. -/
def digits (base : ℕ) : ℕ → ℕ → List Char
  | 0, _ => []
  | width + 1, n => digits base width (n / base) ++ [Nat.digitChar (n % base)]

@[simp] theorem length_digits (base width n : ℕ) : (digits base width n).length = width := by
  induction width generalizing n with
  | zero => rfl
  | succ width ih => simp [digits, ih]

theorem digitChar_lt_digitChar {m n : ℕ} (hn : n < 16) (h : m < n) :
    Nat.digitChar m < Nat.digitChar n := by
  revert m
  revert n
  decide

/-- Of two numbers the greater one has the greater quotient, or the same and the greater
remainder. -/
theorem div_lt_or {k m n : ℕ} (h : m < n) : m / k < n / k ∨ m / k = n / k ∧ m % k < n % k := by
  rcases Nat.lt_or_ge (m / k) (n / k) with hlt | hge
  · exact .inl hlt
  · have heq : m / k = n / k := le_antisymm (Nat.div_le_div_right h.le) hge
    have hm := Nat.div_add_mod m k
    have hn := Nat.div_add_mod n k
    rw [heq] at hm
    exact .inr ⟨heq, by omega⟩

/-- Numbers that fit compare like their digits. -/
theorem digits_lt_digits {base width m n : ℕ} (hbase : base ≤ 16) (hn : n < base ^ width)
    (h : m < n) : digits base width m < digits base width n := by
  induction width generalizing m n with
  | zero =>
      rw [pow_zero] at hn
      omega
  | succ width ih =>
      have hpos : 0 < base := by
        by_contra hzero
        obtain rfl : base = 0 := by omega
        simp at hn
      have hdiv : n / base < base ^ width := Nat.div_lt_of_lt_mul (by rwa [pow_succ'] at hn)
      rw [digits, digits, append_lt_append_iff (by simp)]
      rcases div_lt_or (k := base) h with hlt | ⟨heq, hmod⟩
      · exact .inl (ih hdiv hlt)
      · refine .inr ⟨by rw [heq], List.cons_lt_cons_iff.mpr (.inl ?_)⟩
        exact digitChar_lt_digitChar ((Nat.mod_lt n hpos).trans_le hbase) hmod

/-- A number of fixed width decides, unless it is the same. -/
theorem digits_append_lt {base width m n : ℕ} {c d : List Char} (hbase : base ≤ 16)
    (hn : n < base ^ width) (h : m < n ∨ m = n ∧ c < d) :
    digits base width m ++ c < digits base width n ++ d := by
  rw [append_lt_append_iff (by simp)]
  rcases h with hlt | ⟨rfl, hrest⟩
  · exact .inl (digits_lt_digits hbase hn hlt)
  · exact .inr ⟨rfl, hrest⟩

end Bazalt.Lib
