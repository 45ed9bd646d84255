import Mathlib.Data.List.Basic
import Mathlib.Tactic.Common

/-!
# Memory in chunks

A memory has a cell at every address.  A write changes the cells it covers and no others.
Memory that is cut into chunks of one size can be passed around chunk by chunk: what is
written to one chunk is not seen in another.
-/

namespace Bazalt.Lib

abbrev Memory (α : Type*) := ℕ → α

namespace Memory

variable {α : Type*} (m : Memory α)

def read (addr len : ℕ) : List α := (List.range len).map fun i ↦ m (addr + i)

def write (addr : ℕ) (data : List α) : Memory α := fun a ↦
  if addr ≤ a then (data[a - addr]?).getD (m a) else m a

variable {m} {addr addr' len size : ℕ} {data : List α}

@[simp] theorem length_read : (m.read addr len).length = len := by
  simp [read]

theorem write_of_lt {a : ℕ} (h : a < addr) : m.write addr data a = m a :=
  if_neg (Nat.not_le.mpr h)

theorem write_of_le {a : ℕ} (h : addr + data.length ≤ a) : m.write addr data a = m a := by
  have hnone : data[a - addr]? = none := List.getElem?_eq_none (by omega)
  unfold write
  rw [hnone]
  split_ifs <;> rfl

theorem read_write_of_disjoint (h : addr + len ≤ addr' ∨ addr' + data.length ≤ addr) :
    (m.write addr' data).read addr len = m.read addr len := by
  refine List.map_congr_left fun i hi ↦ ?_
  have hlt := List.mem_range.mp hi
  rcases h with h | h
  · exact write_of_lt (by omega)
  · exact write_of_le (by omega)

/-- The stretch lies in one chunk. -/
def InChunk (size addr len : ℕ) : Prop := addr % size + len ≤ size

instance : Decidable (InChunk size addr len) := inferInstanceAs (Decidable (_ ≤ _))

/-- A write to one chunk is not seen in another. -/
theorem read_write_of_chunk_ne (hread : InChunk size addr len)
    (hwrite : InChunk size addr' data.length) (hne : addr / size ≠ addr' / size) :
    (m.write addr' data).read addr len = m.read addr len := by
  have hdiv := Nat.div_add_mod addr size
  have hdiv' := Nat.div_add_mod addr' size
  unfold InChunk at hread hwrite
  apply read_write_of_disjoint
  rcases Nat.lt_or_gt_of_ne hne with hlt | hlt
  · left
    have hstep : size * (addr / size + 1) ≤ size * (addr' / size) := Nat.mul_le_mul_left size hlt
    rw [Nat.mul_succ] at hstep
    omega
  · right
    have hstep : size * (addr' / size + 1) ≤ size * (addr / size) := Nat.mul_le_mul_left size hlt
    rw [Nat.mul_succ] at hstep
    omega

end Memory

end Bazalt.Lib
