import Mathlib.Data.List.AList
import Mathlib.Tactic

/-!
# Tables

A table has one value for each of its keys.  How many of its values have a property changes
by one when an entry comes or goes.
-/

namespace Bazalt.Lib

abbrev Table (κ α : Type*) := AList fun _ : κ ↦ α

namespace Table

variable {κ α : Type*}

def size (t : Table κ α) : ℕ := t.entries.length

/-- How many values have the property. -/
def tally (q : α → Bool) (t : Table κ α) : ℕ := t.entries.countP fun e ↦ q e.2

/-- The sum over the values. -/
def total (f : α → ℕ) (t : Table κ α) : ℕ := (t.entries.map fun e ↦ f e.2).sum

@[simp] theorem total_empty (f : α → ℕ) : total f (∅ : Table κ α) = 0 := rfl

@[simp] theorem size_empty : size (∅ : Table κ α) = 0 := rfl

@[simp] theorem tally_empty (q : α → Bool) : tally q (∅ : Table κ α) = 0 := rfl

theorem tally_true (t : Table κ α) : tally (fun _ ↦ true) t = t.size := by
  simp [tally, size]

theorem tally_le_size (q : α → Bool) (t : Table κ α) : tally q t ≤ t.size := List.countP_le_length

variable [DecidableEq κ] {t : Table κ α} {k : κ} {v w : α}

theorem entries_perm (h : t.lookup k = some v) :
    t.entries.Perm (⟨k, v⟩ :: (t.erase k).entries) := by
  have hmem : k ∈ t.entries.keys := AList.lookup_isSome.mp (Option.isSome_of_eq_some h)
  obtain ⟨u, before, after, -, hsplit, herase⟩ := List.exists_of_kerase hmem
  have hval : u = v := by
    have hu : (⟨k, u⟩ : Σ _ : κ, α) ∈ t.entries := by simp [hsplit]
    have hlookup := (AList.mem_lookup_iff (s := t)).mpr hu
    exact Option.some.inj ((Option.mem_def.mp hlookup).symm.trans h)
  change t.entries.Perm (⟨k, v⟩ :: List.kerase k t.entries)
  rw [herase, hsplit, hval]
  exact List.perm_middle

theorem forall_entries_iff {P : κ → α → Prop} :
    (∀ e ∈ t.entries, P e.1 e.2) ↔ ∀ k v, t.lookup k = some v → P k v :=
  ⟨fun h k v hkv ↦ h ⟨k, v⟩ (AList.mem_lookup_iff.mp hkv),
    fun h e he ↦ h e.1 e.2 (AList.mem_lookup_iff.mpr he)⟩

theorem tally_eq_size {q : α → Bool} (h : ∀ k v, t.lookup k = some v → q v = true) :
    tally q t = t.size :=
  List.countP_eq_length.mpr (forall_entries_iff.mpr h)

theorem exists_lookup_of_size_pos (h : 0 < t.size) : ∃ k v, t.lookup k = some v := by
  obtain ⟨e, he⟩ := List.exists_mem_of_length_pos h
  exact ⟨e.1, e.2, AList.mem_lookup_iff.mpr he⟩

theorem entries_erase (t : Table κ α) (k : κ) :
    (t.erase k).entries = t.entries.kerase k := rfl

theorem tally_insert_of_absent (q : α → Bool) (h : t.lookup k = none) (v : α) :
    tally q (t.insert k v) = tally q t + (q v).toNat := by
  rw [tally, AList.entries_insert_of_notMem (AList.lookup_eq_none.mp h), List.countP_cons, tally]
  cases q v <;> rfl

theorem tally_erase (q : α → Bool) (h : t.lookup k = some v) :
    tally q (t.erase k) + (q v).toNat = tally q t := by
  rw [tally, tally, (entries_perm h).countP_eq, List.countP_cons]
  cases q v <;> rfl

theorem tally_insert (q : α → Bool) (h : t.lookup k = some v) (w : α) :
    tally q (t.insert k w) + (q v).toNat = tally q t + (q w).toNat := by
  rw [← tally_erase q h, tally, AList.entries_insert, List.countP_cons, tally, entries_erase]
  cases q w <;> cases q v <;> simp

theorem total_insert_of_absent (f : α → ℕ) (h : t.lookup k = none) (v : α) :
    total f (t.insert k v) = total f t + f v := by
  rw [total, AList.entries_insert_of_notMem (AList.lookup_eq_none.mp h), List.map_cons,
    List.sum_cons, add_comm, total]

theorem total_erase (f : α → ℕ) (h : t.lookup k = some v) :
    total f (t.erase k) + f v = total f t := by
  rw [total, total, ((entries_perm h).map _).sum_eq, List.map_cons, List.sum_cons, add_comm]

theorem total_insert (f : α → ℕ) (h : t.lookup k = some v) (w : α) :
    total f (t.insert k w) + f v = total f t + f w := by
  rw [← total_erase f h, total, AList.entries_insert, List.map_cons, List.sum_cons, total,
    entries_erase]
  dsimp only
  omega

theorem size_insert_of_absent (h : t.lookup k = none) (v : α) :
    size (t.insert k v) = t.size + 1 := by
  simp only [← tally_true, tally_insert_of_absent _ h, Bool.toNat_true]

theorem size_insert (h : t.lookup k = some v) (w : α) : size (t.insert k w) = t.size := by
  have := tally_insert (fun _ ↦ true) h w
  simp only [tally_true] at this
  omega

theorem size_erase_le (t : Table κ α) (k : κ) : size (t.erase k) ≤ t.size :=
  (List.kerase_sublist k t.entries).length_le

theorem size_erase (h : t.lookup k = some v) : size (t.erase k) + 1 = t.size := by
  simpa only [tally_true, Bool.toNat_true] using tally_erase (fun _ ↦ true) h

end Table

end Bazalt.Lib
