import Mathlib.Data.List.ReduceOption
import Mathlib.Data.List.Dedup
import Mathlib.Tactic

/-!
# Work in groups

Elements are put into groups by a key, the groups are worked on in any order, and every result is
put into the slot of its element.  The slots are then filled as if the elements were worked on one
after the other.
-/

namespace Bazalt.Lib

/-! ## Groups -/

section

variable {α κ : Type*} [DecidableEq κ]

/-- Every element is added to the group of its key. -/
def groupBy (key : α → κ) (l : List α) : κ → List α :=
  l.foldl (fun groups x ↦ Function.update groups (key x) (groups (key x) ++ [x])) fun _ ↦ []

theorem foldl_groupBy (key : α → κ) (l : List α) (groups : κ → List α) (k : κ) :
    l.foldl (fun groups x ↦ Function.update groups (key x) (groups (key x) ++ [x])) groups k =
      groups k ++ l.filter fun x ↦ decide (key x = k) := by
  induction l generalizing groups with
  | nil => exact (List.append_nil _).symm
  | cons x l ih =>
      rw [List.foldl_cons, ih, List.filter_cons]
      by_cases hk : key x = k
      · subst hk
        rw [Function.update_self, List.append_assoc, if_pos (decide_eq_true rfl)]
        rfl
      · rw [Function.update_of_ne (Ne.symm hk), if_neg (by simpa using hk)]

theorem groupBy_eq (key : α → κ) (l : List α) (k : κ) :
    groupBy key l k = l.filter fun x ↦ decide (key x = k) :=
  foldl_groupBy key l (fun _ ↦ []) k

/-- The groups are the elements, in another order. -/
theorem flatMap_groupBy_perm (key : α → κ) {keys : List κ} (hnodup : keys.Nodup) {l : List α}
    (hkeys : ∀ x ∈ l, key x ∈ keys) : (keys.flatMap (groupBy key l)).Perm l := by
  induction keys generalizing l with
  | nil =>
      rw [List.eq_nil_iff_forall_not_mem.mpr fun x hx ↦ List.not_mem_nil (hkeys x hx)]
      exact List.Perm.nil
  | cons k keys ih =>
      obtain ⟨hk, hnodup⟩ := List.nodup_cons.mp hnodup
      have hrest : keys.flatMap (groupBy key l) =
          keys.flatMap (groupBy key (l.filter fun x ↦ !decide (key x = k))) := by
        refine List.flatMap_congr fun k' hk' ↦ ?_
        have hne : k' ≠ k := fun heq ↦ hk (heq ▸ hk')
        rw [groupBy_eq, groupBy_eq, List.filter_filter]
        refine List.filter_congr fun x _ ↦ ?_
        by_cases hx : key x = k'
        · simp [hx, hne]
        · simp [hx]
      have hothers := ih hnodup (l := l.filter fun x ↦ !decide (key x = k)) fun x hx ↦ by
        rw [List.mem_filter] at hx
        exact (List.mem_cons.mp (hkeys x hx.1)).resolve_left (by simpa using hx.2)
      rw [List.flatMap_cons, hrest, groupBy_eq]
      exact (hothers.append_left _).trans (List.filter_append_perm _ l)

end

/-! ## Slots -/

section

variable {α ρ : Type*}

/-- Values are put into their slots. -/
def scatter (slots : List (Option α)) (writes : List (ℕ × α)) : List (Option α) :=
  writes.foldl (fun slots w ↦ slots.set w.1 (some w.2)) slots

@[simp] theorem scatter_nil (slots : List (Option α)) : scatter slots [] = slots := rfl

theorem scatter_append (slots : List (Option α)) (writes later : List (ℕ × α)) :
    scatter slots (writes ++ later) = scatter (scatter slots writes) later :=
  List.foldl_append

@[simp] theorem length_scatter (slots : List (Option α)) (writes : List (ℕ × α)) :
    (scatter slots writes).length = slots.length := by
  induction writes generalizing slots with
  | nil => rfl
  | cons w writes ih =>
      rw [scatter, List.foldl_cons, ← scatter, ih, List.length_set]

theorem getElem?_scatter_of_notMem {slots : List (Option α)} {writes : List (ℕ × α)} {i : ℕ}
    (h : i ∉ writes.map Prod.fst) : (scatter slots writes)[i]? = slots[i]? := by
  induction writes generalizing slots with
  | nil => rfl
  | cons w writes ih =>
      rw [List.map_cons, List.mem_cons, not_or] at h
      rw [scatter, List.foldl_cons, ← scatter, ih h.2, List.getElem?_set_ne (Ne.symm h.1)]

theorem getElem?_scatter_of_mem {slots : List (Option α)} {writes : List (ℕ × α)}
    (hnodup : (writes.map Prod.fst).Nodup) {i : ℕ} {v : α} (h : (i, v) ∈ writes)
    (hi : i < slots.length) : (scatter slots writes)[i]? = some (some v) := by
  induction writes generalizing slots with
  | nil => exact absurd h List.not_mem_nil
  | cons w writes ih =>
      rw [List.map_cons, List.nodup_cons] at hnodup
      rw [scatter, List.foldl_cons, ← scatter]
      rcases List.mem_cons.mp h with rfl | hlater
      · rw [getElem?_scatter_of_notMem hnodup.1, List.getElem?_set_self hi]
      · exact ih hnodup.2 hlater (by rwa [List.length_set])

theorem mem_results {rows : List ρ} {f : ρ → Option α} {i : ℕ} {v : α} :
    (i, v) ∈ rows.zipIdx.filterMap (fun p ↦ (f p.1).map fun v ↦ (p.2, v)) ↔
      ∃ row, rows[i]? = some row ∧ f row = some v := by
  rw [List.mem_filterMap]
  constructor
  · rintro ⟨⟨row, j⟩, hmem, hv⟩
    obtain ⟨v', hf, heq⟩ := Option.map_eq_some_iff.mp hv
    obtain ⟨rfl, rfl⟩ := Prod.mk.inj heq
    exact ⟨row, List.mem_zipIdx_iff_getElem?.mp hmem, hf⟩
  · rintro ⟨row, hrow, hf⟩
    exact ⟨(row, i), List.mem_zipIdx_iff_getElem?.mpr hrow, by rw [hf]; rfl⟩

theorem nodup_results (rows : List ρ) (f : ρ → Option α) :
    ((rows.zipIdx.filterMap fun p ↦ (f p.1).map fun v ↦ (p.2, v)).map Prod.fst).Nodup := by
  have hslots : rows.zipIdx.Pairwise fun p q ↦ p.2 ≠ q.2 := by
    rw [← List.pairwise_map (f := Prod.snd) (R := (· ≠ ·)), List.zipIdx_map_snd]
    exact List.nodup_range'
  rw [List.Nodup, List.pairwise_map]
  refine hslots.filterMap _ fun p q hne w hw w' hw' ↦ ?_
  obtain ⟨v, -, rfl⟩ := Option.map_eq_some_iff.mp hw
  obtain ⟨v', -, rfl⟩ := Option.map_eq_some_iff.mp hw'
  exact hne

/-- The order in which the slots are filled does not matter. -/
theorem scatter_eq_map (rows : List ρ) (f : ρ → Option α) {writes : List (ℕ × α)}
    (h : writes.Perm (rows.zipIdx.filterMap fun p ↦ (f p.1).map fun v ↦ (p.2, v))) :
    scatter (List.replicate rows.length none) writes = rows.map f := by
  have hnodup : (writes.map Prod.fst).Nodup :=
    (h.map Prod.fst).nodup_iff.mpr (nodup_results rows f)
  apply List.ext_getElem?
  intro i
  by_cases hi : i < rows.length
  · have hrow : rows[i]? = some rows[i] := List.getElem?_eq_getElem hi
    rw [List.getElem?_map, hrow, Option.map_some]
    cases hf : f rows[i] with
    | some v =>
        have hmem : (i, v) ∈ writes := h.mem_iff.mpr (mem_results.mpr ⟨_, hrow, hf⟩)
        exact getElem?_scatter_of_mem hnodup hmem (by rwa [List.length_replicate])
    | none =>
        have hnot : i ∉ writes.map Prod.fst := by
          intro hmem
          obtain ⟨⟨j, v⟩, hw, rfl⟩ := List.mem_map.mp hmem
          obtain ⟨row, hrow', hv⟩ := mem_results.mp (h.mem_iff.mp hw)
          rw [hrow, Option.some.injEq] at hrow'
          rw [← hrow', hf] at hv
          exact Option.some_ne_none v hv.symm
        rw [getElem?_scatter_of_notMem hnot, List.getElem?_replicate, if_pos hi]
  · rw [List.getElem?_eq_none, List.getElem?_eq_none]
    · rw [List.length_map]
      exact Nat.not_lt.mp hi
    · rw [length_scatter, List.length_replicate]
      exact Nat.not_lt.mp hi

end

end Bazalt.Lib
