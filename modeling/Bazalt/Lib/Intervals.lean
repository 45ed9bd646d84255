import Mathlib.Data.List.Sort
import Mathlib.Order.Interval.Set.Basic
import Mathlib.Order.MinMax

/-!
# Merging half-open intervals

Intervals that are ordered by where they start are merged from left to right: one that
starts no later than the last one ends is joined to it.  What is left covers the same points
and is separated, so a stretch is covered if and only if one interval contains it.
-/

namespace Bazalt.Lib

/-- A sort by a key that promises nothing about elements with the same key. -/
structure UnstableSort {α β : Type*} [LE α] (key : β → α) where
  sort : List β → List β
  perm : ∀ l, (sort l).Perm l
  sorted : ∀ l, (sort l).Pairwise fun a b ↦ key a ≤ key b

/-- A stable sort is one of them. -/
def UnstableSort.insertion {α β : Type*} [LinearOrder α] (key : β → α) : UnstableSort key where
  sort := List.insertionSort fun a b ↦ key a ≤ key b
  perm := List.perm_insertionSort _
  sorted l := by
    have htotal : Std.Total fun a b : β ↦ key a ≤ key b := ⟨fun a b ↦ le_total _ _⟩
    have htrans : IsTrans β fun a b ↦ key a ≤ key b := ⟨fun _ _ _ ↦ le_trans⟩
    exact List.pairwise_insertionSort _ l

namespace Intervals

variable {α : Type*} [LinearOrder α]

/-- The points of some intervals. -/
def cover (ranges : List (α × α)) : Set α := {x | ∃ r ∈ ranges, x ∈ Set.Ico r.1 r.2}

/-- One interval is joined to the last one, or put behind it. -/
def mergeStep (merged : List (α × α)) (r : α × α) : List (α × α) :=
  match merged.getLast? with
  | some last =>
      if r.1 ≤ last.2 then merged.dropLast ++ [(last.1, max last.2 r.2)] else merged ++ [r]
  | none => merged ++ [r]

def merge (ranges : List (α × α)) : List (α × α) := ranges.foldl mergeStep []

/-- The intervals do not touch and are in their order. -/
def Separated (ranges : List (α × α)) : Prop := ranges.Pairwise fun a b ↦ a.2 < b.1

@[simp] theorem cover_nil : cover ([] : List (α × α)) = ∅ := by
  simp [cover]

theorem cover_append (l l' : List (α × α)) : cover (l ++ l') = cover l ∪ cover l' := by
  ext x
  simp [cover, or_and_right, exists_or]

theorem cover_singleton (r : α × α) : cover [r] = Set.Ico r.1 r.2 := by
  ext x
  simp [cover]

theorem cover_perm {l l' : List (α × α)} (h : l.Perm l') : cover l = cover l' := by
  ext x
  simp [cover, h.mem_iff]

/-- What a step does: it joins two intervals, or it keeps all and adds one. -/
theorem mergeStep_cases (merged : List (α × α)) (r : α × α) :
    (∃ before last, merged = before ++ [last] ∧ r.1 ≤ last.2 ∧
        mergeStep merged r = before ++ [(last.1, max last.2 r.2)]) ∨
      (∀ last ∈ merged.getLast?, last.2 < r.1) ∧ mergeStep merged r = merged ++ [r] := by
  rcases List.eq_nil_or_concat merged with rfl | ⟨before, last, rfl⟩
  · exact .inr ⟨by simp, rfl⟩
  · rw [List.concat_eq_append, mergeStep, List.getLast?_concat]
    dsimp only
    split_ifs with hle
    · exact .inl ⟨before, last, rfl, hle, by rw [List.dropLast_concat]⟩
    · refine .inr ⟨fun x hx ↦ ?_, rfl⟩
      obtain rfl := Option.some.inj hx
      exact not_le.mp hle

/-- What merging keeps while it goes through ordered intervals. -/
structure Merging (seen merged : List (α × α)) : Prop where
  cover_eq : cover merged = cover seen
  starts : ∀ a ∈ merged, ∃ b ∈ seen, a.1 = b.1
  separated : (∀ b ∈ seen, b.1 < b.2) → Separated merged ∧ ∀ a ∈ merged, a.1 < a.2

theorem Merging.step {seen merged : List (α × α)} (h : Merging seen merged) {r : α × α}
    (hr : ∀ b ∈ seen, b.1 ≤ r.1) : Merging (seen ++ [r]) (mergeStep merged r) := by
  have hstart : ∀ a ∈ merged, a.1 ≤ r.1 := fun a ha ↦ by
    obtain ⟨b, hb, hab⟩ := h.starts a ha
    exact hab ▸ hr b hb
  rcases mergeStep_cases merged r with ⟨before, last, rfl, hle, heq⟩ | ⟨hlast, heq⟩
  · rw [heq]
    have hlast : last.1 ≤ r.1 := hstart last (by simp)
    refine ⟨?_, fun a ha ↦ ?_, fun hpos ↦ ?_⟩
    · have hjoin : Set.Ico last.1 (max last.2 r.2) = Set.Ico last.1 last.2 ∪ Set.Ico r.1 r.2 := by
        ext x
        simp only [Set.mem_Ico, Set.mem_union, lt_max_iff]
        refine ⟨fun ⟨hx, hx'⟩ ↦ ?_, ?_⟩
        · rcases hx' with hx' | hx'
          · exact .inl ⟨hx, hx'⟩
          · rcases lt_or_ge x last.2 with hlt | hge
            · exact .inl ⟨hx, hlt⟩
            · exact .inr ⟨hle.trans hge, hx'⟩
        · rintro (⟨hx, hx'⟩ | ⟨hx, hx'⟩)
          · exact ⟨hx, .inl hx'⟩
          · exact ⟨hlast.trans hx, .inr hx'⟩
      rw [cover_append, cover_append, ← h.cover_eq, cover_append, cover_singleton, cover_singleton,
        cover_singleton, hjoin, Set.union_assoc]
    · rcases List.mem_append.mp ha with hin | hin
      · obtain ⟨b, hb, hab⟩ := h.starts a (List.mem_append_left _ hin)
        exact ⟨b, List.mem_append_left _ hb, hab⟩
      · obtain rfl := List.mem_singleton.mp hin
        obtain ⟨b, hb, hab⟩ := h.starts last (by simp)
        exact ⟨b, List.mem_append_left _ hb, hab⟩
    · obtain ⟨hsep, hne⟩ := h.separated fun b hb ↦ hpos b (List.mem_append_left _ hb)
      obtain ⟨hbefore, -, hcross⟩ := List.pairwise_append.mp hsep
      refine ⟨List.pairwise_append.mpr ⟨hbefore, List.pairwise_singleton _ _, ?_⟩, fun a ha ↦ ?_⟩
      · intro a ha b hb
        obtain rfl := List.mem_singleton.mp hb
        exact hcross a ha last (by simp)
      · rcases List.mem_append.mp ha with hin | hin
        · exact hne a (List.mem_append_left _ hin)
        · obtain rfl := List.mem_singleton.mp hin
          exact (hne last (by simp)).trans_le (le_max_left _ _)
  · rw [heq]
    refine ⟨by rw [cover_append, cover_append, h.cover_eq], fun a ha ↦ ?_, fun hpos ↦ ?_⟩
    · rcases List.mem_append.mp ha with hin | hin
      · obtain ⟨b, hb, hab⟩ := h.starts a hin
        exact ⟨b, List.mem_append_left _ hb, hab⟩
      · exact ⟨a, List.mem_append_right _ hin, rfl⟩
    · obtain ⟨hsep, hne⟩ := h.separated fun b hb ↦ hpos b (List.mem_append_left _ hb)
      refine ⟨List.pairwise_append.mpr ⟨hsep, List.pairwise_singleton _ _, ?_⟩, fun a ha ↦ ?_⟩
      · intro a ha b hb
        obtain rfl := List.mem_singleton.mp hb
        rcases List.eq_nil_or_concat merged with rfl | ⟨before, last, rfl⟩
        · cases ha
        rw [List.concat_eq_append] at hlast hsep hne ha
        have hend : last.2 < b.1 := hlast last (by simp)
        rcases List.mem_append.mp ha with hin | hin
        · have hbefore := (List.pairwise_append.mp hsep).2.2 a hin last (by simp)
          exact hbefore.trans ((hne last (by simp)).trans hend)
        · obtain rfl := List.mem_singleton.mp hin
          exact hend
      · rcases List.mem_append.mp ha with hin | hin
        · exact hne a hin
        · exact hpos a (List.mem_append_right _ hin)

theorem Merging.foldl {ranges : List (α × α)} :
    ∀ {seen merged : List (α × α)}, Merging seen merged →
      (seen ++ ranges).Pairwise (fun a b ↦ a.1 ≤ b.1) →
      Merging (seen ++ ranges) (ranges.foldl mergeStep merged) := by
  induction ranges with
  | nil =>
      intro seen merged h _
      rwa [List.append_nil]
  | cons r ranges ih =>
      intro seen merged h hsorted
      have hr : ∀ b ∈ seen, b.1 ≤ r.1 := fun b hb ↦
        (List.pairwise_append.mp hsorted).2.2 b hb r List.mem_cons_self
      have hsplit : seen ++ r :: ranges = seen ++ [r] ++ ranges := by simp
      rw [hsplit] at hsorted ⊢
      exact ih (h.step hr) hsorted

theorem merging_merge {ranges : List (α × α)} (h : ranges.Pairwise fun a b ↦ a.1 ≤ b.1) :
    Merging ranges (merge ranges) := by
  have hstart : Merging ([] : List (α × α)) [] :=
    ⟨rfl, by simp, fun _ ↦ ⟨List.Pairwise.nil, by simp⟩⟩
  exact hstart.foldl h

/-- What is inside one interval is covered. -/
theorem Ico_subset_cover {ranges : List (α × α)} {r : α × α} (hr : r ∈ ranges) {lo hi : α}
    (hlo : r.1 ≤ lo) (hhi : hi ≤ r.2) : Set.Ico lo hi ⊆ cover ranges :=
  fun _ hx ↦ ⟨r, hr, hlo.trans hx.1, hx.2.trans_le hhi⟩

/-- A stretch that separated intervals cover is inside one of them. -/
theorem exists_of_Ico_subset_cover {ranges : List (α × α)} (hsep : Separated ranges)
    (hne : ∀ a ∈ ranges, a.1 < a.2) {lo hi : α} (hlt : lo < hi)
    (hcover : Set.Ico lo hi ⊆ cover ranges) : ∃ r ∈ ranges, r.1 ≤ lo ∧ hi ≤ r.2 := by
  obtain ⟨r, hr, hlo, hlo'⟩ := hcover ⟨le_rfl, hlt⟩
  refine ⟨r, hr, hlo, ?_⟩
  by_contra hhi
  obtain ⟨r', hr', hin, hin'⟩ := hcover ⟨hlo'.le, not_le.mp hhi⟩
  have hdiff : r' ≠ r := by
    rintro rfl
    exact lt_irrefl _ hin'
  -- the end of `r` is a point of `r'`, so neither of them stands before the other
  have hcases : r.2 < r'.1 ∨ r'.2 < r.1 := by
    obtain ⟨i, hi, rfl⟩ := List.getElem_of_mem hr
    obtain ⟨j, hj, rfl⟩ := List.getElem_of_mem hr'
    rcases lt_trichotomy i j with hij | rfl | hij
    · exact .inl (List.pairwise_iff_getElem.mp hsep i j hi hj hij)
    · exact absurd rfl hdiff
    · exact .inr (List.pairwise_iff_getElem.mp hsep j i hj hi hij)
  rcases hcases with hbefore | hafter
  · exact absurd hin (not_le.mpr hbefore)
  · exact lt_irrefl _ ((hne r hr).trans (hin'.trans hafter))

/-- A stretch is covered if and only if one of the merged intervals contains it. -/
theorem exists_mem_merge_iff {ranges : List (α × α)} (h : ranges.Pairwise fun a b ↦ a.1 ≤ b.1)
    (hne : ∀ a ∈ ranges, a.1 < a.2) {lo hi : α} (hlt : lo < hi) :
    (∃ r ∈ merge ranges, r.1 ≤ lo ∧ hi ≤ r.2) ↔ Set.Ico lo hi ⊆ cover ranges := by
  have hmerge := merging_merge h
  obtain ⟨hsep, hpos⟩ := hmerge.separated hne
  rw [← hmerge.cover_eq]
  refine ⟨fun ⟨r, hr, hlo, hhi⟩ ↦ Ico_subset_cover hr hlo hhi, fun hcover ↦ ?_⟩
  exact exists_of_Ico_subset_cover hsep hpos hlt hcover

end Intervals

end Bazalt.Lib
