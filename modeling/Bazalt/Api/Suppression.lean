import Bazalt.Lib.Intervals
import Bazalt.Model

/-!
# Raw records that the content view leaves out

A record of the raw stream is left out where HTTP records stand for all of its bytes.  The
ranges of the HTTP records are sorted and merged for each direction, and a raw record is
left out if one merged range contains its own.
-/

namespace Bazalt.Api

open Lib

/-- The views of the bytes that HTTP sent, as they were on the wire. -/
def isHttpWireView : ContentView → Bool
  | .httpRequestHeaders | .httpRequestBody | .httpResponseHeaders | .httpResponseBody => true
  | .tcpRaw | .httpRequestDecodedBody | .httpResponseDecodedBody => false

/-- The part of the stream of its direction that a record stands for. -/
def streamRange (r : ContentRecord) : ℕ × ℕ :=
  (r.streamOffset, satAdd r.streamOffset r.data.length)

/-- The ranges of the HTTP records, in the order of the records. -/
def coverage (records : List ContentRecord) : Direction → List (ℕ × ℕ) :=
  records.foldl (fun c r ↦
    if isHttpWireView r.view && !r.data.isEmpty then
      Function.update c r.direction (c r.direction ++ [streamRange r])
    else c) fun _ ↦ []

def mergedCoverage (byStart : UnstableSort fun range : ℕ × ℕ ↦ range.1)
    (records : List ContentRecord) (d : Direction) : List (ℕ × ℕ) :=
  Intervals.merge (byStart.sort (coverage records d))

def suppressRedundantTcpRaw (byStart : UnstableSort fun range : ℕ × ℕ ↦ range.1)
    (records : List ContentRecord) : List ContentRecord :=
  records.filter fun r ↦
    if r.view ≠ .tcpRaw || r.data.isEmpty then true
    else !(mergedCoverage byStart records r.direction).any fun covered ↦
      decide (covered.1 ≤ (streamRange r).1 ∧ (streamRange r).2 ≤ covered.2)

/-- Every byte of a raw record is a byte of an HTTP record of its direction. -/
def Redundant (records : List ContentRecord) (r : ContentRecord) : Prop :=
  r.view = .tcpRaw ∧ r.data ≠ [] ∧ ∀ x < r.streamOffset + r.data.length, r.streamOffset ≤ x →
    ∃ s ∈ records, s.direction = r.direction ∧ isHttpWireView s.view = true ∧ s.data ≠ [] ∧
      s.streamOffset ≤ x ∧ x < s.streamOffset + s.data.length

instance (records : List ContentRecord) (r : ContentRecord) : Decidable (Redundant records r) :=
  inferInstanceAs (Decidable (_ ∧ _ ∧ _))

/-! ## The ranges -/

/-- What the loop over the records adds to the ranges of a direction. -/
theorem foldl_coverage (records : List ContentRecord) (d : Direction) :
    ∀ c : Direction → List (ℕ × ℕ), (records.foldl (fun c r ↦
        if isHttpWireView r.view && !r.data.isEmpty then
          Function.update c r.direction (c r.direction ++ [streamRange r])
        else c) c) d =
      c d ++ (records.filter fun r ↦
        decide (r.direction = d) && (isHttpWireView r.view && !r.data.isEmpty)).map streamRange := by
  induction records with
  | nil =>
      intro c
      simp
  | cons r records ih =>
      intro c
      rw [List.foldl_cons, ih]
      by_cases hwire : (isHttpWireView r.view && !r.data.isEmpty) = true
      · rw [if_pos hwire]
        by_cases hd : r.direction = d
        · subst hd
          rw [Function.update_self, List.filter_cons_of_pos (by simp [hwire]), List.map_cons,
            List.append_assoc, List.singleton_append]
        · rw [Function.update_of_ne (Ne.symm hd), List.filter_cons_of_neg (by simp [hd])]
      · rw [if_neg hwire, List.filter_cons_of_neg (by simp [hwire])]

theorem mem_coverage {records : List ContentRecord} {d : Direction} {range : ℕ × ℕ} :
    range ∈ coverage records d ↔ ∃ s ∈ records, s.direction = d ∧ isHttpWireView s.view = true ∧
      s.data ≠ [] ∧ streamRange s = range := by
  rw [coverage, foldl_coverage, List.nil_append, List.mem_map]
  refine exists_congr fun s ↦ ?_
  simp only [List.mem_filter, Bool.and_eq_true, decide_eq_true_eq, Bool.not_eq_true',
    List.isEmpty_eq_false_iff, and_assoc]

/-- A position is covered by the HTTP records of a direction. -/
theorem mem_cover_coverage {records : List ContentRecord} {d : Direction} {x : ℕ} :
    x ∈ Intervals.cover (coverage records d) ↔ ∃ s ∈ records, s.direction = d ∧
      isHttpWireView s.view = true ∧ s.data ≠ [] ∧ s.streamOffset ≤ x ∧
        x < satAdd s.streamOffset s.data.length := by
  refine ⟨fun ⟨range, hrange, hx, hx'⟩ ↦ ?_, fun ⟨s, hs, hd, hwire, hdata, hx, hx'⟩ ↦ ?_⟩
  · obtain ⟨s, hs, hd, hwire, hdata, rfl⟩ := mem_coverage.mp hrange
    exact ⟨s, hs, hd, hwire, hdata, hx, hx'⟩
  · exact ⟨_, mem_coverage.mpr ⟨s, hs, hd, hwire, hdata, rfl⟩, hx, hx'⟩

section

variable {byStart : UnstableSort fun range : ℕ × ℕ ↦ range.1} {records : List ContentRecord}
  {r : ContentRecord}

/-- Which records are kept. -/
theorem mem_suppressRedundantTcpRaw : r ∈ suppressRedundantTcpRaw byStart records ↔
    r ∈ records ∧ (r.view = .tcpRaw → r.data ≠ [] →
      ∀ covered ∈ mergedCoverage byStart records r.direction,
        covered.1 ≤ (streamRange r).1 → ¬ (streamRange r).2 ≤ covered.2) := by
  rw [suppressRedundantTcpRaw, List.mem_filter]
  refine and_congr_right fun _ ↦ ?_
  by_cases hview : r.view = .tcpRaw
  · by_cases hdata : r.data = []
    · simp [hview, hdata]
    · simp [hview, hdata]
  · simp [hview]

/-- Where a raw record is left out, HTTP records of its direction stand for its bytes. -/
theorem covered_of_suppressed (hr : r ∈ records)
    (hout : r ∉ suppressRedundantTcpRaw byStart records) :
    r.view = .tcpRaw ∧ r.data ≠ [] ∧
      Set.Ico (streamRange r).1 (streamRange r).2 ⊆
        Intervals.cover (coverage records r.direction) := by
  rw [mem_suppressRedundantTcpRaw] at hout
  push Not at hout
  obtain ⟨hview, hdata, covered, hcovered, hlo, hhi⟩ := hout hr
  have hmerge := Intervals.merging_merge (byStart.sorted (coverage records r.direction))
  have hsub := Intervals.Ico_subset_cover hcovered hlo hhi
  rw [mergedCoverage, hmerge.cover_eq, Intervals.cover_perm (byStart.perm _)] at hsub
  exact ⟨hview, hdata, hsub⟩

/-- The end of a range that fits. -/
theorem streamRange_of_lt (h : r.streamOffset + r.data.length < 2 ^ 64) :
    streamRange r = (r.streamOffset, r.streamOffset + r.data.length) := by
  rw [streamRange, satAdd_of_le (by unfold u64Max; omega)]

theorem redundant_iff_subset_cover
    (hbound : ∀ r ∈ records, r.streamOffset + r.data.length < 2 ^ 64) (hr : r ∈ records)
    (hview : r.view = .tcpRaw) (hdata : r.data ≠ []) :
    Redundant records r ↔ Set.Ico (streamRange r).1 (streamRange r).2 ⊆
      Intervals.cover (coverage records r.direction) := by
  rw [streamRange_of_lt (hbound r hr)]
  have hend : ∀ s ∈ records, satAdd s.streamOffset s.data.length =
      s.streamOffset + s.data.length := fun s hs ↦ by
    have hlt := hbound s hs
    exact satAdd_of_le (by unfold u64Max; omega)
  refine ⟨fun ⟨_, _, hall⟩ x hx ↦ ?_, fun hsub ↦ ⟨hview, hdata, fun x hx hx' ↦ ?_⟩⟩
  · obtain ⟨s, hs, hd, hwire, hsdata, hle, hlt⟩ := hall x hx.2 hx.1
    exact mem_cover_coverage.mpr ⟨s, hs, hd, hwire, hsdata, hle, by rwa [hend s hs]⟩
  · obtain ⟨s, hs, hd, hwire, hsdata, hle, hlt⟩ := mem_cover_coverage.mp (hsub ⟨hx', hx⟩)
    rw [hend s hs] at hlt
    exact ⟨s, hs, hd, hwire, hsdata, hle, hlt⟩

theorem coverage_pos (hbound : ∀ r ∈ records, r.streamOffset + r.data.length < 2 ^ 64)
    {d : Direction} {range : ℕ × ℕ} (h : range ∈ coverage records d) : range.1 < range.2 := by
  obtain ⟨s, hs, -, -, hdata, rfl⟩ := mem_coverage.mp h
  have hpos : 0 < s.data.length := List.length_pos_iff.mpr hdata
  rw [streamRange_of_lt (hbound s hs)]
  dsimp only
  omega

/-- The content view leaves out the redundant records and no other. -/
theorem suppressRedundantTcpRaw_eq_filter
    (byStart : UnstableSort fun range : ℕ × ℕ ↦ range.1) (records : List ContentRecord)
    (hbound : ∀ r ∈ records, r.streamOffset + r.data.length < 2 ^ 64) :
    suppressRedundantTcpRaw byStart records =
      records.filter fun r ↦ decide (¬ Redundant records r) := by
  refine List.filter_congr fun r hr ↦ ?_
  by_cases hview : r.view = .tcpRaw
  · by_cases hdata : r.data = []
    · simp [Redundant, hdata]
    · have hpos : 0 < r.data.length := List.length_pos_iff.mpr hdata
      have hrange : (streamRange r).1 < (streamRange r).2 := by
        rw [streamRange_of_lt (hbound r hr)]
        dsimp only
        omega
      have hiff := Intervals.exists_mem_merge_iff (byStart.sorted (coverage records r.direction))
        (fun range hin ↦ coverage_pos hbound ((byStart.perm _).mem_iff.mp hin)) hrange
      rw [Intervals.cover_perm (byStart.perm _),
        ← redundant_iff_subset_cover hbound hr hview hdata] at hiff
      rw [if_neg (by simp [hview, hdata]), Bool.eq_iff_iff, decide_eq_true_eq, Bool.not_eq_true',
        ← Bool.not_eq_true, List.any_eq_true, ← hiff]
      simp only [decide_eq_true_eq, mergedCoverage]
  · simp [Redundant, hview]

/-- Two HTTP records that touch stand for a raw record across their border. -/
def requestView : List ContentRecord :=
  [⟨1, 9, 0, none, .aToB, .tcpRaw, 2, [3, 4, 5]⟩,
    ⟨2, 9, 0, none, .aToB, .httpRequestBody, 4, [5, 6]⟩,
    ⟨3, 9, 0, none, .bToA, .tcpRaw, 2, [3, 4, 5]⟩,
    ⟨4, 9, 0, none, .aToB, .httpRequestHeaders, 0, [1, 2, 3, 4]⟩,
    ⟨5, 9, 0, none, .aToB, .tcpRaw, 5, [6, 7]⟩]

theorem suppressRedundantTcpRaw_requestView :
    (suppressRedundantTcpRaw (.insertion _) requestView).map ContentRecord.id = [2, 3, 4, 5] := by
  rw [suppressRedundantTcpRaw_eq_filter (.insertion _) requestView (by decide)]
  decide

end

end Bazalt.Api
