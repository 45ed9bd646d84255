import Bazalt.Matching.Masking

/-!
# Stream tails

A literal can lie across two records of a stream.  Live matching and replay keep, for each
stream, the last bytes of the records they have scanned, and scan the next record with
them if it continues the stream.
-/

namespace Bazalt.Matching

open Lib

/-- A stream: one direction and view of a flow. -/
structure StreamKey where
  flowId : Uuid
  direction : Direction
  view : ContentView
  deriving DecidableEq, Repr

def streamKey (record : ContentRecord) : StreamKey :=
  ⟨record.flowId, record.direction, record.view⟩

structure TailState where
  data : Bytes
  endOffset : ℕ
  generation : ℕ
  deriving DecidableEq, Repr

/-- The tail serves a record that goes on where it ends, in the same generation. -/
def TailState.prefixFor (t : TailState) (record : ContentRecord) (generation : ℕ) : Bytes :=
  if t.generation = generation ∧ t.endOffset = record.streamOffset then t.data else []

def buildTail (previous data : Bytes) (keep : ℕ) : Bytes :=
  if keep = 0 then []
  else if keep ≤ data.length then data.drop (data.length - keep)
  else
    let previousKeep := min (keep - data.length) previous.length
    previous.drop (previous.length - previousKeep) ++ data

abbrev Tails := StreamKey → Option TailState

/-- The bytes that a record is scanned with. -/
def Tails.prefixFor (tails : Tails) (record : ContentRecord) (generation : ℕ) : Bytes :=
  ((tails (streamKey record)).map fun t ↦ t.prefixFor record generation).getD []

/-- What live matching and replay do with a record: it is scanned with the tail of its
stream, and leaves a new tail. -/
def scanWithTail (E : Engines) (set : CompiledPatternSet) (overlapLimit : ℕ) (b : Bounds)
    (historical : Bool) (generation : ℕ) (tails : Tails) (record : ContentRecord) :
    Tails × Scan :=
  if set.isInterested record then
    let keep := set.requiredOverlap record overlapLimit
    let tail := tails.prefixFor record generation
    let next : Option TailState :=
      if keep = 0 then none
      else some ⟨buildTail tail record.data keep,
        satAdd record.streamOffset record.data.length, generation⟩
    (Function.update tails (streamKey record) next,
      set.scanBounded E record tail historical b)
  else (Function.update tails (streamKey record) none, {})

/-! ## Tails and what they hold -/

theorem suffix_buildTail {previous data : Bytes} {keep n : ℕ} (hkeep : n ≤ keep)
    (hdata : n ≤ data.length) : data.drop (data.length - n) <:+ buildTail previous data keep := by
  unfold buildTail
  split_ifs with hzero hlong
  · obtain rfl : n = 0 := by omega
    simp
  · have hsplit : data.drop (data.length - n) =
        (data.drop (data.length - keep)).drop (keep - n) := by
      rw [List.drop_drop]
      congr 1
      omega
    rw [hsplit]
    exact List.drop_suffix _ _
  · exact (List.drop_suffix _ _).trans (List.suffix_append _ _)

theorem prefixFor_congr {tails tails' : Tails} {record : ContentRecord} {generation : ℕ}
    (h : tails (streamKey record) = tails' (streamKey record)) :
    tails.prefixFor record generation = tails'.prefixFor record generation := by
  rw [Tails.prefixFor, Tails.prefixFor, h]

section

variable {E : Engines} {set : CompiledPatternSet} {overlapLimit : ℕ} {b : Bounds}
  {historical : Bool} {generation : ℕ} {tails tails' : Tails} {record : ContentRecord}

/-- Only the tail of the record's stream is read and written. -/
theorem scanWithTail_of_ne {key : StreamKey} (h : key ≠ streamKey record) :
    (scanWithTail E set overlapLimit b historical generation tails record).1 key = tails key := by
  unfold scanWithTail
  split_ifs <;> exact Function.update_of_ne h _ _

theorem scanWithTail_congr
    (h : tails.prefixFor record generation = tails'.prefixFor record generation) :
    (scanWithTail E set overlapLimit b historical generation tails record).1 (streamKey record) =
        (scanWithTail E set overlapLimit b historical generation tails' record).1
          (streamKey record) ∧
      (scanWithTail E set overlapLimit b historical generation tails record).2 =
        (scanWithTail E set overlapLimit b historical generation tails' record).2 := by
  unfold scanWithTail
  split_ifs
  · simp only [h, Function.update_self, and_self]
  · simp only [Function.update_self, and_self]

/-- A tail ends where the last record of its stream ended. -/
theorem endOffset_scanWithTail {t : TailState}
    (h : (scanWithTail E set overlapLimit b historical generation tails record).1
      (streamKey record) = some t) :
    t.endOffset = satAdd record.streamOffset record.data.length := by
  unfold scanWithTail at h
  split_ifs at h
  · simp only [Function.update_self] at h
    split_ifs at h
    obtain rfl := Option.some.inj h
    rfl
  · simp at h

end

/-! ## Hits over the start of a record -/

namespace CompiledGroup

variable {E : Engines} {g : CompiledGroup} {record : ContentRecord} {tail : Bytes}

/-- The text that is searched over the start of a record. -/
def bridge (g : CompiledGroup) (record : ContentRecord) (tail : Bytes) : Bytes :=
  tail.drop (tail.length - (g.maxLiteralLen - 1)) ++
    record.data.take (min (g.maxLiteralLen - 1) record.data.length)

/-- A literal that lies across the start of the record is found, unless another occurrence
overlaps it. -/
theorem mem_bridgeHits (hE : E.Standard) (hne : ∀ w ∈ g.literals, w ≠ []) (historical : Bool)
    {i : ℕ} {p : PatternRevision} {u v : Bytes} (hi : g.literalMeta[i]? = some p)
    (hbytes : g.literals[i]? = some (u ++ v)) (hu : u ≠ []) (hv : v ≠ []) (htail : u <:+ tail)
    (hdata : v <+: record.data) (hlen : (u ++ v).length ≤ g.maxLiteralLen)
    (hoff : tail.length ≤ record.streamOffset)
    (halone : ∀ j w t, g.literals[j]? = some w → OccursAt w (g.bridge record tail) t →
      t < (tail.drop (tail.length - (g.maxLiteralLen - 1))).length + v.length →
      (tail.drop (tail.length - (g.maxLiteralLen - 1))).length - u.length < t + w.length →
      j = i ∧ t = (tail.drop (tail.length - (g.maxLiteralLen - 1))).length - u.length) :
    matchRecord p record (record.streamOffset - u.length) (record.streamOffset + v.length)
      historical ∈ bridgeHits E g record tail historical := by
  have hu0 := List.length_pos_iff.mpr hu
  have hv0 := List.length_pos_iff.mpr hv
  have hvlen := hdata.length_le
  have hulen := htail.length_le
  rw [List.length_append] at hlen
  set head := tail.drop (tail.length - (g.maxLiteralLen - 1)) with hhead
  have hheadlen : head.length = min tail.length (g.maxLiteralLen - 1) := by
    rw [hhead, List.length_drop]
    omega
  -- both halves of the literal are in the text
  have hleft : u <:+ head := by
    refine List.suffix_of_suffix_length_le htail (List.drop_suffix _ _) ?_
    omega
  have hright : v <+: record.data.take (min (g.maxLiteralLen - 1) record.data.length) := by
    refine List.prefix_of_prefix_length_le hdata (List.take_prefix _ _) ?_
    rw [List.length_take]
    omega
  have hocc : OccursAt (u ++ v) (g.bridge record tail) (head.length - u.length) := by
    obtain ⟨front, hfront⟩ := hleft
    obtain ⟨rest, hrest⟩ := hright
    have hstart : head.length - u.length = front.length := by
      rw [← hfront, List.length_append]
      omega
    rw [OccursAt, bridge, ← hhead, hstart, ← hfront, ← hrest, List.append_assoc, List.drop_left]
    exact ⟨rest, by simp⟩
  obtain ⟨next, hnext, hiter⟩ := hE g.literals hne (g.bridge record tail)
  have hmem := mem_hitsFrom_of_alone hne hnext hbytes hocc
    (fun j w t hw ht h₁ h₂ ↦ halone j w t hw ht (by rw [List.length_append] at h₁; omega) h₂)
    ((g.bridge record tail).length + 1) 0 (Nat.zero_le _) (by omega)
  rw [← hiter] at hmem
  have htail0 : tail ≠ [] := by
    rintro rfl
    exact hu (List.suffix_nil.mp htail)
  have hcond : (!tail.isEmpty && decide (1 < g.maxLiteralLen)) = true := by
    simp only [Bool.and_eq_true, Bool.not_eq_true', List.isEmpty_eq_false_iff, decide_eq_true_eq]
    exact ⟨htail0, by omega⟩
  rw [bridgeHits, if_pos hcond]
  refine List.mem_map.mpr ⟨(p, _), List.mem_filterMap.mpr ⟨_, hmem, ?_⟩, rfl⟩
  have hstart : record.streamOffset - head.length + (head.length - u.length) =
      record.streamOffset - u.length := by omega
  have hfinish : record.streamOffset - head.length + (head.length - u.length + (u ++ v).length) =
      record.streamOffset + v.length := by
    rw [List.length_append]
    omega
  simp only [keepBridge, hi, Option.bind_some, ← hhead, hstart, hfinish]
  rw [if_pos ⟨by omega, by omega⟩]
  rfl

end CompiledGroup

end Bazalt.Matching
