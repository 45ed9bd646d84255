import Bazalt.Lib.Table
import Bazalt.Matching.Activation
import Bazalt.Matching.Tails

/-!
# Live matching

The ingress hands on the records that the active patterns are interested in, each with the
set and the generation that it was admitted with.  A worker scans the records of its flows
with the tails of their streams.  It drops the tails of a flow when the flow is closed or
has not been seen for two minutes.
-/

namespace Bazalt.Matching

open Bazalt.Lib

structure MatcherIngress where
  shards : ℕ
  interestMask : UInt64
  active : CompiledPatternSet
  generation : ℕ
  deriving DecidableEq

def MatcherIngress.prepareContent (m : MatcherIngress) (record : ContentRecord) : Option Work :=
  if m.interestMask &&& contentViewBit record.view == 0 then none
  else if m.active.isInterested record then some ⟨record, m.active, m.generation⟩
  else none

/-- A mask of the set lets every record through that the set is interested in. -/
theorem MatcherIngress.prepareContent_eq {m : MatcherIngress}
    (hmask : m.interestMask = m.active.interestMask) (record : ContentRecord) :
    m.prepareContent record =
      if m.active.isInterested record then some ⟨record, m.active, m.generation⟩ else none := by
  unfold prepareContent
  split_ifs with hbit hinterested
  · -- a group of the record's view would have set the bit
    have hview : record.view ∈ m.active.globalGroups.map Prod.fst ++
        m.active.serviceGroups.map (fun e ↦ e.1.2) := by
      rcases Bool.or_eq_true_iff.mp hinterested with hglobal | hservice
      · exact List.mem_append_left _ (mem_keys_of_lookup hglobal)
      · obtain ⟨group, hgroup⟩ := Option.isSome_iff_exists.mp hservice
        obtain ⟨name, -, hlookup⟩ := Option.bind_eq_some_iff.mp hgroup
        have hkey := mem_keys_of_lookup (Option.isSome_of_eq_some hlookup)
        obtain ⟨e, he, heq⟩ := List.mem_map.mp hkey
        exact List.mem_append_right _ (List.mem_map.mpr ⟨e, he, by rw [heq]⟩)
    have hset := (and_foldl_viewBit _ 0 record.view).mpr (.inr hview)
    rw [hmask] at hbit
    exact absurd (eq_of_beq hbit) hset
  all_goals rfl

structure MatcherWorker where
  tails : Tails := fun _ ↦ none
  flowTailKeys : Lib.Table Uuid (List StreamKey) := ∅
  flowLastSeen : Lib.Table Uuid ℕ := ∅
  processedRecords : ℕ := 0
  overlapLimit : ℕ
  bounds : Bounds

namespace MatcherWorker

def flowClosed (m : MatcherWorker) (id : Uuid) : MatcherWorker :=
  { m with
    tails := fun key ↦ if key ∈ (m.flowTailKeys.lookup id).getD [] then none else m.tails key
    flowTailKeys := m.flowTailKeys.erase id
    flowLastSeen := m.flowLastSeen.erase id }

/-- The flows that were last seen two minutes ago or earlier. -/
def stale (m : MatcherWorker) (now : ℕ) : List Uuid :=
  (m.flowLastSeen.entries.filter fun e ↦ decide (120000000000 ≤ now - e.2)).map Sigma.fst

def note (m : MatcherWorker) (flowId : Uuid) (seen : ℕ) : MatcherWorker :=
  { m with
    flowLastSeen := m.flowLastSeen.insert flowId seen
    processedRecords := (m.processedRecords + 1) % 2 ^ 64 }

def expire (m : MatcherWorker) (now : ℕ) : MatcherWorker :=
  if m.processedRecords % 4096 = 0 then (m.stale now).foldl flowClosed m else m

def track (m : MatcherWorker) (key : StreamKey) : MatcherWorker :=
  let keys := (m.flowTailKeys.lookup key.flowId).getD []
  if key ∈ keys then m
  else { m with flowTailKeys := m.flowTailKeys.insert key.flowId (keys ++ [key]) }

/-- A record is seen and handled; the two readings of the clock are arguments. -/
def content (E : Engines) (m : MatcherWorker) (work : Work) (seen now : ℕ) :
    MatcherWorker × Scan :=
  let m := (m.note work.record.flowId seen).expire now
  let key := streamKey work.record
  let r := scanWithTail E work.snapshot m.overlapLimit m.bounds false work.generation m.tails
    work.record
  let keeps := work.snapshot.isInterested work.record &&
    decide (work.snapshot.requiredOverlap work.record m.overlapLimit ≠ 0)
  (if keeps && (m.tails key).isNone then { m with tails := r.1 }.track key
    else { m with tails := r.1 }, r.2)

/-- No flow is dropped for its age when the record comes. -/
def Fresh (m : MatcherWorker) (work : Work) (seen now : ℕ) : Prop :=
  (m.note work.record.flowId seen).processedRecords % 4096 = 0 →
    (m.note work.record.flowId seen).stale now = []

/-- Without expiry a record is scanned with the tails that are there. -/
theorem content_of_fresh {E : Engines} {m : MatcherWorker} {work : Work} {seen now : ℕ}
    (h : m.Fresh work seen now) :
    (m.content E work seen now).1.tails = (scanWithTail E work.snapshot m.overlapLimit m.bounds
        false work.generation m.tails work.record).1 ∧
      (m.content E work seen now).2 = (scanWithTail E work.snapshot m.overlapLimit m.bounds
        false work.generation m.tails work.record).2 ∧
      (m.content E work seen now).1.overlapLimit = m.overlapLimit ∧
      (m.content E work seen now).1.bounds = m.bounds := by
  have hexpire : (m.note work.record.flowId seen).expire now =
      m.note work.record.flowId seen := by
    unfold expire
    split_ifs with hdue
    · rw [h hdue]
      rfl
    · rfl
  unfold content track
  rw [hexpire]
  dsimp only
  split_ifs <;> exact ⟨rfl, rfl, rfl, rfl⟩

end MatcherWorker

/-! ## The historical flag -/

def MatchRecord.replayed (hit : MatchRecord) : MatchRecord := { hit with historical := true }

/-- The scan with its hits marked as historical. -/
def Scan.replayed (s : Scan) : Scan := { s with out := s.out.map MatchRecord.replayed }

namespace Scan

@[simp] theorem exhausted_replayed (s : Scan) (b : Bounds) :
    s.replayed.exhausted b = s.exhausted b := rfl

theorem push_replayed (s : Scan) (b : Bounds) (p : PatternRevision) (hit : MatchRecord) :
    s.replayed.push b p hit.replayed = (s.push b p hit).replayed := by
  unfold push
  rw [exhausted_replayed]
  by_cases hfull : s.exhausted b
  · rw [if_pos hfull, if_pos hfull]
    rfl
  · rw [if_neg hfull, if_neg hfull]
    dsimp only [replayed]
    by_cases hshare : ∃ n ∈ b.maxPerPattern, n ≤ s.perPattern (p.id, p.revision)
    · rw [if_pos hshare, if_pos hshare]
      rfl
    · rw [if_neg hshare, if_neg hshare]
      simp

theorem each_replayed {M : Type} {b : Bounds}
    {keep keep' : M → Option (PatternRevision × MatchRecord)}
    (hkeep : ∀ m, keep' m = (keep m).map fun h ↦ (h.1, h.2.replayed)) (ms : List M) (s : Scan) :
    each b keep' ms s.replayed = ((each b keep ms s).1.replayed, (each b keep ms s).2) := by
  induction ms generalizing s with
  | nil => rfl
  | cons m ms ih =>
      unfold each
      rw [exhausted_replayed, hkeep]
      split_ifs
      · rfl
      · cases keep m with
        | none => exact ih s
        | some h =>
            dsimp only [Option.map_some]
            rw [push_replayed]
            exact ih _

end Scan

namespace CompiledGroup

variable {E : Engines} {b : Bounds} {record : ContentRecord} {tail : Bytes}

theorem scanLiterals_replayed (g : CompiledGroup) (s : Scan) :
    g.scanLiterals E b record tail true s.replayed =
      ((g.scanLiterals E b record tail false s).1.replayed,
        (g.scanLiterals E b record tail false s).2) := by
  have hbridge : g.scanBridge E b record tail true s.replayed =
      ((g.scanBridge E b record tail false s).1.replayed,
        (g.scanBridge E b record tail false s).2) := by
    unfold scanBridge
    dsimp only
    split_ifs
    · refine Scan.each_replayed (fun m ↦ ?_) _ s
      unfold keepBridge
      cases g.literalMeta[m.word]? with
      | none => rfl
      | some p =>
          dsimp only [Option.bind_some]
          split_ifs <;> rfl
    · rfl
  unfold scanLiterals
  split_ifs
  · rfl
  · rw [hbridge]
    rcases g.scanBridge E b record tail false s with ⟨s', _ | _⟩
    · rfl
    · refine Scan.each_replayed (fun m ↦ ?_) _ s'
      unfold keepData
      cases g.literalMeta[m.word]? <;> rfl

theorem scanRegexes_replayed {combined : Bytes} {base : ℕ} {boundary : Option ℕ}
    (matched : List (String × PatternRevision)) (s : Scan) :
    scanRegexes E b record true combined base boundary matched s.replayed =
      (scanRegexes E b record false combined base boundary matched s).replayed := by
  induction matched generalizing s with
  | nil => rfl
  | cons entry matched ih =>
      obtain ⟨re, p⟩ := entry
      have hkeep : ∀ m, keepRegex record true base boundary p m =
          (keepRegex record false base boundary p m).map fun h ↦ (h.1, h.2.replayed) := by
        intro m
        unfold keepRegex
        split_ifs <;> rfl
      have heach := Scan.each_replayed (b := b) hkeep (E.regexFindIter re combined) s
      unfold scanRegexes
      rw [Scan.exhausted_replayed, heach]
      split_ifs
      · rfl
      · rcases Scan.each b (keepRegex record false base boundary p)
          (E.regexFindIter re combined) s with ⟨s', _ | _⟩
        · rfl
        · exact ih s'

theorem scanInto_replayed (g : CompiledGroup) (s : Scan) :
    g.scanInto E b record tail true s.replayed =
      (g.scanInto E b record tail false s).replayed := by
  unfold scanInto
  rw [scanLiterals_replayed]
  rcases g.scanLiterals E b record tail false s with ⟨s', _ | _⟩
  · rfl
  · dsimp only
    rw [Scan.exhausted_replayed]
    split_ifs
    · rfl
    · rfl
    all_goals exact scanRegexes_replayed _ s'

end CompiledGroup

/-- The flag is all that the scan of a replay differs in. -/
theorem CompiledPatternSet.scanBounded_replayed (E : Engines) (set : CompiledPatternSet)
    (record : ContentRecord) (tail : Bytes) (b : Bounds) :
    set.scanBounded E record tail true b = (set.scanBounded E record tail false b).replayed := by
  have hnext : ∀ (group : CompiledGroup) (s : Scan),
      (if s.replayed.exhausted b then s.replayed.markLimited
        else group.scanInto E b record tail true s.replayed) =
      (if s.exhausted b then s.markLimited
        else group.scanInto E b record tail false s).replayed := by
    intro group s
    rw [Scan.exhausted_replayed]
    split_ifs
    · rfl
    · exact group.scanInto_replayed s
  unfold scanBounded
  cases (set.groupsFor record).1 with
  | none =>
      cases (set.groupsFor record).2 with
      | none => rfl
      | some group' => exact hnext group' {}
  | some group =>
      have hfirst : group.scanInto E b record tail true {} = _ := group.scanInto_replayed {}
      dsimp only
      rw [hfirst]
      cases (set.groupsFor record).2 with
      | none => rfl
      | some group' => exact hnext group' _

end Bazalt.Matching
