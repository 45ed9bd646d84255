import Bazalt.Lib.Run
import Bazalt.Matching.Tails

/-!
# Replay

A replay job scans segments from the oldest on.  Every record goes to the worker of its
flow, and each worker has a scanner of its own with the tails of its streams.  As long as
no tail expires, the workers together do what one scanner would do.
-/

namespace Bazalt.Replay

open Lib Matching

structure ReplayScanner where
  patterns : CompiledPatternSet
  tails : Tails := fun _ ↦ none
  lastSeenNs : StreamKey → Option ℕ := fun _ ↦ none
  overlapLimit : ℕ
  bounds : Bounds
  scannedRecords : ℕ := 0

namespace ReplayScanner

def new (E : Engines) (patterns : List PatternRevision) (overlapLimit : ℕ) (bounds : Bounds) :
    Option ReplayScanner :=
  (CompiledPatternSet.compile E patterns).map fun set ↦ { patterns := set, overlapLimit, bounds }

/-- Streams that were last seen more than five minutes before the record are dropped. -/
def sweep (sc : ReplayScanner) (record : ContentRecord) : ReplayScanner :=
  let cutoff := record.tsNs - 300000000000
  let stale (key : StreamKey) : Bool := (sc.lastSeenNs key).any fun ts ↦ decide (ts < cutoff)
  { sc with
    tails := fun key ↦ if stale key then none else sc.tails key
    lastSeenNs := fun key ↦ if stale key then none else sc.lastSeenNs key }

def scanRecord (E : Engines) (sc : ReplayScanner) (record : ContentRecord) :
    ReplayScanner × Scan :=
  let r := scanWithTail E sc.patterns sc.overlapLimit sc.bounds true 0 sc.tails record
  if sc.patterns.isInterested record then
    let next := { sc with
      tails := r.1
      lastSeenNs := Function.update sc.lastSeenNs (streamKey record) (some record.tsNs)
      scannedRecords := (sc.scannedRecords + 1) % 2 ^ 64 }
    (if next.scannedRecords % 4096 = 0 then next.sweep record else next, r.2)
  else
    ({ sc with
        tails := r.1
        lastSeenNs := Function.update sc.lastSeenNs (streamKey record) none }, r.2)

/-- The record makes no tail expire. -/
def Keeps (E : Engines) (sc : ReplayScanner) (record : ContentRecord) : Prop :=
  (sc.scanRecord E record).1.tails =
    (scanWithTail E sc.patterns sc.overlapLimit sc.bounds true 0 sc.tails record).1

theorem scanRecord_snd (E : Engines) (sc : ReplayScanner) (record : ContentRecord) :
    (sc.scanRecord E record).2 =
      (scanWithTail E sc.patterns sc.overlapLimit sc.bounds true 0 sc.tails record).2 := by
  unfold scanRecord
  simp only
  split_ifs <;> rfl

theorem scanRecord_config (E : Engines) (sc : ReplayScanner) (record : ContentRecord) :
    (sc.scanRecord E record).1.patterns = sc.patterns ∧
      (sc.scanRecord E record).1.overlapLimit = sc.overlapLimit ∧
      (sc.scanRecord E record).1.bounds = sc.bounds := by
  unfold scanRecord
  simp only
  split_ifs <;> exact ⟨rfl, rfl, rfl⟩

end ReplayScanner

/-! ## Workers -/

def workerOf (n : ℕ) (flowId : Uuid) : ℕ := flowId.toNat % 2 ^ 64 % n

/-- The scanners of the workers. -/
abbrev Scanners := ℕ → ReplayScanner

namespace Scanners

variable (E : Engines) (n : ℕ)

def dispatch (scanners : Scanners) (record : ContentRecord) : Scanners × List MatchRecord :=
  let r := (scanners (workerOf n record.flowId)).scanRecord E record
  (Function.update scanners (workerOf n record.flowId) r.1, r.2.out)

def after (scanners : Scanners) (records : List ContentRecord) : Scanners :=
  runFrom (fun scanners record ↦ (scanners.dispatch E n record).1) scanners records

def hits (scanners : Scanners) : List ContentRecord → List MatchRecord
  | [] => []
  | record :: records =>
      (scanners.dispatch E n record).2 ++ hits (scanners.dispatch E n record).1 records

/-- No record of the run makes a tail expire. -/
def NoExpiry (scanners : Scanners) (records : List ContentRecord) : Prop :=
  Along (fun scanners record ↦ (dispatch E n scanners record).1)
    (fun scanners record ↦ (scanners (workerOf n record.flowId)).Keeps E record) scanners records

/-- The tail of a stream is with the worker of its flow. -/
def tails (scanners : Scanners) : Tails := fun key ↦ (scanners (workerOf n key.flowId)).tails key

/-- All workers scan for the same patterns. -/
def Alike (set : CompiledPatternSet) (overlapLimit : ℕ) (b : Bounds) (scanners : Scanners) : Prop :=
  ∀ i, (scanners i).patterns = set ∧ (scanners i).overlapLimit = overlapLimit ∧
    (scanners i).bounds = b

end Scanners

theorem Scanners.hits_append (E : Engines) (n : ℕ) (scanners : Scanners)
    (as bs : List ContentRecord) : scanners.hits E n (as ++ bs) =
      scanners.hits E n as ++ (scanners.after E n as).hits E n bs := by
  induction as generalizing scanners with
  | nil => rfl
  | cons record as ih =>
      rw [List.cons_append, hits, ih, hits, List.append_assoc]
      rfl

/-- The hits of one scanner without expiry. -/
def tailHits (E : Engines) (set : CompiledPatternSet) (overlapLimit : ℕ) (b : Bounds)
    (tails : Tails) : List ContentRecord → List MatchRecord
  | [] => []
  | record :: records =>
      (scanWithTail E set overlapLimit b true 0 tails record).2.out ++
        tailHits E set overlapLimit b (scanWithTail E set overlapLimit b true 0 tails record).1
          records

/-- The tails of one scanner without expiry. -/
def tailsAfter (E : Engines) (set : CompiledPatternSet) (overlapLimit : ℕ) (b : Bounds)
    (tails : Tails) (records : List ContentRecord) : Tails :=
  runFrom (fun tails record ↦ (scanWithTail E set overlapLimit b true 0 tails record).1) tails
    records

section

variable {E : Engines} {n : ℕ} {set : CompiledPatternSet} {overlapLimit : ℕ} {b : Bounds}
  {scanners : Scanners}

theorem tailHits_append (tails : Tails) (as bs : List ContentRecord) :
    tailHits E set overlapLimit b tails (as ++ bs) = tailHits E set overlapLimit b tails as ++
      tailHits E set overlapLimit b (tailsAfter E set overlapLimit b tails as) bs := by
  induction as generalizing tails with
  | nil => rfl
  | cons record as ih =>
      rw [List.cons_append, tailHits, ih, tailHits, List.append_assoc]
      rfl

namespace Scanners

theorem Alike.dispatch (h : scanners.Alike set overlapLimit b) (record : ContentRecord) :
    (scanners.dispatch E n record).1.Alike set overlapLimit b := by
  intro i
  by_cases hi : i = workerOf n record.flowId
  · subst hi
    simp only [Scanners.dispatch, Function.update_self]
    obtain ⟨h₁, h₂, h₃⟩ :=
      (scanners (workerOf n record.flowId)).scanRecord_config E record
    rw [h₁, h₂, h₃]
    exact h _
  · simp only [Scanners.dispatch, Function.update_of_ne hi]
    exact h i

/-- One record: the worker of its flow does what the one scanner does. -/
theorem dispatch_spec (h : scanners.Alike set overlapLimit b) {record : ContentRecord}
    (hkeep : (scanners (workerOf n record.flowId)).Keeps E record) :
    (scanners.dispatch E n record).2 =
        (scanWithTail E set overlapLimit b true 0 (scanners.tails n) record).2.out ∧
      (scanners.dispatch E n record).1.tails n =
        (scanWithTail E set overlapLimit b true 0 (scanners.tails n) record).1 := by
  obtain ⟨h₁, h₂, h₃⟩ := h (workerOf n record.flowId)
  have hout := (scanners (workerOf n record.flowId)).scanRecord_snd E record
  rw [ReplayScanner.Keeps, h₁, h₂, h₃] at hkeep
  rw [h₁, h₂, h₃] at hout
  -- the two scanners agree on the stream of the record
  have hpre : (scanners (workerOf n record.flowId)).tails.prefixFor record 0 =
      (scanners.tails n).prefixFor record 0 := prefixFor_congr rfl
  have hkey : (scanWithTail E set overlapLimit b true 0 (scanners (workerOf n record.flowId)).tails
      record).1 (streamKey record) = (scanWithTail E set overlapLimit b true 0 (scanners.tails n)
        record).1 (streamKey record) := (scanWithTail_congr hpre).1
  have hscan : (scanWithTail E set overlapLimit b true 0 (scanners (workerOf n record.flowId)).tails
      record).2 = (scanWithTail E set overlapLimit b true 0 (scanners.tails n) record).2 :=
    (scanWithTail_congr hpre).2
  refine ⟨?_, funext fun key ↦ ?_⟩
  · simp only [dispatch, hout, hscan]
  · by_cases hself : key = streamKey record
    · subst hself
      simp only [tails, dispatch]
      rw [show workerOf n (streamKey record).flowId = workerOf n record.flowId from rfl,
        Function.update_self, hkeep, hkey]
    · rw [scanWithTail_of_ne hself]
      simp only [tails, dispatch]
      by_cases hworker : workerOf n key.flowId = workerOf n record.flowId
      · rw [hworker, Function.update_self, hkeep, scanWithTail_of_ne hself]
      · rw [Function.update_of_ne hworker]

/-- Without expiry the workers together find what one scanner finds. -/
theorem hits_eq_tailHits (h : scanners.Alike set overlapLimit b) {records : List ContentRecord}
    (hkeep : scanners.NoExpiry E n records) :
    scanners.hits E n records = tailHits E set overlapLimit b (scanners.tails n) records := by
  induction records generalizing scanners with
  | nil => rfl
  | cons record records ih =>
      obtain ⟨hout, htails⟩ := dispatch_spec h hkeep.1
      rw [hits, tailHits, hout, ih (h.dispatch record) hkeep.2, htails]

end Scanners

end

end Bazalt.Replay
