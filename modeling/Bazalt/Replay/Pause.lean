import Bazalt.Replay.Scanner

/-!
# Pausing a replay

A job that is paused remembers how many segments are done.  When it is resumed, the
remaining segments are scanned by new scanners, whose tails are empty: a literal that lies
across the segment boundary is then found by neither run.  Nothing else is lost: if no
stream goes on over the boundary, the two runs together find what one run finds.
-/

namespace Bazalt.Replay

open Lib Matching

/-! ## The remaining segments -/

/-- Segment paths are numbered in the order of their names. -/
structure ReplayJob where
  segmentPaths : List ℕ
  segmentCutoff : Option ℕ := none
  segmentsTotal : ℤ
  segmentsDone : ℤ := 0
  bytesProcessed : ℤ := 0
  matchesFound : ℤ := 0
  deriving DecidableEq, Repr

structure IncompleteSet where
  expected : ℤ
  found : ℕ
  missing : ℕ
  deriving DecidableEq, Repr

/-- An `i64` cast to `usize`. -/
def asUsize (v : ℤ) : ℕ := (v % 2 ^ 64).toNat

/-- `listed` are the segments in the store, for jobs that do not name theirs. -/
def replayPathsForJob (listed : List ℕ) (present : ℕ → Bool) (job : ReplayJob) :
    Except IncompleteSet (List ℕ) :=
  let paths :=
    if job.segmentPaths.isEmpty then
      match job.segmentCutoff with
      | some cutoff => listed.filter (· ≤ cutoff)
      | none => if 0 ≤ job.segmentsTotal then listed.take (asUsize job.segmentsTotal) else listed
    else job.segmentPaths
  let missing := (paths.filter fun path ↦ !present path).length
  if missing ≠ 0 ∨ paths.length < asUsize job.segmentsTotal then
    .error ⟨job.segmentsTotal, paths.length, missing⟩
  else .ok ((paths.take (asUsize (max job.segmentsTotal 0))).drop (asUsize (max job.segmentsDone 0)))

/-- A job that goes on after `k` more segments gets the paths after these. -/
theorem replayPathsForJob_resumed {listed : List ℕ} {present : ℕ → Bool} {job : ReplayJob}
    {paths : List ℕ} (h : replayPathsForJob listed present job = .ok paths) {k : ℕ}
    (hdone : 0 ≤ job.segmentsDone) (hmax : job.segmentsDone + k < 2 ^ 63) :
    replayPathsForJob listed present { job with segmentsDone := job.segmentsDone + k } =
      .ok (paths.drop k) := by
  have hsum : asUsize (max (job.segmentsDone + k) 0) =
      asUsize (max job.segmentsDone 0) + k := by
    unfold asUsize
    omega
  unfold replayPathsForJob at h ⊢
  simp only at h ⊢
  split_ifs at h ⊢ <;> rw [hsum, ← Except.ok.inj h, List.drop_drop]

/-! ## Rows -/

/-- Rows are compared by pattern, revision, content and offsets. -/
abbrev Row := Uuid × ℤ × Uuid × ℕ × ℕ

def rowOf (hit : MatchRecord) : Row :=
  (hit.patternId, hit.patternRevision, hit.contentId, hit.offsetStart, hit.offsetEnd)

/-- The rows of a run over records with new scanners. -/
def replayRows (E : Engines) (n : ℕ) (sc : ReplayScanner) (records : List ContentRecord) :
    List Row :=
  (Scanners.hits E n (fun _ ↦ sc) records).map rowOf

/-- The rows of a job that is paused after `k` segments and then resumed are those of an
uninterrupted run, as long as no tail expires in any of the runs. -/
def PauseTransparent (E : Engines) (n overlapLimit : ℕ) (b : Bounds)
    (contents : ℕ → List ContentRecord) (listed : List ℕ) (present : ℕ → Bool) (job : ReplayJob)
    (k : ℕ) (patterns : List PatternRevision) : Prop :=
  ∀ sc paths rest, ReplayScanner.new E patterns overlapLimit b = some sc →
    replayPathsForJob listed present job = .ok paths →
    replayPathsForJob listed present { job with segmentsDone := job.segmentsDone + k } = .ok rest →
    Scanners.NoExpiry E n (fun _ ↦ sc) (paths.flatMap contents) →
    Scanners.NoExpiry E n (fun _ ↦ sc) ((paths.take k).flatMap contents) →
    Scanners.NoExpiry E n (fun _ ↦ sc) (rest.flatMap contents) →
    ∀ row, row ∈ replayRows E n sc (paths.flatMap contents) ↔
      row ∈ replayRows E n sc ((paths.take k).flatMap contents) ∨
        row ∈ replayRows E n sc (rest.flatMap contents)

/-- The record is the first of its stream. -/
def FirstOf (records : List ContentRecord) (record : ContentRecord) : Prop :=
  records.find? (fun r ↦ decide (streamKey r = streamKey record)) = some record

/-- The last record of a stream. -/
def lastOf (records : List ContentRecord) (key : StreamKey) : Option ContentRecord :=
  records.reverse.find? fun r ↦ decide (streamKey r = key)

/-- Some stream goes on after the boundary where it ended before it. -/
def Crosses (before after : List ContentRecord) : Prop :=
  ∃ r₁ r₂, lastOf before (streamKey r₂) = some r₁ ∧ FirstOf after r₂ ∧
    satAdd r₁.streamOffset r₁.data.length = r₂.streamOffset

/-! ## Tails over the boundary -/

section

variable {E : Engines} {n : ℕ} {set : CompiledPatternSet} {overlapLimit : ℕ} {b : Bounds}

theorem tailsAfter_concat (tails : Tails) (records : List ContentRecord) (record : ContentRecord) :
    tailsAfter E set overlapLimit b tails (records ++ [record]) =
      (scanWithTail E set overlapLimit b true 0 (tailsAfter E set overlapLimit b tails records)
        record).1 :=
  runFrom_append _ _ _ _

/-- The tail of a stream is the one its last record left. -/
theorem tailsAfter_key (tails : Tails) (records : List ContentRecord) (key : StreamKey) :
    match lastOf records key with
    | none => tailsAfter E set overlapLimit b tails records key = tails key
    | some r => streamKey r = key ∧ ∃ before, tailsAfter E set overlapLimit b tails records key =
        (scanWithTail E set overlapLimit b true 0 before r).1 (streamKey r) := by
  induction records using List.reverseRecOn with
  | nil => rfl
  | append_singleton records r ih =>
      rw [lastOf, List.reverse_append, List.reverse_singleton, List.singleton_append,
        List.find?_cons, tailsAfter_concat]
      by_cases hkey : streamKey r = key
      · subst hkey
        simp only [decide_true, true_and]
        exact ⟨_, rfl⟩
      · simp only [hkey, decide_false]
        rw [scanWithTail_of_ne (Ne.symm hkey)]
        exact ih

/-- Runs that scan the first record of every stream with the same bytes find the same. -/
theorem tailHits_congr {tails tails' : Tails} {records : List ContentRecord}
    (h : ∀ r, FirstOf records r → tails.prefixFor r 0 = tails'.prefixFor r 0) :
    tailHits E set overlapLimit b tails records = tailHits E set overlapLimit b tails' records := by
  induction records generalizing tails tails' with
  | nil => rfl
  | cons record records ih =>
      have hself := h record (by simp [FirstOf])
      have hscan : (scanWithTail E set overlapLimit b true 0 tails record).2 =
          (scanWithTail E set overlapLimit b true 0 tails' record).2 := (scanWithTail_congr hself).2
      have hrest : ∀ r, FirstOf records r →
          Tails.prefixFor (scanWithTail E set overlapLimit b true 0 tails record).1 r 0 =
            Tails.prefixFor (scanWithTail E set overlapLimit b true 0 tails' record).1 r 0 := by
        intro r hr
        by_cases hkey : streamKey r = streamKey record
        · refine prefixFor_congr ?_
          rw [hkey]
          exact (scanWithTail_congr hself).1
        · have hlater : FirstOf (record :: records) r := by
            rw [FirstOf, List.find?_cons, decide_eq_false (Ne.symm hkey)]
            exact hr
          have hsame := h r hlater
          unfold Tails.prefixFor at hsame ⊢
          rwa [scanWithTail_of_ne hkey, scanWithTail_of_ne hkey]
      rw [tailHits, tailHits, hscan, ih hrest]

/-- Without a stream over the boundary the tails from before it are of no use. -/
theorem tailHits_of_not_crosses {before after : List ContentRecord} (h : ¬ Crosses before after) :
    tailHits E set overlapLimit b (tailsAfter E set overlapLimit b (fun _ ↦ none) before) after =
      tailHits E set overlapLimit b (fun _ ↦ none) after := by
  refine tailHits_congr fun r hr ↦ ?_
  have hkey := @tailsAfter_key E set overlapLimit b (fun _ ↦ none) before (streamKey r)
  cases hlast : lastOf before (streamKey r) with
  | none =>
      rw [hlast] at hkey
      exact prefixFor_congr hkey
  | some r₁ =>
      rw [hlast] at hkey
      obtain ⟨-, before', hkey⟩ := hkey
      unfold Tails.prefixFor
      rw [hkey]
      cases ht : (scanWithTail E set overlapLimit b true 0 before' r₁).1 (streamKey r₁) with
      | none => rfl
      | some t =>
          have hend := endOffset_scanWithTail ht
          have hne : t.endOffset ≠ r.streamOffset := fun heq ↦
            h ⟨r₁, r, hlast, hr, hend.symm.trans heq⟩
          simp [TailState.prefixFor, hne]

end

/-! ## Expiry -/

/-- The records are at most five minutes apart. -/
def Close (records : List ContentRecord) : Prop :=
  ∀ r ∈ records, ∀ r' ∈ records, r'.tsNs ≤ r.tsNs + 300000000000

instance (records : List ContentRecord) : Decidable (Close records) :=
  inferInstanceAs (Decidable (∀ r ∈ records, ∀ r' ∈ records, _))

/-- No stream was last seen too long before the records. -/
def Recent (records : List ContentRecord) (sc : ReplayScanner) : Prop :=
  ∀ key, ∀ ts ∈ sc.lastSeenNs key, ∀ r ∈ records, r.tsNs ≤ ts + 300000000000

theorem sweep_of_recent {records : List ContentRecord} {sc : ReplayScanner}
    (h : Recent records sc) {record : ContentRecord} (hr : record ∈ records) :
    sc.sweep record = sc := by
  have hfresh : ∀ key, ((sc.lastSeenNs key).any fun ts ↦
      decide (ts < record.tsNs - 300000000000)) = false := by
    intro key
    cases hseen : sc.lastSeenNs key with
    | none => rfl
    | some ts =>
        have hle := h key ts hseen record hr
        rw [Option.any_some, decide_eq_false_iff_not, Nat.not_lt]
        exact Nat.sub_le_of_le_add hle
  simp only [ReplayScanner.sweep, hfresh, Bool.false_eq_true, if_false]

/-- A record that is close to the others makes no tail expire. -/
theorem keeps_of_recent {E : Engines} {records : List ContentRecord} (hclose : Close records)
    {sc : ReplayScanner} (h : Recent records sc) {record : ContentRecord} (hr : record ∈ records) :
    sc.Keeps E record ∧ Recent records (sc.scanRecord E record).1 := by
  have hnext : ∀ ts : Option ℕ, (∀ t ∈ ts, t = record.tsNs) → ∀ next : ReplayScanner,
      next.lastSeenNs = Function.update sc.lastSeenNs (streamKey record) ts →
      Recent records next := by
    intro ts hts next hseen key t ht r hmem
    rw [hseen] at ht
    by_cases hkey : key = streamKey record
    · subst hkey
      rw [Function.update_self] at ht
      rw [hts t ht]
      exact hclose record hr r hmem
    · rw [Function.update_of_ne hkey] at ht
      exact h key t ht r hmem
  unfold ReplayScanner.Keeps ReplayScanner.scanRecord
  simp only
  split_ifs with hint hsweep
  · have hrecent := hnext (some record.tsNs) (by simp)
    rw [sweep_of_recent (hrecent _ rfl) hr]
    exact ⟨rfl, hrecent _ rfl⟩
  · exact ⟨rfl, hnext (some record.tsNs) (by simp) _ rfl⟩
  · exact ⟨rfl, hnext none (by simp) _ rfl⟩

theorem noExpiry_of_close {E : Engines} {n : ℕ} {all records : List ContentRecord}
    (hclose : Close all) (hsub : ∀ r ∈ records, r ∈ all) {scanners : Scanners}
    (h : ∀ i, Recent all (scanners i)) : scanners.NoExpiry E n records := by
  induction records generalizing scanners with
  | nil => trivial
  | cons record records ih =>
      obtain ⟨hkeep, hrecent⟩ := keeps_of_recent (E := E) hclose (h (workerOf n record.flowId))
        (hsub record List.mem_cons_self)
      refine ⟨hkeep, ih (fun r hr ↦ hsub r (List.mem_cons_of_mem _ hr)) fun i ↦ ?_⟩
      simp only [Scanners.dispatch]
      by_cases hi : i = workerOf n record.flowId
      · rw [hi, Function.update_self]
        exact hrecent
      · rw [Function.update_of_ne hi]
        exact h i

/-! ## A literal over the boundary -/

def pairPattern (v : String) (view : ContentView) : PatternRevision where
  id := 0
  revision := 0
  expression := v
  kind := .binary
  view := some view

def pairGroup (v : String) (view : ContentView) (x y : UInt8) : CompiledGroup where
  literals := [[x, y]]
  literalMeta := [pairPattern v view]
  maxLiteralLen := 2

def pairSet (v : String) (view : ContentView) (x y : UInt8) : CompiledPatternSet where
  globalGroups := [(view, pairGroup v view x y)]
  serviceGroups := []
  ignoreRevisions := []

def pairScanner (v : String) (view : ContentView) (x y : UInt8) (overlapLimit : ℕ) :
    ReplayScanner where
  patterns := pairSet v view x y
  overlapLimit := overlapLimit
  bounds := {}

section

variable {E : Engines} {v : String} {view : ContentView} {x y : UInt8} {overlapLimit : ℕ}
  {record : ContentRecord} {tails : Tails}

theorem compile_pairPattern (hdec : decodeBinary E v = some [x, y])
    (hac : E.acNew [[x, y]] = true) :
    CompiledPatternSet.compile E [pairPattern v view] = some (pairSet v view x y) := by
  have hgroup : CompiledGroup.compile E [pairPattern v view] = some (pairGroup v view x y) := by
    simp [CompiledGroup.compile, CompiledGroup.add, CompiledGroup.addLiteral, pairPattern, hdec,
      hac, pairGroup]
  have hsort : CompiledPatternSet.sort [pairPattern v view] =
      { globalBuckets := [(view, [pairPattern v view])], serviceBuckets := [] } := rfl
  have hignore : [pairPattern v view].filter (fun p ↦ p.enabled && p.action == .ignore) = [] := rfl
  simp [CompiledPatternSet.compile, hsort, CompiledPatternSet.compileBuckets, hgroup, pairSet,
    hignore]

theorem groupsFor_pairSet (hview : record.view = view) :
    (pairSet v view x y).groupsFor record = (some (pairGroup v view x y), none) := by
  cases hs : record.service <;> simp [CompiledPatternSet.groupsFor, pairSet, hview, hs]

/-- A record of the view leaves its last byte as the tail. -/
theorem scanWithTail_pairSet (hview : record.view = view) {front : Bytes}
    (hdata : record.data = front ++ [x]) :
    (scanWithTail E (pairSet v view x y) overlapLimit {} true 0 tails record).1
        (streamKey record) =
      some ⟨[x], satAdd record.streamOffset record.data.length, 0⟩ := by
  have hgroups := @groupsFor_pairSet v view x y record hview
  have hkeep : (pairSet v view x y).requiredOverlap record overlapLimit = 1 := by
    simp [CompiledPatternSet.requiredOverlap, hgroups, CompiledGroup.requiredOverlap, pairGroup]
  have hint : (pairSet v view x y).isInterested record = true := by
    simp [CompiledPatternSet.isInterested, hgroups]
  have htail : ∀ previous, buildTail previous record.data 1 = [x] := by
    intro previous
    simp [buildTail, hdata]
  simp only [scanWithTail, hint, if_true, hkeep, Nat.one_ne_zero, if_false, Function.update_self,
    htail]

/-- With the byte before the record as its tail, the pair over its start is found. -/
theorem mem_scan_pairSet (hE : E.Standard) (hview : record.view = view) {rest : Bytes}
    (hdata : record.data = y :: rest) (hoff : 1 ≤ record.streamOffset)
    (htail : tails.prefixFor record 0 = [x]) :
    matchRecord (pairPattern v view) record (record.streamOffset - 1) (record.streamOffset + 1)
        true ∈
      (scanWithTail E (pairSet v view x y) overlapLimit {} true 0 tails record).2.out := by
  have hgroups := @groupsFor_pairSet v view x y record hview
  have hint : (pairSet v view x y).isInterested record = true := by
    simp [CompiledPatternSet.isInterested, hgroups]
  simp only [scanWithTail, hint, if_true, htail]
  have hscans : (pairSet v view x y).Scans record none (pairGroup v view x y) :=
    ⟨.inl rfl, congrArg Prod.fst hgroups⟩
  refine CompiledPatternSet.mem_scan_of_literalHits hscans
    (CompiledGroup.bridgeHits_subset_literalHits E _ record _ true (by simp [pairGroup]) ?_)
  refine CompiledGroup.mem_bridgeHits (i := 0) (u := [x]) (v := [y]) hE (by simp [pairGroup]) true
    rfl rfl (by simp) (by simp) (List.suffix_refl _) ⟨rest, by rw [hdata]; rfl⟩ le_rfl hoff ?_
  -- the text is just the pair, so nothing else occurs in it
  intro j w t hw hocc _ _
  have hj : j = 0 ∧ w = [x, y] := by
    cases j with
    | zero => exact ⟨rfl, (Option.some.inj hw).symm⟩
    | succ j => cases hw
  obtain ⟨rfl, rfl⟩ := hj
  refine ⟨rfl, ?_⟩
  have hlen := hocc.length_le
  simp only [CompiledGroup.bridge, pairGroup, hdata, List.length_drop, List.length_append,
    List.length_cons, List.length_nil, List.length_take] at hlen ⊢
  omega

/-- Every hit is in its record, or over its start if the scan has a tail. -/
theorem of_mem_scan_pairSet {hit : MatchRecord} (h : hit ∈
    (scanWithTail E (pairSet v view x y) overlapLimit {} true 0 tails record).2.out) :
    hit.contentId = record.id ∧
      (tails.prefixFor record 0 = [] → record.streamOffset ≤ hit.offsetStart) := by
  unfold scanWithTail at h
  split_ifs at h
  · obtain ⟨service, g, ⟨-, hg⟩, hcase⟩ := CompiledPatternSet.mem_scan h
    have hmeta : g.regexMeta = [] := by
      cases service with
      | none =>
          simp only [CompiledPatternSet.group, pairSet, List.lookup_cons, List.lookup_nil] at hg
          split at hg
          · cases hg
            rfl
          · cases hg
      | some name => cases hg
    rcases hcase with hbridge | hdata | ⟨q, hq, -⟩
    · obtain ⟨htail, p, start, finish, -, -, rfl⟩ := CompiledGroup.of_mem_bridgeHits hbridge
      exact ⟨rfl, fun hnil ↦ absurd hnil htail⟩
    · obtain ⟨m, -, p, -, rfl⟩ := CompiledGroup.mem_dataHits.mp hdata
      exact ⟨rfl, fun _ ↦ Nat.le_add_right _ _⟩
    · rw [hmeta] at hq
      cases hq
  · cases h

end

theorem mem_tailHits {E : Engines} {set : CompiledPatternSet} {overlapLimit : ℕ} {b : Bounds}
    {tails : Tails} {records : List ContentRecord} {hit : MatchRecord} :
    hit ∈ tailHits E set overlapLimit b tails records ↔ ∃ front record rest,
      records = front ++ record :: rest ∧ hit ∈ (scanWithTail E set overlapLimit b true 0
        (tailsAfter E set overlapLimit b tails front) record).2.out := by
  constructor
  · intro h
    induction records generalizing tails with
    | nil => cases h
    | cons record records ih =>
        rw [tailHits, List.mem_append] at h
        rcases h with h | h
        · exact ⟨[], record, records, rfl, h⟩
        · obtain ⟨front, r, rest, rfl, hr⟩ := ih h
          exact ⟨record :: front, r, rest, rfl, hr⟩
  · rintro ⟨front, record, rest, rfl, h⟩
    rw [tailHits_append, tailHits]
    exact List.mem_append_right _ (List.mem_append_left _ h)

/-- The pair over the boundary is a row of the uninterrupted run only. -/
theorem row_over_boundary {E : Engines} (hE : E.Standard) {overlapLimit : ℕ}
    {before after : List ContentRecord} (hids : ((before ++ after).map ContentRecord.id).Nodup)
    {r₁ r₂ : ContentRecord} (hlast : lastOf before (streamKey r₂) = some r₁)
    (hfirst : FirstOf after r₂) (hjoin : satAdd r₁.streamOffset r₁.data.length = r₂.streamOffset)
    {v : String} {x y : UInt8} {front rest : Bytes} (hx : r₁.data = front ++ [x])
    (hy : r₂.data = y :: rest) :
    let row : Row := (0, 0, r₂.id, r₂.streamOffset - 1, r₂.streamOffset + 1)
    let found (records : List ContentRecord) : Prop := row ∈ (tailHits E (pairSet v r₂.view x y)
      overlapLimit {} (fun _ ↦ none) records).map rowOf
    found (before ++ after) ∧ ¬ found before ∧ ¬ found after := by
  intro row found
  obtain ⟨pre, post, rfl, hpre⟩ : ∃ pre post, after = pre ++ r₂ :: post ∧
      ∀ r ∈ pre, streamKey r ≠ streamKey r₂ := by
    obtain ⟨-, pre, post, heq, hpre⟩ := List.find?_eq_some_iff_append.mp hfirst
    exact ⟨pre, post, heq, fun r hr ↦ by simpa using hpre r hr⟩
  have hfresh : ∀ r ∈ before ++ pre, r.id ≠ r₂.id := by
    rw [← List.append_assoc, List.map_append, List.map_cons, List.nodup_append] at hids
    intro r hr
    exact hids.2.2 _ (List.mem_map_of_mem hr) _ List.mem_cons_self
  have hnone : lastOf pre (streamKey r₂) = none := by
    simpa [lastOf] using hpre
  have hstart : 1 ≤ r₂.streamOffset := by
    have hpos : 1 ≤ r₁.data.length := by simp [hx]
    rw [← hjoin]
    exact le_min (by omega) (by decide)
  refine ⟨?_, ?_, ?_⟩
  · -- the tail of the stream is what the last record before the boundary left
    have hlast' : lastOf (before ++ pre) (streamKey r₂) = some r₁ := by
      rw [lastOf, List.reverse_append, List.find?_append, ← lastOf, hnone, Option.none_or]
      exact hlast
    have hkey := @tailsAfter_key E (pairSet v r₂.view x y) overlapLimit {} (fun _ ↦ none)
      (before ++ pre) (streamKey r₂)
    rw [hlast'] at hkey
    obtain ⟨hstream, tails, htail⟩ := hkey
    have hview : r₁.view = r₂.view := congrArg StreamKey.view hstream
    rw [scanWithTail_pairSet hview hx, hjoin] at htail
    have hpre : (tailsAfter E (pairSet v r₂.view x y) overlapLimit {} (fun _ ↦ none)
        (before ++ pre)).prefixFor r₂ 0 = [x] := by
      simp [Tails.prefixFor, htail, TailState.prefixFor]
    refine List.mem_map.mpr ⟨_, mem_tailHits.mpr ⟨before ++ pre, r₂, post, by simp,
      mem_scan_pairSet hE rfl hy hstart hpre⟩, rfl⟩
  · intro hrow
    obtain ⟨hit, hmem, heq⟩ := List.mem_map.mp hrow
    obtain ⟨front', r, rest', rfl, hhit⟩ := mem_tailHits.mp hmem
    have hid : hit.contentId = r₂.id := congrArg (fun row : Row ↦ row.2.2.1) heq
    exact hfresh r (by simp) ((of_mem_scan_pairSet hhit).1.symm.trans hid)
  · intro hrow
    obtain ⟨hit, hmem, heq⟩ := List.mem_map.mp hrow
    obtain ⟨front', r, rest', hsplit, hhit⟩ := mem_tailHits.mp hmem
    have hid : hit.contentId = r₂.id := congrArg (fun row : Row ↦ row.2.2.1) heq
    have hoff : hit.offsetStart = r₂.streamOffset - 1 :=
      congrArg (fun row : Row ↦ row.2.2.2.1) heq
    have hr : r.id = r₂.id := (of_mem_scan_pairSet hhit).1.symm.trans hid
    have hlen : front'.length = pre.length := by
      have hids' := hids.sublist ((List.sublist_append_right before _).map ContentRecord.id)
      have hpos : ((pre ++ r₂ :: post).map ContentRecord.id)[pre.length]? = some r₂.id := by simp
      have hpos' : ((pre ++ r₂ :: post).map ContentRecord.id)[front'.length]? = some r₂.id := by
        simp [hsplit, hr]
      exact (List.getElem?_inj (List.getElem?_eq_some_iff.mp hpos').1 hids').mp
        (hpos'.trans hpos.symm)
    obtain ⟨rfl, hcons⟩ := List.append_inj hsplit hlen.symm
    obtain rfl := (List.cons.inj hcons).1
    have hkey := @tailsAfter_key E (pairSet v r₂.view x y) overlapLimit {} (fun _ ↦ none)
      pre (streamKey r₂)
    rw [hnone] at hkey
    have hle := (of_mem_scan_pairSet hhit).2 (by rw [Tails.prefixFor, hkey]; rfl)
    omega

/-! ## When a pause loses nothing -/

theorem alike_new {E : Engines} {patterns : List PatternRevision} {overlapLimit : ℕ} {b : Bounds}
    {sc : ReplayScanner} (h : ReplayScanner.new E patterns overlapLimit b = some sc) (n : ℕ) :
    Scanners.Alike sc.patterns overlapLimit b (fun _ ↦ sc) ∧
      Scanners.tails n (fun _ ↦ sc) = fun _ ↦ none := by
  obtain ⟨set, -, rfl⟩ := Option.map_eq_some_iff.mp h
  exact ⟨fun _ ↦ ⟨rfl, rfl, rfl⟩, rfl⟩

theorem replayRows_eq {E : Engines} {n : ℕ} {patterns : List PatternRevision} {overlapLimit : ℕ}
    {b : Bounds} {sc : ReplayScanner} (h : ReplayScanner.new E patterns overlapLimit b = some sc)
    {records : List ContentRecord} (hkeep : Scanners.NoExpiry E n (fun _ ↦ sc) records) :
    replayRows E n sc records =
      (tailHits E sc.patterns overlapLimit b (fun _ ↦ none) records).map rowOf := by
  obtain ⟨halike, htails⟩ := alike_new h n
  rw [replayRows, Scanners.hits_eq_tailHits halike hkeep, htails]

/-- If no stream goes on over the boundary, a pause there loses nothing and adds nothing,
whatever the patterns and limits.  If some stream does, there is a pattern that is lost. -/
theorem pauseTransparent_iff_not_crosses (E : Engines) (hE : E.Standard)
    (hhex : ∀ x y, ∃ v, v ≠ "" ∧ decodeBinary E v = some [x, y])
    (hac : ∀ x y, E.acNew [[x, y]] = true) (n overlapLimit : ℕ)
    (contents : ℕ → List ContentRecord) (listed : List ℕ) (present : ℕ → Bool) (job : ReplayJob)
    (k : ℕ) (paths : List ℕ) (hpaths : replayPathsForJob listed present job = .ok paths)
    (hdone : 0 ≤ job.segmentsDone) (hmax : job.segmentsDone + k < 2 ^ 63)
    (hids : ((paths.flatMap contents).map ContentRecord.id).Nodup)
    (hdata : ∀ r ∈ paths.flatMap contents, r.data ≠ []) :
    (¬ Crosses ((paths.take k).flatMap contents) ((paths.drop k).flatMap contents) →
      ∀ b ps, PauseTransparent E n overlapLimit b contents listed present job k ps) ∧
    (Close (paths.flatMap contents) →
      (∀ ps, Table ps → PauseTransparent E n overlapLimit {} contents listed present job k ps) →
      ¬ Crosses ((paths.take k).flatMap contents) ((paths.drop k).flatMap contents)) := by
  have hrest := replayPathsForJob_resumed hpaths hdone hmax
  have hsplit : paths.flatMap contents =
      (paths.take k).flatMap contents ++ (paths.drop k).flatMap contents := by
    rw [← List.flatMap_append, List.take_append_drop]
  constructor
  · intro hno b ps sc paths' rest' hsc hpaths' hrest' hfull hbefore hafter row
    obtain rfl := Except.ok.inj (hpaths.symm.trans hpaths')
    obtain rfl := Except.ok.inj (hrest.symm.trans hrest')
    rw [replayRows_eq hsc hfull, replayRows_eq hsc hbefore, replayRows_eq hsc hafter, hsplit,
      tailHits_append, tailHits_of_not_crosses hno, List.map_append, List.mem_append]
  · intro hclose hall ⟨r₁, r₂, hlast, hfirst, hjoin⟩
    have hmem₁ : r₁ ∈ paths.flatMap contents := by
      rw [hsplit]
      exact List.mem_append_left _ (List.mem_reverse.mp (List.mem_of_find?_eq_some hlast))
    have hmem₂ : r₂ ∈ paths.flatMap contents := by
      rw [hsplit]
      exact List.mem_append_right _ (List.mem_of_find?_eq_some hfirst)
    obtain ⟨y, rest, hy⟩ := List.exists_cons_of_ne_nil (hdata r₂ hmem₂)
    obtain ⟨front, x, hx⟩ := (List.eq_nil_or_concat r₁.data).resolve_left (hdata r₁ hmem₁)
    rw [List.concat_eq_append] at hx
    obtain ⟨v, hv, hdec⟩ := hhex x y
    have hsc : ReplayScanner.new E [pairPattern v r₂.view] overlapLimit {} =
        some (pairScanner v r₂.view x y overlapLimit) := by
      rw [ReplayScanner.new, compile_pairPattern hdec (hac x y), Option.map_some]
      rfl
    have hkeep : ∀ records : List ContentRecord, (∀ r ∈ records, r ∈ paths.flatMap contents) →
        Scanners.NoExpiry E n (fun _ ↦ pairScanner v r₂.view x y overlapLimit) records :=
      fun records hsub ↦ noExpiry_of_close hclose hsub fun _ _ _ hts ↦ by cases hts
    have hbefore := hkeep ((paths.take k).flatMap contents) fun r hr ↦ by
      rw [hsplit]
      exact List.mem_append_left _ hr
    have hafter := hkeep ((paths.drop k).flatMap contents) fun r hr ↦ by
      rw [hsplit]
      exact List.mem_append_right _ hr
    have hfull := hkeep (paths.flatMap contents) fun _ hr ↦ hr
    have htable : Table [pairPattern v r₂.view] :=
      ⟨List.pairwise_singleton _ _, by simpa [pairPattern] using hv⟩
    rw [hsplit] at hids
    obtain ⟨hin, hout₁, hout₂⟩ := row_over_boundary (v := v) hE hids hlast hfirst hjoin hx hy
    have hiff := hall _ htable _ paths _ hsc hpaths hrest hfull hbefore hafter
      (0, 0, r₂.id, r₂.streamOffset - 1, r₂.streamOffset + 1)
    rw [replayRows_eq hsc hfull, replayRows_eq hsc hbefore, replayRows_eq hsc hafter,
      hsplit] at hiff
    exact (hiff.mp hin).elim hout₁ hout₂

def hexChar (n : ℕ) : Char := "0123456789abcdef".toList.getD n '0'

theorem hexChar_spec : ∀ n < 16, hexDigit (hexChar n) = some n ∧
    (!isAsciiWhitespace (hexChar n) && hexChar n != ':') = true := by
  decide +kernel

theorem exists_decodeBinary_reference (x y : UInt8) :
    ∃ v, v ≠ "" ∧ decodeBinary referenceEngines v = some [x, y] := by
  have hhigh : ∀ b : UInt8, b.toNat / 16 < 16 := fun b ↦ by
    have := b.toNat_lt
    omega
  have hlow : ∀ b : UInt8, b.toNat % 16 < 16 := fun b ↦ by omega
  obtain ⟨hx₁, kx₁⟩ := hexChar_spec _ (hhigh x)
  obtain ⟨hx₂, kx₂⟩ := hexChar_spec _ (hlow x)
  obtain ⟨hy₁, ky₁⟩ := hexChar_spec _ (hhigh y)
  obtain ⟨hy₂, ky₂⟩ := hexChar_spec _ (hlow y)
  refine ⟨String.ofList [hexChar (x.toNat / 16), hexChar (x.toNat % 16), hexChar (y.toNat / 16),
    hexChar (y.toNat % 16)], ?_, ?_⟩
  · intro h
    have := congrArg String.toList h
    simp at this
  · have hbyte : ∀ b : UInt8, UInt8.ofNat (16 * (b.toNat / 16) + b.toNat % 16) = b := fun b ↦ by
      rw [Nat.div_add_mod]
      exact UInt8.ofNat_toNat
    simp only [decodeBinary, String.toList_ofList, List.filter_cons, kx₁, kx₂, ky₁, ky₂, if_true,
      List.filter_nil, referenceEngines, hexBytes, hx₁, hx₂, hy₁, hy₂, Option.bind_eq_bind,
      Option.bind_some, Option.pure_def, hbyte]
    rfl

/-- Segments of one record each: `fl`, `ag`, and bytes of another stream. -/
def splitSegments : ℕ → List ContentRecord
  | 0 => [⟨1, 9, 0, none, .aToB, .tcpRaw, 0, [102, 108]⟩]
  | 1 => [⟨2, 9, 0, none, .aToB, .tcpRaw, 2, [97, 103]⟩]
  | _ => [⟨3, 9, 0, none, .bToA, .tcpRaw, 0, [97, 103]⟩]

def flagPatterns : List PatternRevision :=
  [{ id := 1, revision := 1, expression := "flag", kind := .text }]

def splitJob : ReplayJob where
  segmentPaths := [0, 1, 2]
  segmentsTotal := 3

theorem flagPatterns_compile :
    (ReplayScanner.new referenceEngines flagPatterns 4096 {}).isSome = true := by
  decide +kernel

theorem not_pauseTransparent_flagPatterns :
    referenceEngines.Standard ∧ Table flagPatterns ∧
      ¬ PauseTransparent referenceEngines 4 4096 {} splitSegments [] (fun _ ↦ true) splitJob 1
        flagPatterns := by
  refine ⟨referenceEngines_standard, by decide +kernel, fun h ↦ ?_⟩
  have hkeep : ∀ paths : List ℕ, Close (paths.flatMap splitSegments) →
      Scanners.NoExpiry referenceEngines 4
        (fun _ ↦ (ReplayScanner.new referenceEngines flagPatterns 4096 {}).get flagPatterns_compile)
        (paths.flatMap splitSegments) := by
    intro paths hclose
    refine noExpiry_of_close hclose (fun _ hr ↦ hr) fun _ key ts hts ↦ ?_
    obtain ⟨set, -, hset⟩ := Option.map_eq_some_iff.mp (Option.some_get flagPatterns_compile).symm
    rw [← hset] at hts
    cases hts
  have hrow := h _ [0, 1, 2] [1, 2] (Option.some_get flagPatterns_compile).symm (by decide)
    (by decide)
    (hkeep [0, 1, 2] (by decide)) (hkeep [0] (by decide)) (hkeep [1, 2] (by decide))
    (1, 1, 2, 0, 4)
  revert hrow
  decide +kernel

/-- Between the second and the third segment no stream goes on, between the first and the
second one does. -/
theorem pauseTransparent_splitSegments :
    (∀ b ps, PauseTransparent referenceEngines 4 4096 b splitSegments [] (fun _ ↦ true) splitJob 2
      ps) ∧
    ¬ ∀ ps, Table ps → PauseTransparent referenceEngines 4 4096 {} splitSegments []
      (fun _ ↦ true) splitJob 1 ps := by
  have hiff := fun k hk ↦ pauseTransparent_iff_not_crosses referenceEngines
    referenceEngines_standard exists_decodeBinary_reference (fun _ _ ↦ rfl) 4 4096 splitSegments []
    (fun _ ↦ true) splitJob k [0, 1, 2] (by decide) (by decide) hk (by decide) (by decide)
  constructor
  · refine (hiff 2 (by decide)).1 ?_
    rintro ⟨r₁, r₂, hlast, hfirst, -⟩
    obtain rfl : r₂ = ⟨3, 9, 0, none, .bToA, .tcpRaw, 0, [97, 103]⟩ :=
      List.mem_singleton.mp (List.mem_of_find?_eq_some hfirst)
    have hnone : (none : Option ContentRecord) = some r₁ := hlast
    cases hnone
  · intro hall
    refine (hiff 1 (by decide)).2 (by decide) hall ?_
    exact ⟨_, ⟨2, 9, 0, none, .aToB, .tcpRaw, 2, [97, 103]⟩, rfl, rfl, by decide⟩

end Bazalt.Replay
