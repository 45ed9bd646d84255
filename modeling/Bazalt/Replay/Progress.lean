import Bazalt.Replay.Pause

/-!
# Progress of a replay job

A run reports its progress after every segment, and once more after its workers have
finished.  When a shutdown interrupts a segment, the last report does not count the segment
but counts the hits of the records that were sent to the workers before.  The next run
scans the segment again and counts them again.
-/

namespace Bazalt.Replay

open Lib Matching

structure ReplayProgress where
  segmentsDone : ℤ
  bytesProcessed : ℤ
  matchesFound : ℤ
  deriving DecidableEq, Repr

/-- `i64::saturating_add`. -/
def i64SaturatingAdd (a b : ℤ) : ℤ := max (-2 ^ 63) (min (a + b) (2 ^ 63 - 1))

/-- Where a run sees the shutdown: after so many whole segments, and after so many records
of the next one are sent to the workers. -/
abbrev Shutdown := Option (ℕ × ℕ)

/-- What the jobs of a store are run with. -/
structure Store where
  listed : List ℕ
  present : ℕ → Bool
  contents : ℕ → List ContentRecord
  fileBytes : ℕ → ℤ

section

variable (E : Engines) (n : ℕ) (sc : ReplayScanner) (store : Store)

/-- The progress that a run sends.  The collector has counted `matches_` hits so far. -/
def runSegments (initialMatchesFound : ℤ) : Shutdown → List ℕ → Scanners → ℤ → ℤ → ℤ →
    List ReplayProgress
  | some (0, records), path :: _, scanners, matches_, segmentsDone, bytesProcessed =>
      let newMatches := matches_ + (scanners.hits E n ((store.contents path).take records)).length
      [⟨segmentsDone, bytesProcessed, i64SaturatingAdd initialMatchesFound newMatches⟩]
  | shutdown, path :: paths, scanners, matches_, segmentsDone, bytesProcessed =>
      let matchesSoFar := matches_ + (scanners.hits E n (store.contents path)).length
      ⟨segmentsDone + 1, bytesProcessed + store.fileBytes path,
          i64SaturatingAdd initialMatchesFound matchesSoFar⟩ ::
        runSegments initialMatchesFound (shutdown.map fun s ↦ (s.1 - 1, s.2)) paths
          (scanners.after E n (store.contents path)) matchesSoFar (segmentsDone + 1)
          (bytesProcessed + store.fileBytes path)
  | _, [], _, matches_, segmentsDone, bytesProcessed =>
      [⟨segmentsDone, bytesProcessed, i64SaturatingAdd initialMatchesFound matches_⟩]

/-- The progress of one execution of a job. -/
def runReplay (job : ReplayJob) (shutdown : Shutdown) : List ReplayProgress :=
  match replayPathsForJob store.listed store.present job with
  | .error _ => []
  | .ok paths => runSegments E n store job.matchesFound shutdown paths (fun _ ↦ sc) 0
      job.segmentsDone job.bytesProcessed

/-- The job as it is stored after an execution: with the last progress sent. -/
def executeJob (job : ReplayJob) (shutdown : Shutdown) : ReplayJob :=
  match (runReplay E n sc store job shutdown).getLast? with
  | none => job
  | some last => { job with
      segmentsDone := last.segmentsDone
      bytesProcessed := last.bytesProcessed
      matchesFound := last.matchesFound }

/-! ## What is counted -/

/-- The segments that a run finishes. -/
def finished (shutdown : Shutdown) (paths : List ℕ) : ℕ :=
  match shutdown with
  | none => paths.length
  | some (segments, _) => min segments paths.length

/-- The records of the segment that a run leaves unfinished, as far as it got. -/
def interrupted (shutdown : Shutdown) (paths : List ℕ) : List ContentRecord :=
  match shutdown with
  | none => []
  | some (segments, records) =>
      match paths.drop segments with
      | [] => []
      | path :: _ => (store.contents path).take records

/-- The number of hits on the first segments of a run. -/
def segmentHits (scanners : Scanners) (paths : List ℕ) (k : ℕ) : ℕ :=
  (scanners.hits E n ((paths.take k).flatMap store.contents)).length

/-- The number of hits on the records of an unfinished segment. -/
def interruptedHits (scanners : Scanners) (shutdown : Shutdown) (paths : List ℕ) : ℕ :=
  ((scanners.after E n ((paths.take (finished shutdown paths)).flatMap store.contents)).hits E n
    (interrupted store shutdown paths)).length

end

section

variable {E : Engines} {n : ℕ} {sc : ReplayScanner} {store : Store}

theorem segmentHits_cons (scanners : Scanners) (path : ℕ) (paths : List ℕ) (k : ℕ) :
    segmentHits E n store scanners (path :: paths) (k + 1) =
      (scanners.hits E n (store.contents path)).length +
        segmentHits E n store (scanners.after E n (store.contents path)) paths k := by
  rw [segmentHits, List.take_succ_cons, List.flatMap_cons, Scanners.hits_append,
    List.length_append, segmentHits]

theorem segmentHits_mono (scanners : Scanners) (paths : List ℕ) {k k' : ℕ} (h : k ≤ k') :
    segmentHits E n store scanners paths k ≤ segmentHits E n store scanners paths k' := by
  obtain ⟨rest, hrest⟩ := List.take_prefix_take_left (l := paths) h
  rw [segmentHits, segmentHits, ← hrest, List.flatMap_append, Scanners.hits_append,
    List.length_append]
  exact Nat.le_add_right _ _

/-- A shutdown after the first segment is one in the rest. -/
theorem finished_cons (store : Store) (path : ℕ) (paths : List ℕ) {shutdown : Shutdown}
    (h : ∀ records, shutdown ≠ some (0, records)) :
    finished shutdown (path :: paths) =
        finished (shutdown.map fun s ↦ (s.1 - 1, s.2)) paths + 1 ∧
      interrupted store shutdown (path :: paths) =
        interrupted store (shutdown.map fun s ↦ (s.1 - 1, s.2)) paths := by
  match shutdown with
  | none => exact ⟨rfl, rfl⟩
  | some (0, records) => exact absurd rfl (h records)
  | some (segments + 1, records) =>
      refine ⟨?_, rfl⟩
      simp only [finished, Option.map_some, List.length_cons]
      omega

theorem interruptedHits_cons (scanners : Scanners) (path : ℕ) (paths : List ℕ)
    {shutdown : Shutdown} (h : ∀ records, shutdown ≠ some (0, records)) :
    interruptedHits E n store scanners shutdown (path :: paths) =
      interruptedHits E n store (scanners.after E n (store.contents path))
        (shutdown.map fun s ↦ (s.1 - 1, s.2)) paths := by
  obtain ⟨hfinished, hinterrupted⟩ := finished_cons store path paths h
  rw [interruptedHits, hfinished, hinterrupted, List.take_succ_cons, List.flatMap_cons,
    Scanners.after, runFrom_append]
  rfl

theorem runSegments_cons (initial : ℤ) {shutdown : Shutdown} (path : ℕ) (paths : List ℕ)
    (scanners : Scanners) (found done bytes : ℤ) (h : ∀ records, shutdown ≠ some (0, records)) :
    runSegments E n store initial shutdown (path :: paths) scanners found done bytes =
      ⟨done + 1, bytes + store.fileBytes path, i64SaturatingAdd initial
          (found + (scanners.hits E n (store.contents path)).length)⟩ ::
        runSegments E n store initial (shutdown.map fun s ↦ (s.1 - 1, s.2)) paths
          (scanners.after E n (store.contents path))
          (found + (scanners.hits E n (store.contents path)).length) (done + 1)
          (bytes + store.fileBytes path) := by
  match shutdown with
  | none => rfl
  | some (0, records) => exact absurd rfl (h records)
  | some (segments + 1, records) => rfl

/-- What a run sends: the progress after every finished segment, and the last one, which
counts the finished segments and the hits on what was scanned of the next. -/
theorem runSegments_spec (initial : ℤ) (shutdown : Shutdown) (paths : List ℕ)
    (scanners : Scanners) (found done bytes : ℤ) : ∃ early last,
    runSegments E n store initial shutdown paths scanners found done bytes = early ++ [last] ∧
      (∀ p ∈ early, ∃ k ≤ finished shutdown paths, p.segmentsDone = done + k ∧
        p.matchesFound = i64SaturatingAdd initial
          (found + segmentHits E n store scanners paths k)) ∧
      last.segmentsDone = done + finished shutdown paths ∧
      last.matchesFound = i64SaturatingAdd initial (found +
        segmentHits E n store scanners paths (finished shutdown paths) +
        interruptedHits E n store scanners shutdown paths) := by
  induction paths generalizing shutdown scanners found done bytes with
  | nil =>
      have hfinished : finished shutdown [] = 0 := by
        match shutdown with
        | none => rfl
        | some (segments, records) => simp [finished]
      have hinterrupted : interrupted store shutdown [] = [] := by
        match shutdown with
        | none => rfl
        | some (segments, records) => simp [interrupted]
      refine ⟨[], ⟨done, bytes, i64SaturatingAdd initial found⟩, ?_, by simp, ?_, ?_⟩
      · match shutdown with
        | none => rfl
        | some (0, records) => rfl
        | some (segments + 1, records) => rfl
      · simp [hfinished]
      · simp [interruptedHits, hfinished, hinterrupted, segmentHits, Scanners.hits]
  | cons path paths ih =>
      by_cases hnow : ∃ records, shutdown = some (0, records)
      · obtain ⟨records, rfl⟩ := hnow
        refine ⟨[], _, rfl, by simp, by simp [finished], ?_⟩
        simp [interruptedHits, finished, interrupted, segmentHits, Scanners.hits, Scanners.after]
      · push Not at hnow
        obtain ⟨early, last, heq, hearly, hdone, hfound⟩ := ih
          (shutdown.map fun s ↦ (s.1 - 1, s.2)) (scanners.after E n (store.contents path))
          (found + (scanners.hits E n (store.contents path)).length) (done + 1)
          (bytes + store.fileBytes path)
        rw [runSegments_cons initial path paths scanners found done bytes hnow, heq,
          (finished_cons store path paths hnow).1, interruptedHits_cons scanners path paths hnow,
          segmentHits_cons]
        refine ⟨_ :: early, last, rfl, ?_, ?_, ?_⟩
        · intro p hp
          rcases List.mem_cons.mp hp with rfl | hp
          · refine ⟨1, by omega, rfl, ?_⟩
            simp [segmentHits]
          · obtain ⟨k, hle, hk, hcount⟩ := hearly p hp
            refine ⟨k + 1, by omega, ?_, ?_⟩
            · rw [hk]
              push_cast
              ring
            · rw [hcount, segmentHits_cons]
              push_cast
              ring_nf
        · rw [hdone]
          push_cast
          ring
        · rw [hfound]
          push_cast
          ring_nf

end

/-! ## Exact progress -/

section

variable (E : Engines) (n : ℕ) (sc : ReplayScanner) (store : Store)

/-- The remaining segments of a job. -/
def remaining (job : ReplayJob) : List ℕ :=
  match replayPathsForJob store.listed store.present job with
  | .error _ => []
  | .ok paths => paths

/-- The hits on the segments that the executions of a job finish, each counted in the
execution that finished it. -/
def finishedHits : ReplayJob → List Shutdown → ℕ
  | _, [] => 0
  | job, shutdown :: shutdowns =>
      segmentHits E n store (fun _ ↦ sc) (remaining store job)
          (finished shutdown (remaining store job)) +
        finishedHits (executeJob E n sc store job shutdown) shutdowns

/-- Every progress sent for `k` segments counts the hits on the first `k` segments only;
`counted` is the number of hits on those done before. -/
def ProgressExact : ℤ → ReplayJob → List Shutdown → Prop
  | _, _, [] => True
  | counted, job, shutdown :: shutdowns =>
      (∀ p ∈ runReplay E n sc store job shutdown, ∃ k : ℕ, p.segmentsDone = job.segmentsDone + k ∧
        p.matchesFound =
          counted + segmentHits E n store (fun _ ↦ sc) (remaining store job) k) ∧
      ProgressExact (counted + segmentHits E n store (fun _ ↦ sc) (remaining store job)
          (finished shutdown (remaining store job))) (executeJob E n sc store job shutdown) shutdowns

/-- The records that were scanned of an unfinished segment have no hits. -/
def InterruptedQuiet (job : ReplayJob) (shutdown : Shutdown) : Prop :=
  interruptedHits E n store (fun _ ↦ sc) shutdown (remaining store job) = 0

/-- The count of hits stays below the bound of its type. -/
def CountFits (job : ReplayJob) (shutdown : Shutdown) : Prop :=
  0 ≤ job.matchesFound ∧ job.matchesFound +
      segmentHits E n store (fun _ ↦ sc) (remaining store job)
        (finished shutdown (remaining store job)) +
      interruptedHits E n store (fun _ ↦ sc) shutdown (remaining store job) < 2 ^ 63

end


section

variable {E : Engines} {n : ℕ} {sc : ReplayScanner} {store : Store}

theorem i64SaturatingAdd_of_lt {a b : ℤ} (h₀ : 0 ≤ a + b) (h : a + b < 2 ^ 63) :
    i64SaturatingAdd a b = a + b := by
  unfold i64SaturatingAdd
  omega

/-- One execution: the progress during it is exact, the last one also counts the hits of
the unfinished segment. -/
theorem runReplay_spec {job : ReplayJob} {shutdown : Shutdown}
    (hfits : CountFits E n sc store job shutdown) :
    (runReplay E n sc store job shutdown = [] ∧ remaining store job = []) ∨ ∃ early last,
      runReplay E n sc store job shutdown = early ++ [last] ∧
      (∀ p ∈ early, ∃ k : ℕ, p.segmentsDone = job.segmentsDone + k ∧
        p.matchesFound = job.matchesFound +
          segmentHits E n store (fun _ ↦ sc) (remaining store job) k) ∧
      last.segmentsDone = job.segmentsDone + finished shutdown (remaining store job) ∧
      last.matchesFound = job.matchesFound +
        segmentHits E n store (fun _ ↦ sc) (remaining store job)
          (finished shutdown (remaining store job)) +
        interruptedHits E n store (fun _ ↦ sc) shutdown (remaining store job) := by
  obtain ⟨hzero, hlt⟩ := hfits
  unfold remaining at hlt ⊢
  unfold runReplay
  cases hpaths : replayPathsForJob store.listed store.present job with
  | error e => exact .inl ⟨rfl, rfl⟩
  | ok paths =>
      simp only [hpaths] at hlt
      dsimp only
      obtain ⟨early, last, heq, hearly, hdone, hfound⟩ := @runSegments_spec E n store
        job.matchesFound shutdown paths (fun _ ↦ sc) 0 job.segmentsDone job.bytesProcessed
      refine .inr ⟨early, last, heq, ?_, hdone, ?_⟩
      · intro p hp
        obtain ⟨k, hle, hk, hcount⟩ := hearly p hp
        have hmono := @segmentHits_mono E n store (fun _ ↦ sc) paths _ _ hle
        refine ⟨k, hk, ?_⟩
        rw [hcount, zero_add, i64SaturatingAdd_of_lt (by omega) (by omega)]
      · rw [hfound, i64SaturatingAdd_of_lt (by omega) (by omega)]
        omega

theorem matchesFound_executeJob {job : ReplayJob} {shutdown : Shutdown}
    (hfits : CountFits E n sc store job shutdown) :
    (executeJob E n sc store job shutdown).matchesFound = job.matchesFound +
      segmentHits E n store (fun _ ↦ sc) (remaining store job)
        (finished shutdown (remaining store job)) +
      interruptedHits E n store (fun _ ↦ sc) shutdown (remaining store job) := by
  unfold executeJob
  rcases runReplay_spec hfits with ⟨hsent, hrest⟩ | ⟨early, last, hsent, -, -, hlast⟩
  · have hnone : interrupted store shutdown [] = [] := by
      match shutdown with
      | none => rfl
      | some (segments, records) => simp [interrupted]
    simp [hsent, hrest, segmentHits, interruptedHits, hnone, Scanners.hits]
  · rw [hsent, List.getLast?_concat]
    exact hlast

/-- The progress of an execution is exact if and only if nothing was found in the
unfinished segment. -/
theorem exact_iff_interruptedQuiet {job : ReplayJob} {shutdown : Shutdown}
    (hfits : CountFits E n sc store job shutdown) :
    (∀ p ∈ runReplay E n sc store job shutdown, ∃ k : ℕ, p.segmentsDone = job.segmentsDone + k ∧
      p.matchesFound = job.matchesFound +
        segmentHits E n store (fun _ ↦ sc) (remaining store job) k) ↔
      InterruptedQuiet E n sc store job shutdown := by
  unfold InterruptedQuiet
  rcases runReplay_spec hfits with ⟨hsent, hrest⟩ | ⟨early, last, hsent, hearly, hdone, hlast⟩
  · have hexec := matchesFound_executeJob hfits
    simp only [executeJob, hsent, hrest, List.getLast?_nil] at hexec
    rw [hsent, hrest]
    constructor
    · intro _
      omega
    · intro _ p hp
      cases hp
  · rw [hsent]
    constructor
    · intro h
      obtain ⟨k, hk, hcount⟩ := h last (by simp)
      obtain rfl : k = finished shutdown (remaining store job) := by omega
      omega
    · intro hquiet p hp
      rcases List.mem_append.mp hp with hp | hp
      · exact hearly p hp
      · obtain rfl := List.mem_singleton.mp hp
        exact ⟨_, hdone, by omega⟩

/-- The stored count of hits is never too small, and it is exact if and only if every
shutdown came before a hit of the segment that it left unfinished. -/
theorem finishedHits_le_matchesFound {job : ReplayJob} {shutdowns : List Shutdown}
    (hfits : Along (executeJob E n sc store) (CountFits E n sc store) job shutdowns) :
    job.matchesFound + finishedHits E n sc store job shutdowns ≤
        (runFrom (executeJob E n sc store) job shutdowns).matchesFound ∧
      ((runFrom (executeJob E n sc store) job shutdowns).matchesFound =
          job.matchesFound + finishedHits E n sc store job shutdowns ↔
        Along (executeJob E n sc store) (InterruptedQuiet E n sc store) job shutdowns) := by
  induction shutdowns generalizing job with
  | nil => simp [finishedHits, Along]
  | cons shutdown shutdowns ih =>
      obtain ⟨hle, hiff⟩ := ih hfits.2
      have hexec := matchesFound_executeJob hfits.1
      rw [runFrom_cons, finishedHits, Along, ← hiff, InterruptedQuiet]
      push_cast
      constructor
      · omega
      · constructor
        · intro h
          omega
        · rintro ⟨hquiet, h⟩
          omega

theorem progressExact_iff {counted : ℤ} {job : ReplayJob} {shutdowns : List Shutdown}
    (hfits : Along (executeJob E n sc store) (CountFits E n sc store) job shutdowns)
    (hcounted : counted = job.matchesFound) :
    ProgressExact E n sc store counted job shutdowns ↔
      Along (executeJob E n sc store) (InterruptedQuiet E n sc store) job shutdowns := by
  induction shutdowns generalizing counted job with
  | nil => simp [ProgressExact, Along]
  | cons shutdown shutdowns ih =>
      subst hcounted
      have hexec := matchesFound_executeJob hfits.1
      rw [ProgressExact, Along, exact_iff_interruptedQuiet hfits.1]
      refine and_congr_right fun hquiet ↦ ih hfits.2 ?_
      rw [InterruptedQuiet] at hquiet
      omega

end

/-- After any executions of a job, whenever and wherever they were shut down, the stored
count of hits is that of the finished segments, and so is every progress sent before, if
and only if no shutdown came after a hit of the segment that it left unfinished. -/
theorem matchesFound_exact_iff (E : Engines) (n : ℕ) (sc : ReplayScanner) (store : Store)
    (job : ReplayJob) (shutdowns : List Shutdown)
    (hfits : Along (executeJob E n sc store) (CountFits E n sc store) job shutdowns) :
    ((runFrom (executeJob E n sc store) job shutdowns).matchesFound =
        job.matchesFound + finishedHits E n sc store job shutdowns ↔
      Along (executeJob E n sc store) (InterruptedQuiet E n sc store) job shutdowns) ∧
    (ProgressExact E n sc store job.matchesFound job shutdowns ↔
      Along (executeJob E n sc store) (InterruptedQuiet E n sc store) job shutdowns) :=
  ⟨(finishedHits_le_matchesFound hfits).2, progressExact_iff hfits rfl⟩

/-- Two segments, with the word `flag` in the first and the last record of the first. -/
def flagStore : Store where
  listed := []
  present := fun _ ↦ true
  contents := fun path ↦
    if path = 0 then
      [⟨1, 9, 0, none, .aToB, .tcpRaw, 0, [102, 108, 97, 103]⟩,
        ⟨2, 9, 0, none, .aToB, .tcpRaw, 4, [45]⟩,
        ⟨3, 9, 0, none, .aToB, .tcpRaw, 5, [102, 108, 97, 103]⟩]
    else [⟨4, 9, 0, none, .bToA, .tcpRaw, 0, [45]⟩]
  fileBytes := fun _ ↦ 512

def flagJob : ReplayJob where
  segmentPaths := [0, 1]
  segmentsTotal := 2

def flagScanner : ReplayScanner :=
  (ReplayScanner.new referenceEngines flagPatterns 4096 {}).get flagPatterns_compile

instance (E : Engines) (n : ℕ) (sc : ReplayScanner) (store : Store) (job : ReplayJob)
    (shutdown : Shutdown) : Decidable (CountFits E n sc store job shutdown) :=
  inferInstanceAs (Decidable (_ ∧ _))

instance (E : Engines) (n : ℕ) (sc : ReplayScanner) (store : Store) (job : ReplayJob)
    (shutdown : Shutdown) : Decidable (InterruptedQuiet E n sc store job shutdown) :=
  inferInstanceAs (Decidable (_ = _))

/-- Two hits, but the job that is paused after the first of them ends with three. -/
theorem matchesFound_flagJob :
    finishedHits referenceEngines 2 flagScanner flagStore flagJob [some (0, 2), none] = 2 ∧
      (runFrom (executeJob referenceEngines 2 flagScanner flagStore) flagJob
        [some (0, 2), none]).segmentsDone = 2 ∧
      (runFrom (executeJob referenceEngines 2 flagScanner flagStore) flagJob
        [some (0, 2), none]).matchesFound = 3 := by
  decide +kernel

/-- A pause between the segments, or before the first record of one, changes nothing. -/
theorem matchesFound_flagJob_at_boundary :
    (runFrom (executeJob referenceEngines 2 flagScanner flagStore) flagJob
        [some (0, 0), some (1, 1), none]).matchesFound =
      flagJob.matchesFound + finishedHits referenceEngines 2 flagScanner flagStore flagJob
        [some (0, 0), some (1, 1), none] :=
  (matchesFound_exact_iff referenceEngines 2 flagScanner flagStore flagJob _
    (by decide +kernel)).1.mpr (by decide +kernel)

end Bazalt.Replay
