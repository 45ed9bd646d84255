import Bazalt.Matching.Manager
import Bazalt.Replay.Progress

/-!
# Replay jobs

A job is a row of a table: the segments to scan, the patterns to look for, and how far it got.
One scheduler works on the jobs, one after the other.  When the process starts it first takes up
the jobs that an earlier process left, and then it makes new jobs of the patterns it is sent.

The database can fail at every request, with or without having done what it was asked for, and
the process can end at every moment.  What the table says about the progress of a job is true at
all times: the segments that it counts were scanned to their ends.
-/

namespace Bazalt.Replay

open Lib Matching

/-! ## Rows -/

inductive JobStatus where
  | queued
  | running
  | completed
  | failed
  deriving DecidableEq, Repr

inductive JobError where
  | missingPattern (id : Uuid) (revision : ℤ)
  | noPatterns
  | database
  | incomplete (set : IncompleteSet)
  | replay (message : String)
  deriving DecidableEq, Repr

structure JobRow where
  id : Uuid
  patternIds : List Uuid
  patternRevisions : List (Uuid × ℤ)
  job : ReplayJob
  status : JobStatus
  createdAt : ℕ
  error : Option JobError
  deriving DecidableEq, Repr

namespace JobRow

def progress (row : JobRow) : ReplayProgress :=
  ⟨row.job.segmentsDone, row.job.bytesProcessed, row.job.matchesFound⟩

/-- The row of a job that is left to do. -/
def Open (row : JobRow) : Prop := row.status = .queued ∨ row.status = .running

instance (row : JobRow) : Decidable row.Open := inferInstanceAs (Decidable (_ ∨ _))

def update (row : JobRow) (status : JobStatus) (p : ReplayProgress) (error : Option JobError) :
    JobRow :=
  { row with
    status, error
    job := { row.job with
      segmentsDone := p.segmentsDone
      bytesProcessed := p.bytesProcessed
      matchesFound := p.matchesFound } }

end JobRow

/-- The paths of a snapshot; a vector has fewer than `2 ^ 63` elements. -/
structure SegmentSet where
  paths : List ℕ
  length_lt : paths.length < 2 ^ 63

/-- The answer of the database: a request that failed may have been done. -/
inductive Outcome where
  | done
  | doneButFailed
  | failed
  deriving DecidableEq, Repr

def Outcome.applied : Outcome → Bool
  | .done => true
  | .doneButFailed => true
  | .failed => false

def Outcome.ok : Outcome → Bool
  | .done => true
  | .doneButFailed => false
  | .failed => false

abbrev JobTable := List JobRow

namespace JobTable

def updateReplayProgress (table : JobTable) (o : Outcome) (id : Uuid) (status : JobStatus)
    (p : ReplayProgress) (error : Option JobError) : JobTable :=
  if o.applied then table.map fun row ↦ if row.id = id then row.update status p error else row
  else table

/-- The newest jobs, the newest first. -/
def listReplayJobs (table : JobTable) (limit : ℕ) : List JobRow :=
  (table.insertionSort fun a b ↦ b.createdAt ≤ a.createdAt).take limit

def newJob (id : Uuid) (createdAt : ℕ) (patterns : List PatternRevision) (segments : SegmentSet) :
    JobRow where
  id := id
  patternIds := patterns.map PatternRevision.id
  patternRevisions := patterns.map fun p ↦ (p.id, p.revision)
  job := {
    segmentPaths := segments.paths
    segmentCutoff := segments.paths.getLast?
    segmentsTotal := segments.paths.length }
  status := .queued
  createdAt := createdAt
  error := none

/-- The id is the key of the table. -/
def createReplayJob (table : JobTable) (o : Outcome) (row : JobRow) : JobTable × Option JobRow :=
  if ∃ old ∈ table, old.id = row.id then (table, none)
  else (if o.applied then table ++ [row] else table, if o.ok then some row else none)

theorem createReplayJob_of_mem {table : JobTable} {row : JobRow} (o : Outcome)
    (h : row.id ∈ table.map JobRow.id) : table.createReplayJob o row = (table, none) :=
  if_pos (List.mem_map.mp h)

theorem createReplayJob_of_not_mem {table : JobTable} {row : JobRow} (o : Outcome)
    (h : row.id ∉ table.map JobRow.id) : table.createReplayJob o row =
      (if o.applied then table ++ [row] else table, if o.ok then some row else none) :=
  if_neg fun hold ↦ h (List.mem_map.mpr hold)

end JobTable

/-- Jobs written before revisions were kept name their patterns only. -/
def recoverJobPatterns (patterns : Option PatternTable) (row : JobRow) :
    Except JobError (List PatternRevision) :=
  match patterns with
  | none => .error .database
  | some rows =>
      if row.patternRevisions.isEmpty then .ok (row.patternIds.filterMap rows.latestPattern)
      else row.patternRevisions.mapM fun p ↦
        match rows.find? fun r ↦ decide (r.id = p.1 ∧ r.revision = p.2) with
        | some r => .ok r
        | none => .error (.missingPattern p.1 p.2)

/-! ## The worker of a job -/

/-- The run of a job as the scheduler sees it: the segments that are left, the progress that was
sent and not yet received, and the result. -/
structure JobWorker where
  paths : List ℕ
  segmentsDone : ℤ
  bytesProcessed : ℤ
  initialMatchesFound : ℤ
  reports : List ReplayProgress := []
  result : Option (Except String Unit) := none

inductive WorkerStep where
  /-- The barriers of a segment are passed. -/
  | commit (fileBytes : ℤ) (matchesSoFar : ℤ)
  /-- The workers are joined after the last segment, or at a shutdown. -/
  | finish (newMatches : ℤ)
  | fail (message : String)

def JobWorker.step (w : JobWorker) (shutdown : Bool) (e : WorkerStep) : JobWorker :=
  match w.result, e with
  | some _, _ => w
  | none, .commit fileBytes matchesSoFar =>
      match w.paths with
      | [] => w
      | _ :: paths => { w with
          paths
          segmentsDone := w.segmentsDone + 1
          bytesProcessed := w.bytesProcessed + fileBytes
          reports := w.reports ++ [⟨w.segmentsDone + 1, w.bytesProcessed + fileBytes,
            i64SaturatingAdd w.initialMatchesFound matchesSoFar⟩] }
  | none, .finish newMatches =>
      if shutdown || w.paths.isEmpty then { w with
        reports := w.reports ++ [⟨w.segmentsDone, w.bytesProcessed,
          i64SaturatingAdd w.initialMatchesFound newMatches⟩]
        result := some (.ok ()) }
      else w
  | none, .fail message => { w with result := some (.error message) }

/-- The segment that a step commits. -/
def JobWorker.committed (w : JobWorker) : WorkerStep → Option ℕ
  | .commit _ _ => if w.result.isNone then w.paths.head? else none
  | _ => none

/-! ## The scheduler -/

structure Execution where
  row : JobRow
  worker : JobWorker
  last : ReplayProgress

/-- The progress after all reports. -/
def Execution.final (e : Execution) : ReplayProgress := e.worker.reports.getLast?.getD e.last

inductive JobPhase where
  | listing
  | recovering (jobs : List JobRow)
  | executing (e : Execution) (rest : List JobRow)
  | idle
  | coalescing (patterns : List PatternRevision)
  | stopped

structure JobProcess where
  phase : JobPhase := .listing
  channel : List PatternRevision := []
  shutdown : Bool := false
  /-- Bookkeeping: the patterns that the channel took. -/
  accepted : List PatternRevision := []

structure JobSystem where
  table : JobTable := []
  process : Option JobProcess := none
  /-- Bookkeeping: the segments whose barriers were passed, by job. -/
  finished : List (Uuid × ℕ) := []

inductive JobEvent where
  | start
  | crash
  | shutdown
  | enqueue (pattern : PatternRevision)
  /-- The jobs are listed, or the database fails. -/
  | list (ok : Bool)
  /-- The next job is taken up.  The patterns are read from the table, or the database fails. -/
  | recover (patterns : Option PatternTable) (listed : List ℕ) (present : ℕ → Bool) (o : Outcome)
  | recovered
  | receive
  | coalesce
  /-- The window is over: a snapshot of the segments, a new job, and its execution. -/
  | execute (snapshot : Option SegmentSet) (id : Uuid) (createdAt : ℕ) (created started : Outcome)
  | worker (e : WorkerStep)
  | report (o : Outcome)
  | finish (o : Outcome)
  | stop

namespace JobSystem

def setPhase (s : JobSystem) (p : JobProcess) (phase : JobPhase) : JobSystem :=
  { s with process := some { p with phase } }

/-- `execute_job` up to the start of the worker. -/
def executeJob (s : JobSystem) (p : JobProcess) (row : JobRow) (paths : List ℕ) (o : Outcome)
    (rest : List JobRow) : JobSystem :=
  let s := { s with
    table := s.table.updateReplayProgress o row.id .running row.progress none }
  if o.ok then
    s.setPhase p (.executing {
      row
      worker := {
        paths
        segmentsDone := row.job.segmentsDone
        bytesProcessed := row.job.bytesProcessed
        initialMatchesFound := row.job.matchesFound }
      last := row.progress } rest)
  else s.setPhase p (.recovering rest)

/-- A job that cannot be taken up. -/
def failJob (s : JobSystem) (p : JobProcess) (row : JobRow) (error : JobError) (o : Outcome)
    (rest : List JobRow) : JobSystem :=
  { s with
    table := s.table.updateReplayProgress o row.id .failed row.progress (some error) }.setPhase p
      (.recovering rest)

def recoverJob (s : JobSystem) (p : JobProcess) (patterns : Option PatternTable) (listed : List ℕ)
    (present : ℕ → Bool) (o : Outcome) (row : JobRow) (rest : List JobRow) : JobSystem :=
  match recoverJobPatterns patterns row with
  | .ok [] => s.failJob p row .noPatterns o rest
  | .ok (_ :: _) =>
      match replayPathsForJob listed present row.job with
      | .ok paths => s.executeJob p row paths o rest
      | .error set => s.failJob p row (.incomplete set) o rest
  | .error error => s.failJob p row error o rest

/-- A new job for the patterns that are enabled. -/
def executeNew (s : JobSystem) (p : JobProcess) (patterns : List PatternRevision)
    (snapshot : Option SegmentSet) (id : Uuid) (createdAt : ℕ) (created started : Outcome) :
    JobSystem :=
  match patterns.filter PatternRevision.enabled, snapshot with
  | [], _ => s.setPhase p .idle
  | _, none => s.setPhase p .idle
  | enabled, some segments =>
      let created := s.table.createReplayJob created (JobTable.newJob id createdAt enabled segments)
      let s := { s with table := created.1 }
      match created.2 with
      | none => s.setPhase p .idle
      | some row => s.executeJob p row segments.paths started []

/-- The worker of the job goes on. -/
def workJob (s : JobSystem) (p : JobProcess) (e : Execution) (rest : List JobRow)
    (step : WorkerStep) : JobSystem :=
  { s with
    finished := s.finished ++ (e.worker.committed step).toList.map (e.row.id, ·) }.setPhase p
      (.executing { e with worker := e.worker.step p.shutdown step } rest)

/-- A report is received and stored. -/
def reportJob (s : JobSystem) (p : JobProcess) (e : Execution) (rest : List JobRow)
    (report : ReplayProgress) (reports : List ReplayProgress) (o : Outcome) : JobSystem :=
  { s with
    table := s.table.updateReplayProgress o e.row.id .running report none }.setPhase p
      (.executing { e with worker := { e.worker with reports }, last := report } rest)

def verdictOf : Except String Unit → JobStatus × Option JobError
  | .ok () => (.completed, none)
  | .error message => (.failed, some (.replay message))

/-- The last request of `execute_job`. -/
def finishJob (s : JobSystem) (p : JobProcess) (e : Execution) (rest : List JobRow) (o : Outcome) :
    JobSystem :=
  match e.worker.result with
  | none => s
  | some result =>
      let verdict := if p.shutdown then (JobStatus.queued, none) else verdictOf result
      { s with
        table := s.table.updateReplayProgress o e.row.id verdict.1 e.final verdict.2 }.setPhase p
          (.recovering rest)

/-- What the scheduler does in its phase. -/
def schedule (s : JobSystem) (p : JobProcess) (event : JobEvent) : JobSystem :=
  match p.phase, event with
  | .listing, .list true =>
      s.setPhase p (.recovering (((s.table.listReplayJobs 1000).insertionSort
        fun a b ↦ a.createdAt ≤ b.createdAt).filter fun row ↦ decide row.Open))
  | .listing, .list false => s.setPhase p (.recovering [])
  | .recovering (row :: rest), .recover patterns listed present o =>
      s.recoverJob p patterns listed present o row rest
  | .recovering [], .recovered => s.setPhase p .idle
  | .recovering _, .stop => if p.shutdown then s.setPhase p .stopped else s
  | .idle, .receive =>
      match p.channel with
      | [] => s
      | pattern :: channel =>
          { s with process := some { p with channel, phase := .coalescing [pattern] } }
  | .idle, .stop => if p.shutdown then s.setPhase p .stopped else s
  | .coalescing patterns, .coalesce =>
      match p.channel with
      | [] => s
      | pattern :: channel =>
          { s with process := some { p with channel, phase := .coalescing (patterns ++ [pattern]) } }
  | .coalescing patterns, .execute snapshot id createdAt created started =>
      s.executeNew p patterns snapshot id createdAt created started
  | .executing e rest, .worker step => s.workJob p e rest step
  | .executing e rest, .report o =>
      match e.worker.reports with
      | [] => s
      | report :: reports => s.reportJob p e rest report reports o
  | .executing e rest, .finish o => s.finishJob p e rest o
  | _, _ => s

def step (s : JobSystem) (event : JobEvent) : JobSystem :=
  match s.process with
  | none =>
      match event with
      | .start => { s with process := some {} }
      | _ => s
  | some p =>
      match event with
      | .start => s
      | .crash => { s with process := none }
      | .shutdown => { s with process := some { p with shutdown := true } }
      | .enqueue pattern =>
          if p.channel.length < 256 then
            { s with process := some { p with
                channel := p.channel ++ [pattern]
                accepted := p.accepted ++ [pattern] } }
          else s
      | event => s.schedule p event

end JobSystem

end Bazalt.Replay
