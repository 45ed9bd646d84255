import Bazalt.Replay.Progress
import Bazalt.Storage.Barriers

/-!
# The replay pipeline

A run of a replay job has a reader, workers, a collector and the metadata writer of the
process.  The reader sends the records of a segment to the workers, the workers send their
hits to the collector, and the collector sends them to the metadata writer.  After each
segment the reader waits for all of them in this order, and then reports its progress.
-/

namespace Bazalt.Replay

open Lib Matching Storage

/-- What is sent to the metadata writer: the hits of the run, by their number in the order
in which the workers found them, and the events of others. -/
inductive ReplayEvent where
  | hit (number : ℕ) (hit : MatchRecord)
  | other (event : ℕ)
  deriving DecidableEq, Repr

/-- Bookkeeping: a record carries the index of its segment. -/
inductive ReplayWork where
  | record (segment : ℕ) (record : ContentRecord)
  | barrier

inductive ReplayHit where
  | hit (number : ℕ) (hit : MatchRecord)
  | barrier
  deriving DecidableEq, Repr

/-- A worker with its channel and the hits of its record that it has yet to send. -/
structure ReplayWorker where
  queue : List ReplayWork := []
  scanner : ReplayScanner
  sending : List (ℕ × MatchRecord) := []
  running : Bool := true

/-- Where the reader is in its loop. -/
inductive ReaderState where
  | next
  | scanning (records : List ContentRecord)
  /-- The scan of the segment has returned an error. -/
  | scanFailed
  | sendingBarriers (worker : ℕ)
  | waitingForWorkers (acked : List ℕ)
  | sendingHitBarrier
  | waitingForHits
  | committing (matchesSoFar : ℤ)
  | waitingForMetadata (matchesSoFar : ℤ) (before : List ReplayEvent)
  | reporting (matchesSoFar : ℤ)
  | joiningWorkers
  | joiningCollector
  | finalBarrier (newMatches : ℤ)
  | waitingForFinal (newMatches : ℤ) (before : List ReplayEvent)
  | finalReport (newMatches : ℤ)
  | returned (ok : Bool)
  deriving DecidableEq, Repr

structure ReplayRun where
  /-- The remaining segments, each with its size. -/
  paths : List (ℤ × List ContentRecord)
  segmentsDone : ℕ
  bytesProcessed : ℤ
  initialMatchesFound : ℤ
  workers : ℕ → ReplayWorker
  reader : ReaderState := .next
  fileBytes : ℤ := 0
  shutdown : Bool := false
  /-- The acknowledgements of the segment barrier, by worker. -/
  acks : List ℕ := []
  hitQueue : List ReplayHit := []
  /-- The count of the collector. -/
  matches_ : ℤ := 0
  collecting : Bool := true
  hitReply : Option ℤ := none

structure ReplaySystem where
  metadata : Metadata ReplayEvent
  run : Option ReplayRun
  /-- Bookkeeping: the hits that the workers found, each with the index of its segment. -/
  produced : List (ℕ × MatchRecord) := []
  /-- Bookkeeping: the progress that was sent. -/
  progress : List ReplayProgress := []

inductive ReplayStep where
  | reader
  /-- A record cannot be read. -/
  | scanFails
  /-- The reader returns an error. -/
  | readerFails
  | shutdown
  | worker (i : ℕ)
  | workerFails (i : ℕ)
  | collector
  | collectorFails
  /-- A step of the metadata writer, the projector or another sender; a crash ends the run
  as well. -/
  | metadata (e : MetadataStep ReplayEvent)

namespace ReplaySystem

variable (E : Engines) (n : ℕ)

def setRun (s : ReplaySystem) (r : ReplayRun) : ReplaySystem := { s with run := some r }

/-- The send to the channel of a worker, or what follows when it fails. -/
def sendWork (s : ReplaySystem) (r : ReplayRun) (i : ℕ) (work : ReplayWork)
    (sent failed : ReaderState) : ReplaySystem :=
  if (r.workers i).running then
    s.setRun { r with
      workers := Function.update r.workers i
        { r.workers i with queue := (r.workers i).queue ++ [work] }
      reader := sent }
  else s.setRun { r with reader := failed }

/-- `durable_barrier`: the request. -/
def requestBarrier (s : ReplaySystem) (r : ReplayRun) (waiting : List ReplayEvent → ReaderState) :
    ReplaySystem :=
  match s.metadata.process with
  | none => s
  | some p => { s with
      metadata := s.metadata.step (.barrier false)
      run := some { r with reader := waiting p.sent } }

/-- `durable_barrier`: the reply.  A barrier of another sender with the same events before
it tells the same. -/
def awaitBarrier (s : ReplaySystem) (r : ReplayRun) (before : List ReplayEvent)
    (returned : ReaderState) : ReplaySystem :=
  if (⟨false, before⟩, true) ∈ s.metadata.replies then s.setRun { r with reader := returned }
  else s

/-- The worker has ended, or will not do anything more. -/
def joined (w : ReplayWorker) : Bool := !w.running || (w.queue.isEmpty && w.sending.isEmpty)

def reader (s : ReplaySystem) (r : ReplayRun) : ReplaySystem :=
  match r.reader with
  | .next =>
      if r.shutdown then s.setRun { r with reader := .joiningWorkers }
      else match r.paths with
        | [] => s.setRun { r with reader := .joiningWorkers }
        | (fileBytes, records) :: paths =>
            s.setRun { r with paths, fileBytes, reader := .scanning records }
  | .scanning [] =>
      s.setRun { r with
        acks := []
        reader := if r.shutdown then .joiningWorkers else .sendingBarriers 0 }
  | .scanning (record :: records) =>
      if r.shutdown then s.setRun { r with reader := .joiningWorkers }
      else s.sendWork r (workerOf n record.flowId) (.record r.segmentsDone record)
        (.scanning records) .scanFailed
  | .scanFailed =>
      s.setRun { r with reader := if r.shutdown then .joiningWorkers else .returned false }
  | .sendingBarriers i =>
      if i < n then s.sendWork r i .barrier (.sendingBarriers (i + 1)) (.returned false)
      else s.setRun { r with reader := .waitingForWorkers [] }
  | .waitingForWorkers acked =>
      if acked.length = n then s.setRun { r with reader := .sendingHitBarrier }
      else match r.acks with
        | [] => s
        | i :: acks => s.setRun { r with acks, reader := .waitingForWorkers (acked ++ [i]) }
  | .sendingHitBarrier =>
      if r.collecting then s.setRun { r with
        hitQueue := r.hitQueue ++ [.barrier]
        hitReply := none
        reader := .waitingForHits }
      else s.setRun { r with reader := .returned false }
  | .waitingForHits =>
      match r.hitReply with
      | none => s
      | some matchesSoFar => s.setRun { r with reader := .committing matchesSoFar }
  | .committing matchesSoFar => s.requestBarrier r (.waitingForMetadata matchesSoFar)
  | .waitingForMetadata matchesSoFar before => s.awaitBarrier r before (.reporting matchesSoFar)
  | .reporting matchesSoFar =>
      { s.setRun { r with
          segmentsDone := r.segmentsDone + 1
          bytesProcessed := r.bytesProcessed + r.fileBytes
          reader := .next } with
        progress := s.progress ++ [⟨r.segmentsDone + 1, r.bytesProcessed + r.fileBytes,
          i64SaturatingAdd r.initialMatchesFound matchesSoFar⟩] }
  | .joiningWorkers =>
      if ∀ i < n, joined (r.workers i) then s.setRun { r with reader := .joiningCollector } else s
  | .joiningCollector =>
      if r.collecting && !r.hitQueue.isEmpty then s
      else s.setRun { r with
        reader := if r.shutdown then .finalReport r.matches_ else .finalBarrier r.matches_ }
  | .finalBarrier newMatches => s.requestBarrier r (.waitingForFinal newMatches)
  | .waitingForFinal newMatches before => s.awaitBarrier r before (.finalReport newMatches)
  | .finalReport newMatches =>
      { s.setRun { r with reader := .returned true } with
        progress := s.progress ++ [⟨r.segmentsDone, r.bytesProcessed,
          i64SaturatingAdd r.initialMatchesFound newMatches⟩] }
  | .returned _ => s

/-- A worker sends one hit, or takes the next item of its channel. -/
def worker (s : ReplaySystem) (r : ReplayRun) (i : ℕ) : ReplaySystem :=
  let w := r.workers i
  if w.running then
    match w.sending, w.queue with
    | (number, hit) :: sending, _ =>
        if r.collecting then s.setRun { r with
          hitQueue := r.hitQueue ++ [.hit number hit]
          workers := Function.update r.workers i { w with sending } }
        else s.setRun { r with
          workers := Function.update r.workers i { w with running := false } }
    | [], .record segment record :: queue =>
        let scan := w.scanner.scanRecord E record
        let numbered := (List.range' s.produced.length scan.2.out.length).zip scan.2.out
        { s.setRun { r with
            workers := Function.update r.workers i
              { w with queue, scanner := scan.1, sending := numbered } } with
          produced := s.produced ++ scan.2.out.map (segment, ·) }
    | [], .barrier :: queue => s.setRun { r with
        acks := r.acks ++ [i]
        workers := Function.update r.workers i { w with queue } }
    | [], [] => s
  else s

/-- The collector takes the next item of its channel. -/
def collector (s : ReplaySystem) (r : ReplayRun) : ReplaySystem :=
  if r.collecting then
    match r.hitQueue with
    | [] => s
    | .barrier :: hitQueue => s.setRun { r with hitQueue, hitReply := some r.matches_ }
    | .hit number hit :: hitQueue =>
        match s.metadata.process.map Process.writer with
        | none | some (.stopped _) => s.setRun { r with
            matches_ := r.matches_ + 1
            collecting := false }
        | _ => { s with
            metadata := s.metadata.step (.send (.hit number hit))
            run := some { r with hitQueue, matches_ := r.matches_ + 1 } }
  else s

def step (s : ReplaySystem) (e : ReplayStep) : ReplaySystem :=
  match e with
  | .metadata .crash => { s with metadata := s.metadata.step .crash, run := none }
  | .metadata (.send (.hit _ _)) => s
  | .metadata e => { s with metadata := s.metadata.step e }
  | e =>
      match s.run with
      | none => s
      | some r =>
          match e with
          | .reader => s.reader n r
          | .scanFails =>
              match r.reader with
              | .scanning _ => s.setRun { r with reader := .scanFailed }
              | _ => s
          | .readerFails => s.setRun { r with reader := .returned false }
          | .shutdown => s.setRun { r with shutdown := true }
          | .worker i => if i < n then s.worker E r i else s
          | .workerFails i => s.setRun { r with
              workers := Function.update r.workers i { r.workers i with running := false } }
          | .collector => s.collector r
          | .collectorFails => s.setRun { r with collecting := false }
          | .metadata _ => s

end ReplaySystem

end Bazalt.Replay
