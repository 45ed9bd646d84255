import Bazalt.Storage.Codec

/-!
# The segment writer

One thread owns the active segment file.  It takes commands from a queue, appends records
through a buffer, publishes index rows once the bytes they point at are in the file, and
starts a new file when the active one is full.  Every error sets a flag that ends the
loop, but only where the flag is tested.

What the operating system and the metadata pipeline do is part of the events: how many
bytes reach the file, where a write fails, how many rows the pipeline accepts.
-/

namespace Bazalt.Storage

open Lib

structure Config where
  maxBytes : ℕ
  maxRecordBytes : ℕ
  storeMaxBytes : ℕ
  deriving DecidableEq, Repr

/-- A segment file: the clock reading in its name, and the bytes that reached it. -/
structure SegmentFile where
  name : ℕ
  bytes : Bytes
  deriving DecidableEq, Repr

structure ContentIndexRecord where
  contentId : Uuid
  flowId : Uuid
  tsNs : ℕ
  service : Option String
  direction : Direction
  view : ContentView
  streamOffset : ℕ
  payloadLen : ℕ
  segmentPath : ℕ
  segmentOffset : ℕ
  deriving DecidableEq, Repr

def indexRow (record : ContentRecord) (path offset : ℕ) : ContentIndexRecord where
  contentId := record.id
  flowId := record.flowId
  tsNs := record.tsNs
  service := record.service
  direction := record.direction
  view := record.view
  streamOffset := record.streamOffset
  payloadLen := min record.data.length u32Max
  segmentPath := path
  segmentOffset := offset

/-- The file is written through a buffer; `bytes` and `retainedBytes` count what was
given to the buffer. -/
structure ActiveWriter where
  file : SegmentFile
  buffer : Bytes
  bytes : ℕ
  retainedBytes : ℕ
  deriving DecidableEq, Repr

structure PreparedRecord where
  fields : Bytes
  payloadLen : ℕ
  encodedLen : ℕ
  deriving DecidableEq, Repr

namespace ActiveWriter

def new (name createdNs retainedBytes : ℕ) : ActiveWriter where
  file := ⟨name, []⟩
  buffer := segmentHeader createdNs
  bytes := headerSize
  retainedBytes := satAdd retainedBytes headerSize

def prepareRecord (w : ActiveWriter) (cfg : Config) (record : ContentRecord) :
    Except SegmentError PreparedRecord :=
  match encodeRecordPrefix record with
  | .error e => .error e
  | .ok fields =>
      let payloadLen := fields.length + record.data.length
      if u32Max < payloadLen then .error .contentRecordTooLarge
      else if cfg.maxRecordBytes < payloadLen then
        .error (.recordLimit payloadLen cfg.maxRecordBytes)
      else
        let encodedLen := 12 + payloadLen
        if cfg.storeMaxBytes < satAdd w.retainedBytes encodedLen then
          .error (.diskBudget w.retainedBytes encodedLen cfg.storeMaxBytes)
        else .ok ⟨fields, payloadLen, encodedLen⟩

def needsRotation (w : ActiveWriter) (cfg : Config) (encodedLen : ℕ) : Bool :=
  decide (headerSize < w.bytes ∧ cfg.maxBytes < w.bytes + encodedLen)

def checkRotationBudget (w : ActiveWriter) (cfg : Config) (encodedLen : ℕ) :
    Except SegmentError Unit :=
  let required := satAdd headerSize encodedLen
  if cfg.storeMaxBytes < satAdd w.retainedBytes required then
    .error (.rotationBudget w.retainedBytes required cfg.storeMaxBytes)
  else .ok ()

/-- `n` bytes go from the buffer to the file. -/
def drain (w : ActiveWriter) (n : ℕ) : ActiveWriter :=
  { w with
    file := { w.file with bytes := w.file.bytes ++ w.buffer.take n }
    buffer := w.buffer.drop n }

/-- All bytes given to the file so far. -/
def stream (w : ActiveWriter) : Bytes := w.file.bytes ++ w.buffer

/-- `accepted` is the number of bytes the buffer took when a write failed. -/
def writePrepared (w : ActiveWriter) (crc32 : Bytes → BitVec 32) (cfg : Config)
    (record : ContentRecord) (prepared : PreparedRecord) (accepted : Option ℕ) :
    ActiveWriter × Except SegmentError ℕ :=
  if cfg.storeMaxBytes < satAdd w.retainedBytes prepared.encodedLen then
    (w, .error (.diskBudget w.retainedBytes prepared.encodedLen cfg.storeMaxBytes))
  else
    let record := envelope crc32 (prepared.fields ++ record.data)
    match accepted.filter fun n ↦ decide (n < record.length) with
    | some n => ({ w with buffer := w.buffer ++ record.take n }, .error .io)
    | none =>
        ({ w with
            buffer := w.buffer ++ record
            bytes := w.bytes + prepared.encodedLen
            retainedBytes := satAdd w.retainedBytes prepared.encodedLen },
          .ok w.stream.length)

end ActiveWriter

/-- What the writer thread works on.  `queue` are the rows the metadata pipeline has
accepted, `rows` those of them that are durable. -/
structure Session where
  sealedFiles : List SegmentFile
  writer : ActiveWriter
  pending : List ContentIndexRecord := []
  queue : List ContentIndexRecord := []
  rows : List ContentIndexRecord := []
  fatal : Bool := false
  deriving DecidableEq, Repr

/-- A flush that fails lets `drained` bytes through; the metadata pipeline stops after
`sent` rows. -/
structure FlushIo where
  drained : Option ℕ := none
  sent : Option ℕ := none
  deriving DecidableEq, Repr

/-- A rotation: its flush, whether the durable barrier answers, and the clock readings of
the new file and of its header. -/
structure CommitIo where
  flush : FlushIo := {}
  barrier : Bool := true
  name : Option ℕ
  createdNs : ℕ := 0
  deriving DecidableEq, Repr

namespace Session

def disk (s : Session) : List SegmentFile := s.sealedFiles ++ [s.writer.file]

def flushAndPublish (s : Session) (io : FlushIo) : Session × Except SegmentError Unit :=
  match io.drained with
  | some n => ({ s with writer := s.writer.drain n }, .error .io)
  | none =>
      let s := { s with writer := s.writer.drain s.writer.buffer.length }
      match io.sent.filter fun n ↦ decide (n < s.pending.length) with
      | some n =>
          ({ s with queue := s.queue ++ s.pending.take n, pending := s.pending.drop n },
            .error .metadataWriterStopped)
      | none => ({ s with queue := s.queue ++ s.pending, pending := [] }, .ok ())

def rotateAfterCommit (s : Session) (cfg : Config) (io : CommitIo) :
    Session × Except SegmentError Unit :=
  if cfg.storeMaxBytes < satAdd s.writer.retainedBytes headerSize then
    (s, .error (.rotateBudget s.writer.retainedBytes headerSize cfg.storeMaxBytes))
  else match io.name with
    | none => (s, .error .io)
    | some name =>
        ({ s with
            sealedFiles := s.sealedFiles ++ [s.writer.file]
            writer := .new name io.createdNs s.writer.retainedBytes }, .ok ())

/-- The durable barrier answers once every accepted row is durable. -/
def commitAndRotate (s : Session) (cfg : Config) (io : CommitIo) :
    Session × Except SegmentError Unit :=
  match s.flushAndPublish io.flush with
  | (s, .error e) => (s, .error e)
  | (s, .ok ()) =>
      if io.barrier then
        { s with rows := s.rows ++ s.queue, queue := [] }.rotateAfterCommit cfg io
      else (s, .error .metadataWriterStopped)

end Session

/-! ## The loop -/

inductive Event where
  | record (record : ContentRecord) (rotate : CommitIo) (accepted : Option ℕ)
      (publish : FlushIo)
  | flush (io : FlushIo)
  | sealSegment (io : CommitIo) (listed : Bool)
  | timeout (io : FlushIo) (shutdown : Bool)
  | disconnected
  /-- The flush after the loop. -/
  | finish (io : FlushIo)
  /-- The buffer hands bytes to the file on its own. -/
  | drain (n : ℕ)
  /-- The metadata pipeline makes accepted rows durable. -/
  | persist (n : ℕ)
  deriving DecidableEq, Repr

inductive Outcome where
  | idle
  | wrote (offset : ℕ)
  | rejected (e : SegmentError)
  | flushed (answer : Except SegmentError Unit)
  | sealedUp (answer : Except SegmentError (List ℕ))
  deriving DecidableEq, Repr

inductive Thread where
  | looping (s : Session)
  | closing (s : Session)
  | stopped (s : Session)
  deriving DecidableEq, Repr

def Thread.session : Thread → Session
  | looping s => s
  | closing s => s
  | stopped s => s

namespace Session

variable (crc32 : Bytes → BitVec 32) (cfg : Config)

/-- `if fatal { break; }` -/
def breakIfFatal (s : Session) : Thread := if s.fatal then .closing s else .looping s

def fail (s : Session) : Session := { s with fatal := true }

def failOn {α : Type} (r : Session × Except SegmentError α) : Session :=
  match r.2 with
  | .ok _ => r.1
  | .error _ => r.1.fail

/-- A batch of index rows is published as soon as it is large enough. -/
def publishBatch (s : Session) (io : FlushIo) : Session :=
  if 512 ≤ s.pending.length then failOn (s.flushAndPublish io) else s

def rotateIfNeeded (s : Session) (encodedLen : ℕ) (io : CommitIo) :
    Session × Except SegmentError Unit :=
  if s.writer.needsRotation cfg encodedLen then
    match s.writer.checkRotationBudget cfg encodedLen with
    | .error e => (s, .error e)
    | .ok () => s.commitAndRotate cfg io
  else (s, .ok ())

/-- The first two error branches go on with the loop without looking at the flag. -/
def handleRecord (s : Session) (record : ContentRecord) (rotate : CommitIo)
    (accepted : Option ℕ) (publish : FlushIo) : Thread × Outcome :=
  match s.writer.prepareRecord cfg record with
  | .error e => (.looping s.fail, .rejected e)
  | .ok prepared =>
      match s.rotateIfNeeded cfg prepared.encodedLen rotate with
      | (s, .error e) => (.looping s.fail, .rejected e)
      | (s, .ok ()) =>
          match s.writer.writePrepared crc32 cfg record prepared accepted with
          | (w, .error e) => (breakIfFatal { s with writer := w }.fail, .rejected e)
          | (w, .ok offset) =>
              let s := { s with
                writer := w
                pending := s.pending ++ [indexRow record w.file.name offset] }
              (breakIfFatal (s.publishBatch publish), .wrote offset)

/-- `Seal`: the answer are the files other than the active one. -/
def handleSeal (s : Session) (io : CommitIo) (listed : Bool) : Thread × Outcome :=
  match s.commitAndRotate cfg io with
  | (s, .error e) => (breakIfFatal s.fail, .sealedUp (.error e))
  | (s, .ok ()) =>
      if listed then
        (breakIfFatal s, .sealedUp (.ok ((s.disk.map SegmentFile.name).filter
          (· ≠ s.writer.file.name))))
      else (breakIfFatal s.fail, .sealedUp (.error .io))

def handleTimeout (s : Session) (io : FlushIo) (shutdown : Bool) : Thread :=
  let s := if s.pending.isEmpty then s else failOn (s.flushAndPublish io)
  if shutdown then .closing s else breakIfFatal s

/-- What happens next to the thread whatever its state. -/
def drift (s : Session) : Event → Session
  | .drain n => { s with writer := s.writer.drain n }
  | .persist n => { s with rows := s.rows ++ s.queue.take n, queue := s.queue.drop n }
  | _ => s

end Session

def Thread.step (crc32 : Bytes → BitVec 32) (cfg : Config) : Thread → Event → Thread × Outcome
  | .looping s, .record r rotate accepted publish =>
      s.handleRecord crc32 cfg r rotate accepted publish
  | .looping s, .flush io =>
      let r := s.flushAndPublish io
      ((Session.failOn r).breakIfFatal, .flushed r.2)
  | .looping s, .sealSegment io listed => s.handleSeal cfg io listed
  | .looping s, .timeout io shutdown => (s.handleTimeout io shutdown, .idle)
  | .looping s, .disconnected => (.closing s, .idle)
  | .closing s, .finish io => (.stopped (s.flushAndPublish io).1, .idle)
  | .looping s, e => (.looping (s.drift e), .idle)
  | .closing s, e => (.closing (s.drift e), .idle)
  | .stopped s, e => (.stopped (s.drift e), .idle)

def Thread.after (crc32 : Bytes → BitVec 32) (cfg : Config) (t : Thread) : List Event → Thread
  | [] => t
  | e :: es => (t.step crc32 cfg e).1.after crc32 cfg es

def Thread.outcomes (crc32 : Bytes → BitVec 32) (cfg : Config) (t : Thread) :
    List Event → List Outcome
  | [] => []
  | e :: es => (t.step crc32 cfg e).2 :: (t.step crc32 cfg e).1.outcomes crc32 cfg es

/-- The records that `append` put into the queue, in order. -/
def appended (es : List Event) : List ContentRecord :=
  es.filterMap fun
    | .record r _ _ _ => some r
    | _ => none

end Bazalt.Storage
