import Bazalt.Storage.Enumeration

/-!
# Starting the storage

A process that starts opens the segment directory and makes sure that every record of the files
has an index row.  What a crash can have left without rows is in the newest file, so this file
is indexed again; a directory without the recovery marker is indexed as a whole, once.

The writer is a thread of its own.  It creates its file at any time after the directory was
opened, beside the recovery, and a start that does not index everything does not wait for it.
-/

namespace Bazalt.Storage

open Lib

/-- How far `StorageRuntime::start` has come. -/
inductive Phase where
  | down
  | opened
  /-- The full recovery, with the paths that are left. -/
  | rebuilding (paths : List Text)
  | marking
  /-- What is left is the last durable barrier. -/
  | recovered
  /-- The start has returned an error. -/
  | failed
  | started
  deriving DecidableEq, Repr

/-- A storage process and what outlives it: the segment files, the recovery marker and the rows
that are in the spool or projected.  `queue` are the rows that the start has sent. -/
structure Runtime where
  store : Store := .closed []
  marker : Bool := false
  durable : List ContentIndexRecord := []
  phase : Phase := .down
  recoverySegment : Option Text := none
  requiresFullIndexRecovery : Bool := false
  /-- The writer thread has not created its file yet. -/
  waiting : Bool := false
  queue : List ContentIndexRecord := []
  deriving DecidableEq, Repr

inductive RuntimeEvent where
  /-- `start`, to the return of `SegmentStore::open`. -/
  | openStore
  /-- `ActiveWriter::new` in the writer thread. -/
  | spawnWriter (name : Option ℕ) (createdNs : ℕ)
  /-- The flush with which the full recovery begins. -/
  | flushVisible (io : FlushIo)
  /-- `rebuild_index_path` for the next file. -/
  | index
  | durableBarrier
  | writeMarker
  /-- The metadata pipeline makes rows of the start durable. -/
  | persist (n : ℕ)
  | writer (e : Event)
  | deleteSegments (paths : List ℕ) (failing : Option ℕ)
  /-- The process ends, in a crash or after an error or a shutdown. -/
  | exit
  deriving DecidableEq, Repr

/-- The number that an event gives a new file. -/
def RuntimeEvent.newName : RuntimeEvent → Option ℕ
  | spawnWriter name _ => name
  | writer e => e.newName
  | _ => none

/-- The numbers of all files that a run asks for, in this order. -/
def newNames (es : List RuntimeEvent) : List ℕ := es.filterMap RuntimeEvent.newName

/-- What the writer does before anything is appended. -/
def Event.quiet : Event → Bool
  | .timeout _ shutdown => !shutdown
  | .drain _ => true
  | .persist _ => true
  | _ => false

namespace Runtime

/-- The rows that are in the metadata spool or projected. -/
def indexed (r : Runtime) : List ContentIndexRecord :=
  r.durable ++ match r.store with
    | .closed _ => []
    | .running t => t.session.rows

variable (crc32 : Bytes → BitVec 32) (cfg : Config) (root : Root)

/-- `SegmentStore::open` up to the writer thread: the files, and whether it succeeds. -/
def openSegments (files : List SegmentFile) : List SegmentFile × Bool :=
  match recoverLastSegmentTail crc32 root cfg.maxRecordBytes files with
  | .error _ => (files, false)
  | .ok files => (files, decide (root.directoryBytes files ≤ cfg.storeMaxBytes))

/-- The rows that are sent for the records of a file, up to the first error. -/
def rebuildIndexPath (files : List SegmentFile) (path : Text) :
    List ContentIndexRecord × Option SegmentError :=
  match files.find? fun f ↦ decide (root.path f.name = path) with
  | none => ([], some .io)
  | some f =>
      ((scanFile crc32 cfg.maxRecordBytes f.bytes).1.map fun p ↦ indexRow p.2 f.name p.1,
        (scanFile crc32 cfg.maxRecordBytes f.bytes).2)

/-- A file is indexed, and the start goes on or fails. -/
def rebuildPath (r : Runtime) (path : Text) (next : Phase) : Runtime :=
  let rebuilt := rebuildIndexPath crc32 cfg root r.store.files path
  { r with
    queue := r.queue ++ rebuilt.1
    phase := if rebuilt.2.isNone then next else .failed }

/-- The answer of the durable barrier: all rows that were sent are durable. -/
def settled (r : Runtime) (next : Phase) : Runtime :=
  { r with durable := r.durable ++ r.queue, queue := [], phase := next }

def step (r : Runtime) : RuntimeEvent → Runtime
  | .openStore =>
      match r.phase, r.store with
      | .down, .closed files =>
          let opened := openSegments crc32 cfg root files
          { r with
            store := .closed opened.1
            recoverySegment := latestSegmentPath (files.map fun f ↦ root.path f.name)
            requiresFullIndexRecovery := !r.marker
            waiting := opened.2
            phase := if opened.2 then .opened else .failed }
      | _, _ => r
  | .spawnWriter name createdNs =>
      match r.store with
      | .closed files =>
          if r.waiting then
            match name.filter (! root.taken files ·) with
            | none => { r with waiting := false }
            | some name =>
                { r with
                  waiting := false
                  store := .running (.spawned files name createdNs (root.directoryBytes files)) }
          else r
      | .running _ => r
  | .flushVisible io =>
      if r.phase = .opened ∧ r.requiresFullIndexRecovery then
        match r.store with
        | .closed _ => if r.waiting then r else { r with phase := .failed }
        | .running t =>
            let flushed := t.step crc32 cfg (.flush io)
            { r with
              store := .running flushed.1
              phase := match flushed.2 with
                | .flushed (.ok ()) => .rebuilding (listSegments
                    (flushed.1.session.disk.map fun f ↦ root.path f.name))
                | _ => .failed }
      else r
  | .index =>
      match r.phase with
      | .opened =>
          if r.requiresFullIndexRecovery then r
          else match r.recoverySegment.filter fun path ↦
              r.store.files.any fun f ↦ decide (root.path f.name = path) with
            | none => { r with phase := .recovered }
            | some path => r.rebuildPath crc32 cfg root path .recovered
      | .rebuilding (path :: paths) => r.rebuildPath crc32 cfg root path (.rebuilding paths)
      | _ => r
  | .durableBarrier =>
      match r.phase with
      | .rebuilding [] => r.settled .marking
      | .recovered => r.settled .started
      | _ => r
  | .writeMarker =>
      match r.phase with
      | .marking => { r with marker := true, phase := .recovered }
      | _ => r
  | .persist n => { r with durable := r.durable ++ r.queue.take n, queue := r.queue.drop n }
  | .writer e =>
      -- nothing is appended before the start has returned
      if r.phase = .started ∨ e.quiet then
        { r with store := r.store.step crc32 cfg root (.writer e) }
      else r
  | .deleteSegments paths failing =>
      if r.phase = .started then
        { r with store := r.store.step crc32 cfg root (.deleteSegments paths failing) }
      else r
  | .exit =>
      { r with
        store := .closed r.store.files
        durable := r.indexed
        phase := .down
        waiting := false
        queue := [] }

end Runtime

/-! ## The property -/

/-- Every record of the files has one of the rows. -/
def AllIndexed (crc32 : Bytes → BitVec 32) (m : ℕ) (rows : List ContentIndexRecord)
    (files : List SegmentFile) : Prop :=
  ∀ f ∈ files, ∀ p ∈ f.positions crc32 m, p ∈ rows.map ContentIndexRecord.position

namespace Runtime

/-- The files other than the one of the writer. -/
def older (r : Runtime) : List SegmentFile :=
  match r.store with
  | .closed files => files
  | .running t => t.session.sealedFiles

/-- Every record of every file has a row that is in the spool or projected. -/
def Consistent (crc32 : Bytes → BitVec 32) (m : ℕ) (r : Runtime) : Prop :=
  AllIndexed crc32 m r.indexed r.store.files

/-- When a process ends before its start has returned, and after its writer has created a file,
the rows of the segment that the start was to index again are durable. -/
def Sheltered (crc32 : Bytes → BitVec 32) (m : ℕ) (root : Root) (r : Runtime) (e : RuntimeEvent) :
    Prop :=
  e = .exit → r.phase ≠ .started → r.requiresFullIndexRecovery = false →
    ∀ t, r.store = .running t → ∀ f ∈ r.older, some (root.path f.name) = r.recoverySegment →
      AllIndexed crc32 m r.indexed [f]

end Runtime

end Bazalt.Storage
