import Bazalt.Storage.Enumeration
import Bazalt.Storage.Projection

/-!
# Retention

A cleanup seals the active segment, selects the sealed files whose records are all older
than its cutoff, waits for the metadata pipeline, deletes the rows before the cutoff from the
database and then the files.  Records are appended and rows projected meanwhile, and a
cleanup can fail and the process end at every step.

The guard that keeps two cleanups apart is dropped with the request, while the task that it
waits for runs on; so the model has any number of cleanups at once.  An insertion takes
effect, if at all, before it returns: in part when it fails.
-/

namespace Bazalt.Storage

open Lib

inductive MetadataEvent where
  | contentIndex (row : ContentIndexRecord)
  /-- A flow, an HTTP message or a match. -/
  | other (id : ℕ)
  deriving DecidableEq, Repr

def MetadataEvent.row? : MetadataEvent → Option ContentIndexRecord
  | contentIndex row => some row
  | other _ => none

/-- How far a cleanup is. -/
inductive Cleanup where
  | sealing (cutoff : ℕ)
  /-- The `paths` are still to be scanned. -/
  | selecting (cutoff : ℕ) (paths chosen : List ℕ)
  /-- The barrier was sent when the process had sent `before` and had `mark` answers. -/
  | waiting (cutoff : ℕ) (chosen : List ℕ) (before : List MetadataEvent) (mark : ℕ)
  | mutating (cutoff : ℕ) (chosen : List ℕ)
  | deleting (cutoff : ℕ) (chosen : List ℕ)
  deriving DecidableEq, Repr

structure Node where
  store : Store := .closed []
  metadata : Metadata MetadataEvent := {}
  /-- The rows of the table in the database. -/
  contentIndex : List ContentIndexRecord := []
  /-- The rows that the start of the process has still to send, and whether it goes on then. -/
  recovering : Option (List ContentIndexRecord × Bool) := none
  jobs : List Cleanup := []
  /-- Bookkeeping: the names of all files that were asked for. -/
  used : List ℕ := []
  /-- Bookkeeping: the deleted files, with the cutoffs of their cleanups. -/
  deleted : List (SegmentFile × ℕ) := []
  deriving DecidableEq, Repr

inductive NodeStep where
  /-- `SegmentStore::open` in the start of a process; `full` if the recovery marker is not
  there. -/
  | openStore (name : Option ℕ) (createdNs : ℕ) (full : Bool)
  /-- The start of the process sends the next row that it recovers. -/
  | recover
  | writer (e : Event)
  /-- A step of the metadata pipeline other than an insertion, or another sender. -/
  | metadata (e : MetadataStep MetadataEvent)
  /-- An insertion; `kept` rows are in the table when it fails. -/
  | insert (ok : Bool) (kept : ℕ)
  | request (cutoff : ℕ)
  | sealSegments (job : ℕ) (io : CommitIo) (listed : Bool)
  | select (job : ℕ)
  | barrier (job : ℕ)
  | answer (job : ℕ)
  /-- `delete_before` can fail after the rows are deleted. -/
  | deleteBefore (job : ℕ) (applied ok : Bool)
  | deleteSegment (job : ℕ) (ok : Bool)
  /-- A cleanup fails. -/
  | abort (job : ℕ)
  /-- The process ends. -/
  | crash
  deriving DecidableEq, Repr

section

variable (crc32 : Bytes → BitVec 32) (m : ℕ)

/-- The rows that `rebuild_index_path` sends for a file, up to the first error. -/
def SegmentFile.indexRows (f : SegmentFile) : List ContentIndexRecord :=
  (scanFile crc32 m f.bytes).1.map fun p ↦ indexRow p.2 f.name p.1

/-- Whether `retention_candidates` takes the file. -/
def SegmentFile.candidate (f : SegmentFile) (cutoff : ℕ) : Except SegmentError Bool :=
  match scanFile crc32 m f.bytes with
  | (_, some e) => .error e
  | (records, none) =>
      .ok (decide (records.length = 0 ∨
        records.foldl (fun newest r ↦ max newest r.2.tsNs) 0 < cutoff))

/-- The files that the start of a process indexes again: all, or the one that had the
greatest name before, if it is still there.  A new active file has no records. -/
def Root.recoveryFiles (root : Root) (before after : List SegmentFile) (full : Bool) :
    List SegmentFile :=
  let paths := if full then listSegments (after.map fun f ↦ root.path f.name)
    else (latestSegmentPath (before.map fun f ↦ root.path f.name)).toList
  paths.filterMap fun path ↦ after.find? fun f ↦ decide (root.path f.name = path)

/-- The rows of the files, up to the first file that cannot be read, and whether there is
none. -/
def recoveryRows : List SegmentFile → List ContentIndexRecord × Bool
  | [] => ([], true)
  | f :: files =>
      if (scanFile crc32 m f.bytes).2.isSome then (f.indexRows crc32 m, false)
      else
        let rest := recoveryRows files
        (f.indexRows crc32 m ++ rest.1, rest.2)

end

namespace Node

variable (crc32 : Bytes → BitVec 32) (cfg : Config) (root : Root)

def setJob (node : Node) (i : ℕ) (job : Cleanup) : Node :=
  { node with jobs := node.jobs.set i job }

def dropJob (node : Node) (i : ℕ) : Node := { node with jobs := node.jobs.eraseIdx i }

def crash (node : Node) : Node :=
  { node with
    store := node.store.step crc32 cfg root .exit
    metadata := node.metadata.step .crash
    recovering := none
    jobs := [] }

/-- A step of the writer, whose rows go to the metadata pipeline.  It cannot send rows to a
pipeline that has ended. -/
def command (node : Node) (e : Event) : Node × Outcome :=
  match node.store with
  | .closed _ => (node, .idle)
  | .running t =>
      let r := t.step crc32 cfg (e.createNew (root.taken t.session.disk))
      let rows := r.1.session.sent.drop t.session.sent.length
      if rows = [] ∨ node.metadata.accepts then
        ({ node with
            store := .running r.1
            metadata := node.metadata.sendAll (rows.map .contentIndex)
            used := node.used ++ e.newName.toList }, r.2)
      else (node, .idle)

def openStore (node : Node) (name : Option ℕ) (createdNs : ℕ) (full : Bool) : Node :=
  match node.store, node.metadata.process with
  | .closed files, some _ =>
      let node := { node with
        store := Store.openStore crc32 cfg root files name createdNs
        used := node.used ++ name.toList }
      match node.store with
      | .closed _ => node
      | .running t => { node with
          recovering := some (recoveryRows crc32 cfg.maxRecordBytes
            (root.recoveryFiles files t.session.sealedFiles full)) }
  | _, _ => node

def recover (node : Node) : Node :=
  match node.recovering with
  | none => node
  | some (row :: rows, ok) =>
      if node.metadata.accepts then { node with
        metadata := node.metadata.sendAll [.contentIndex row]
        recovering := some (rows, ok) }
      else node.crash crc32 cfg root
  | some ([], true) => { node with recovering := none }
  | some ([], false) => node.crash crc32 cfg root

/-- The rows of content records come from the writer and the recovery. -/
def ofPipeline : MetadataStep MetadataEvent → Bool
  | .send (.contentIndex _) => false
  | .insert _ => false
  | .crash => false
  | _ => true

def insert (node : Node) (ok : Bool) (kept : ℕ) : Node :=
  match node.metadata.process.map Process.projector with
  | some (.inserting b) =>
      let rows := b.events.filterMap MetadataEvent.row?
      { node with
        contentIndex := node.contentIndex ++ if ok then rows else rows.take kept
        metadata := node.metadata.step (.insert ok) }
  | _ => node

def select (node : Node) (i : ℕ) : Node :=
  match node.jobs[i]? with
  | some (.selecting cutoff (path :: paths) chosen) =>
      match node.store.files.find? fun f ↦ decide (root.path f.name = root.path path) with
      | none => node.dropJob i
      | some f =>
          match f.candidate crc32 cfg.maxRecordBytes cutoff with
          | .error _ => node.dropJob i
          | .ok true => node.setJob i (.selecting cutoff paths (chosen ++ [path]))
          | .ok false => node.setJob i (.selecting cutoff paths chosen)
  | _ => node

def barrier (node : Node) (i : ℕ) : Node :=
  match node.jobs[i]?, node.metadata.process with
  | some (.selecting cutoff [] chosen), some p =>
      if node.metadata.accepts then
        { node with metadata := node.metadata.step (.barrier true) }.setJob i
          (.waiting cutoff chosen p.sent node.metadata.replies.length)
      else node.dropJob i
  | _, _ => node

def answer (node : Node) (i : ℕ) : Node :=
  match node.jobs[i]? with
  | some (.waiting cutoff chosen before mark) =>
      if (⟨true, before⟩, true) ∈ node.metadata.replies.drop mark then
        node.setJob i (.mutating cutoff chosen)
      else if (⟨true, before⟩, false) ∈ node.metadata.replies.drop mark then node.dropJob i
      else node
  | _ => node

def deleteBefore (node : Node) (i : ℕ) (applied ok : Bool) : Node :=
  match node.jobs[i]? with
  | some (.mutating cutoff chosen) =>
      let node := if applied || ok then
        { node with contentIndex := node.contentIndex.filter fun row ↦ decide (cutoff ≤ row.tsNs) }
        else node
      if ok then node.setJob i (.deleting cutoff chosen) else node.dropJob i
  | _ => node

/-- One round of `delete_segments`. -/
def deleteSegment (node : Node) (i : ℕ) (ok : Bool) : Node :=
  match node.jobs[i]? with
  | some (.deleting cutoff (path :: paths)) =>
      if ok && root.taken node.store.files path then
        let gone := node.store.files.filter fun f ↦ decide (root.path f.name = root.path path)
        { node with
          store := node.store.step crc32 cfg root (.deleteSegments [path] none)
          deleted := node.deleted ++ gone.map (·, cutoff) }.setJob i (.deleting cutoff paths)
      else node.dropJob i
  | some (.deleting _ []) => node.dropJob i
  | _ => node

def sealSegments (node : Node) (i : ℕ) (io : CommitIo) (listed : Bool) : Node :=
  match node.jobs[i]? with
  | some (.sealing cutoff) =>
      match node.command crc32 cfg root (.sealSegment io listed) with
      | (node, .sealedUp (.ok paths)) => node.setJob i (.selecting cutoff paths [])
      | (node, _) => node.dropJob i
  | _ => node

def step (node : Node) : NodeStep → Node
  | .openStore name createdNs full => node.openStore crc32 cfg root name createdNs full
  | .recover => node.recover crc32 cfg root
  | .writer e => (node.command crc32 cfg root e).1
  | .metadata e =>
      if ofPipeline e then { node with metadata := node.metadata.step e } else node
  | .insert ok kept => node.insert ok kept
  | .request cutoff =>
      match node.store, node.recovering with
      | .running _, none => { node with jobs := node.jobs ++ [.sealing cutoff] }
      | _, _ => node
  | .sealSegments job io listed => node.sealSegments crc32 cfg root job io listed
  | .select job => node.select crc32 cfg root job
  | .barrier job => node.barrier job
  | .answer job => node.answer job
  | .deleteBefore job applied ok => node.deleteBefore job applied ok
  | .deleteSegment job ok => node.deleteSegment crc32 cfg root job ok
  | .abort job => node.dropJob job
  | .crash => node.crash crc32 cfg root

end Node

end Bazalt.Storage
