import Bazalt.Lib.Run

/-!
# Metadata spool

Senders put events and barriers into a queue.  The writer takes them in batches and appends
every batch to the spool directory, one file each.  The projector inserts the files into
ClickHouse in the order of their sequence numbers and removes them.  Everything but the
directory and the database is lost when the process ends; the next one recovers its
sequence numbers from the files that it finds.

Fields that are marked as bookkeeping are not in the source; the statements need them.
Sequence numbers are natural numbers: the saturating additions of the source make no
difference before `2 ^ 64` batches.
-/

namespace Bazalt.Storage

/-- A batch of events.  Bookkeeping: `number` counts the batches in the order in which they
were renamed into place. -/
structure Batch (ε : Type) where
  number : ℕ
  events : List ε
  deriving DecidableEq, Repr

structure SpoolFile (ε : Type) where
  sequence : ℕ
  batch : Batch ε
  deriving DecidableEq, Repr

/-- The files with a sequence number, in the order of the directory. -/
abbrev Spool (ε : Type) := List (SpoolFile ε)

namespace Spool

variable {ε : Type} (spool : Spool ε)

def listEntries : List (SpoolFile ε) := spool.insertionSort fun a b ↦ a.sequence ≤ b.sequence

def maxSequence : ℕ := (spool.listEntries.getLast?.map SpoolFile.sequence).getD 0

def firstSequence : Option ℕ := spool.listEntries.head?.map SpoolFile.sequence

def file? (sequence : ℕ) : Option (SpoolFile ε) := spool.find? fun f ↦ decide (f.sequence = sequence)

/-- A rename replaces the file that has the name. -/
def rename (file : SpoolFile ε) : Spool ε :=
  spool.filter (fun f ↦ decide (f.sequence ≠ file.sequence)) ++ [file]

def remove (sequence : ℕ) : Spool ε := spool.filter fun f ↦ decide (f.sequence ≠ sequence)

end Spool

/-- A barrier that a sender waits for.  Bookkeeping: `before` are the events that were put
into the queue before it. -/
structure Barrier (ε : Type) where
  projected : Bool
  before : List ε
  deriving DecidableEq, Repr

inductive MetadataCommand (ε : Type) where
  | event (e : ε)
  | barrier (b : Barrier ε)
  deriving DecidableEq, Repr

/-- Where the writer is in its loop. -/
inductive WriterState (ε : Type) where
  | receiving
  | collecting (batch : List ε)
  | appending (batch : List ε) (barrier : Option (Barrier ε))
  /-- The append has returned. -/
  | appended (barrier : Option (Barrier ε))
  | answering (durableSequence : ℕ) (barrier : Barrier ε)
  /-- The writer has left its loop.  Bookkeeping: whether the batch of an append that failed
  is in place. -/
  | stopped (inPlace : Bool)
  deriving DecidableEq, Repr

/-- Where the projector is in its loop. -/
inductive ProjectorState (ε : Type) where
  | waiting
  | inserting (batch : Batch ε)
  | removing (batch : Batch ε)
  | removed
  /-- The projector has left its loop. -/
  | halted
  deriving DecidableEq, Repr

structure Process (ε : Type) where
  queue : List (MetadataCommand ε) := []
  writer : WriterState ε := .receiving
  nextSequence : ℕ
  durableSequenceMax : ℕ
  projectedSequence : ℕ
  projector : ProjectorState ε := .waiting
  /-- The `sequence` of the projector's loop. -/
  sequence : ℕ
  projectorAlive : Bool := true
  /-- The tasks that wait for the projector, each with its durable sequence. -/
  waiters : List (ℕ × Barrier ε) := []
  /-- Bookkeeping: the events that were put into the queue. -/
  sent : List ε := []
  /-- Bookkeeping: the batches that were in place before the process. -/
  found : ℕ
  deriving DecidableEq, Repr

structure Metadata (ε : Type) where
  spool : Spool ε := []
  /-- The batches of the successful insertions. -/
  inserted : List (Batch ε) := []
  process : Option (Process ε) := none
  /-- Bookkeeping: the batches that were renamed into place. -/
  committed : List (Batch ε) := []
  /-- Bookkeeping: the events that any process put into its queue. -/
  enqueued : List ε := []
  /-- Bookkeeping: the barriers that have returned, and whether they returned `Ok`. -/
  replies : List (Barrier ε × Bool) := []
  deriving DecidableEq, Repr

inductive AppendResult where
  | ok
  /-- The batch is in place, but the directory could not be synced. -/
  | unsynced
  | failed
  deriving DecidableEq, Repr

inductive RemoveResult where
  | ok
  /-- The file is gone, but the directory could not be synced. -/
  | unsynced
  | failed
  deriving DecidableEq, Repr

inductive MetadataStep (ε : Type) where
  | send (e : ε)
  | barrier (projected : Bool)
  | receive
  /-- The writer stops to collect: the time is over, or the batch is full. -/
  | closeBatch
  /-- The writer ends: all senders are gone, or the task that receives has failed. -/
  | stopWriter
  | append (result : AppendResult)
  | storeDurable
  | answer
  | poll (waiter : ℕ)
  | read (ok : Bool)
  | insert (ok : Bool)
  | remove (result : RemoveResult)
  | storeProjected
  /-- The projector sees the shutdown flag. -/
  | haltProjector
  | markStopped
  | crash
  | start
  deriving DecidableEq, Repr

namespace Process

variable {ε : Type}

/-- The barriers of a queue and of the batch in hand, whose senders get an error when the
writer ends. -/
def pendingBarriers (p : Process ε) : List (Barrier ε) :=
  let inHand := match p.writer with
    | .appending _ barrier => barrier.toList
    | .appended barrier => barrier.toList
    | .answering _ barrier => [barrier]
    | _ => []
  inHand ++ p.queue.filterMap fun
    | .event _ => none
    | .barrier b => some b

def receive (p : Process ε) : Process ε :=
  match p.writer, p.queue with
  | .receiving, .event e :: queue => { p with queue, writer := .collecting [e] }
  | .receiving, .barrier b :: queue => { p with queue, writer := .answering (p.nextSequence - 1) b }
  | .collecting batch, .event e :: queue =>
      if batch.length < 2048 then { p with queue, writer := .collecting (batch ++ [e]) } else p
  | .collecting batch, .barrier b :: queue =>
      if batch.length < 2048 then { p with queue, writer := .appending batch (some b) } else p
  | _, _ => p

def closeBatch (p : Process ε) : Process ε :=
  match p.writer with
  | .collecting batch => { p with writer := .appending batch none }
  | _ => p

/-- The queue is gone with its receiver. -/
def stopWriter (p : Process ε) (inPlace : Bool) : Process ε :=
  { p with queue := [], writer := .stopped inPlace }

def storeDurable (p : Process ε) : Process ε :=
  match p.writer with
  | .appended barrier => { p with
      durableSequenceMax := p.nextSequence
      nextSequence := p.nextSequence + 1
      writer := match barrier with
        | none => .receiving
        | some b => .answering p.nextSequence b }
  | _ => p

def storeProjected (p : Process ε) : Process ε :=
  match p.projector with
  | .removed => { p with
      projectedSequence := p.sequence
      sequence := p.sequence + 1
      projector := .waiting }
  | _ => p

/-- The next round of the projector: there may be nothing to do. -/
def read (p : Process ε) (spool : Spool ε) (ok : Bool) : Process ε :=
  match p.projector with
  | .waiting =>
      if p.durableSequenceMax < p.sequence then p
      else match spool.file? p.sequence with
        | none => { p with projector := .halted }
        | some file =>
            if ok then { p with projector := .inserting file.batch }
            else { p with projector := .halted }
  | _ => p

end Process

namespace Metadata

variable {ε : Type}

/-- A process starts with what it finds in the spool. -/
def start (s : Metadata ε) : Process ε :=
  let recoveredMaxSequence := s.spool.maxSequence
  { nextSequence := max (recoveredMaxSequence + 1) 1
    durableSequenceMax := recoveredMaxSequence
    projectedSequence := (s.spool.firstSequence.map (· - 1)).getD recoveredMaxSequence
    sequence := s.spool.firstSequence.getD (max (recoveredMaxSequence + 1) 1)
    found := s.committed.length }

/-- The writer ends, and with it everybody who waits for it. -/
def stopWriter (s : Metadata ε) (p : Process ε) (inPlace : Bool) : Metadata ε :=
  { s with
    process := some (p.stopWriter inPlace)
    replies := s.replies ++ p.pendingBarriers.map (·, false) }

/-- The batch is renamed into place. -/
def commit (s : Metadata ε) (p : Process ε) (events : List ε) : Metadata ε :=
  let batch : Batch ε := ⟨s.committed.length, events⟩
  { s with
    spool := s.spool.rename ⟨p.nextSequence, batch⟩
    committed := s.committed ++ [batch] }

def append (s : Metadata ε) (p : Process ε) (result : AppendResult) : Metadata ε :=
  match p.writer with
  | .appending batch barrier =>
      match result with
      | .ok => { s.commit p batch with process := some { p with writer := .appended barrier } }
      | .unsynced => (s.commit p batch).stopWriter p true
      | .failed => s.stopWriter p false
  | _ => s

def answer (s : Metadata ε) (p : Process ε) : Metadata ε :=
  match p.writer with
  | .answering durableSequence b =>
      if b.projected then { s with process := some { p with
        writer := .receiving
        waiters := p.waiters ++ [(durableSequence, b)] } }
      else { s with
        process := some { p with writer := .receiving }
        replies := s.replies ++ [(b, true)] }
  | _ => s

/-- One round of a task that waits for the projector. -/
def poll (s : Metadata ε) (p : Process ε) (i : ℕ) : Metadata ε :=
  match p.waiters[i]? with
  | none => s
  | some (durableSequence, b) =>
      if durableSequence ≤ p.projectedSequence then { s with
        process := some { p with waiters := p.waiters.eraseIdx i }
        replies := s.replies ++ [(b, true)] }
      else if p.projectorAlive then s
      else { s with
        process := some { p with waiters := p.waiters.eraseIdx i }
        replies := s.replies ++ [(b, false)] }

def insert (s : Metadata ε) (p : Process ε) (ok : Bool) : Metadata ε :=
  match p.projector with
  | .inserting batch =>
      if ok then { s with
        inserted := s.inserted ++ [batch]
        process := some { p with projector := .removing batch } }
      else s
  | _ => s

def remove (s : Metadata ε) (p : Process ε) (result : RemoveResult) : Metadata ε :=
  match p.projector with
  | .removing _ =>
      match result with
      | .ok => { s with
          spool := s.spool.remove p.sequence
          process := some { p with projector := .removed } }
      | .unsynced => { s with
          spool := s.spool.remove p.sequence
          process := some { p with projector := .halted } }
      | .failed => { s with process := some { p with projector := .halted } }
  | _ => s

/-- Sending fails when the writer has ended. -/
def send (s : Metadata ε) (p : Process ε) (e : ε) : Metadata ε :=
  match p.writer with
  | .stopped _ => s
  | _ => { s with
      process := some { p with queue := p.queue ++ [.event e], sent := p.sent ++ [e] }
      enqueued := s.enqueued ++ [e] }

def barrier (s : Metadata ε) (p : Process ε) (projected : Bool) : Metadata ε :=
  match p.writer with
  | .stopped _ => { s with replies := s.replies ++ [(⟨projected, p.sent⟩, false)] }
  | _ => { s with process := some { p with queue := p.queue ++ [.barrier ⟨projected, p.sent⟩] } }

/-- One step of one of the parties.  A step that is not possible in the state does nothing. -/
def step (s : Metadata ε) (e : MetadataStep ε) : Metadata ε :=
  match s.process with
  | none =>
      match e with
      | .start => { s with process := some s.start }
      | _ => s
  | some p =>
      match e with
      | .send e => s.send p e
      | .barrier projected => s.barrier p projected
      | .receive => { s with process := some p.receive }
      | .closeBatch => { s with process := some p.closeBatch }
      | .stopWriter =>
          match p.writer with
          | .receiving => s.stopWriter p false
          | .collecting _ => s.stopWriter p false
          | _ => s
      | .append result => s.append p result
      | .storeDurable => { s with process := some p.storeDurable }
      | .answer => s.answer p
      | .poll i => s.poll p i
      | .read ok => { s with process := some (p.read s.spool ok) }
      | .insert ok => s.insert p ok
      | .remove result => s.remove p result
      | .storeProjected => { s with process := some p.storeProjected }
      | .haltProjector =>
          match p.projector with
          | .waiting | .inserting _ => { s with process := some { p with projector := .halted } }
          | _ => s
      | .markStopped =>
          match p.projector with
          | .halted => { s with process := some { p with projectorAlive := false } }
          | _ => s
      | .crash => { s with process := none }
      | .start => s

end Metadata

end Bazalt.Storage
