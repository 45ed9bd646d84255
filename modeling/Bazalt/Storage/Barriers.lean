import Bazalt.Lib.Logs
import Bazalt.Storage.Metadata

/-!
# Metadata barriers

The files of the spool have consecutive sequence numbers, and they hold the last batches
that were renamed into place.  The batches before them are inserted, and the first of them
may be.  Everything else follows: the sequence that a barrier waits for is that of the last
batch with an event from before it.
-/

namespace Bazalt.Storage

open Lib

variable {ε : Type}

/-! ## What holds of the directory and the database -/

/-- The files have the sequences from `lo` on and hold the batches from number `r` on. -/
structure DiskOk [DecidableEq ε] (spool : Spool ε) (inserted committed : List (Batch ε))
    (lo r : ℕ) : Prop where
  positive : 1 ≤ lo
  retired : r ≤ committed.length
  sequences : spool.map SpoolFile.sequence = List.range' lo (committed.length - r)
  batches : spool.map SpoolFile.batch = committed.drop r
  numbers : committed.map Batch.number = List.range committed.length
  inserted : inserted.destutter (· ≠ ·) = committed.take r ∨
    r < committed.length ∧ inserted.destutter (· ≠ ·) = committed.take (r + 1)

/-- The events of the batches with numbers from `i` to `k`. -/
def eventsBetween (committed : List (Batch ε)) (i k : ℕ) : List ε :=
  ((committed.take k).drop i).flatMap Batch.events

/-- A barrier has returned `Ok` after all events from before it were in place, and if it
asked for it, inserted. -/
def RepliesOk (inserted committed : List (Batch ε)) (replies : List (Barrier ε × Bool)) : Prop :=
  ∀ b, (b, true) ∈ replies → ∃ i k, k ≤ committed.length ∧ b.before = eventsBetween committed i k ∧
    (b.projected = true → ∀ c ∈ committed.take k, c ∈ inserted)

/-! ## What holds of a process -/

/-- The queue holds what was sent after `acc`, and every barrier stands where it was sent. -/
def QueueOk : List ε → List (MetadataCommand ε) → List ε → Prop
  | acc, [], sent => sent = acc
  | acc, .event e :: queue, sent => QueueOk (acc ++ [e]) queue sent
  | acc, .barrier b :: queue, sent => b.before = acc ∧ QueueOk acc queue sent

/-- One if the last batch is in place and its sequence not yet stored. -/
def WriterState.unstored : WriterState ε → ℕ
  | .appended _ => 1
  | .stopped true => 1
  | _ => 0

/-- The writer has written the events `done` of its process. -/
def WriterOk (p : Process ε) (done : List ε) : Prop :=
  match p.writer with
  | .receiving => QueueOk done p.queue p.sent
  | .collecting batch => QueueOk (done ++ batch) p.queue p.sent
  | .appending batch barrier =>
      (∀ b ∈ barrier, b.before = done ++ batch) ∧ QueueOk (done ++ batch) p.queue p.sent
  | .appended barrier => (∀ b ∈ barrier, b.before = done) ∧ QueueOk done p.queue p.sent
  | .answering durableSequence b =>
      durableSequence + 1 = p.nextSequence ∧ b.before = done ∧ QueueOk done p.queue p.sent
  | .stopped _ => done <+: p.sent

/-- The projector works on the first file. -/
def ProjectorOk (inserted committed : List (Batch ε)) (p : Process ε) (lo r : ℕ) : Prop :=
  match p.projector with
  | .waiting => p.sequence = lo
  | .inserting b => p.sequence = lo ∧ committed[r]? = some b
  | .removing b => p.sequence = lo ∧ committed[r]? = some b ∧ inserted.getLast? = some b
  | .removed => p.sequence + 1 = lo
  | .halted => p.sequence ≤ lo

structure ProcessOk (inserted committed : List (Batch ε)) (p : Process ε) (lo r : ℕ) : Prop where
  next : p.nextSequence + p.writer.unstored + r = lo + committed.length
  durable : p.durableSequenceMax + 1 = p.nextSequence
  projected : p.projectedSequence + 1 = p.sequence
  found : p.found ≤ committed.length
  writer : WriterOk p (eventsBetween committed p.found committed.length)
  projector : ProjectorOk inserted committed p lo r
  /-- A waiter waits for the last batch with events from before its barrier. -/
  waiters : ∀ d b, (d, b) ∈ p.waiters → ∃ k ≤ committed.length, p.found ≤ k ∧ d + 1 + r = lo + k ∧
    b.before = eventsBetween committed p.found k

/-- What is in place was sent, in this order. -/
def OrderOk (s : Metadata ε) : Prop :=
  match s.process with
  | none => (s.committed.flatMap Batch.events).Sublist s.enqueued
  | some p => ∃ old, s.enqueued = old ++ p.sent ∧
      ((s.committed.take p.found).flatMap Batch.events).Sublist old

structure MetadataOk [DecidableEq ε] (s : Metadata ε) : Prop where
  replies : RepliesOk s.inserted s.committed s.replies
  order : OrderOk s
  numbers : ∃ lo r, DiskOk s.spool s.inserted s.committed lo r ∧
    ∀ p, s.process = some p → ProcessOk s.inserted s.committed p lo r

/-! ## Queues and events -/

theorem QueueOk.isPrefix {acc : List ε} {queue : List (MetadataCommand ε)} {sent : List ε}
    (h : QueueOk acc queue sent) : acc <+: sent := by
  induction queue generalizing acc with
  | nil => exact h ▸ List.prefix_refl _
  | cons c queue ih =>
      cases c with
      | event e => exact (List.prefix_append _ _).trans (ih h)
      | barrier b => exact ih h.2

theorem QueueOk.send {acc : List ε} {queue : List (MetadataCommand ε)} {sent : List ε}
    (h : QueueOk acc queue sent) (e : ε) : QueueOk acc (queue ++ [.event e]) (sent ++ [e]) := by
  induction queue generalizing acc with
  | nil => exact congrArg (· ++ [e]) h
  | cons c queue ih =>
      cases c with
      | event e' => exact ih h
      | barrier b => exact ⟨h.1, ih h.2⟩

theorem QueueOk.barrier {acc : List ε} {queue : List (MetadataCommand ε)} {sent : List ε}
    (h : QueueOk acc queue sent) (projected : Bool) :
    QueueOk acc (queue ++ [.barrier ⟨projected, sent⟩]) sent := by
  induction queue generalizing acc with
  | nil => exact ⟨h, h⟩
  | cons c queue ih =>
      cases c with
      | event e' => exact ih h
      | barrier b => exact ⟨h.1, ih h.2⟩

theorem WriterOk.isPrefix {p : Process ε} {done : List ε} (h : WriterOk p done) :
    done <+: p.sent := by
  unfold WriterOk at h
  split at h
  · exact h.isPrefix
  · exact (List.prefix_append _ _).trans h.isPrefix
  · exact (List.prefix_append _ _).trans h.2.isPrefix
  · exact h.2.isPrefix
  · exact h.2.2.isPrefix
  · exact h

/-- More is sent. -/
theorem WriterOk.extend {p : Process ε} {done : List ε} (h : WriterOk p done)
    {queue : List (MetadataCommand ε)} {sent : List ε} (hsent : p.sent <+: sent)
    (hqueue : ∀ acc, QueueOk acc p.queue p.sent → QueueOk acc queue sent) :
    WriterOk { p with queue, sent } done := by
  unfold WriterOk at h ⊢
  cases hw : p.writer with
  | receiving =>
      simp only [hw] at h ⊢
      exact hqueue _ h
  | collecting batch =>
      simp only [hw] at h ⊢
      exact hqueue _ h
  | appending batch barrier =>
      simp only [hw] at h ⊢
      exact ⟨h.1, hqueue _ h.2⟩
  | appended barrier =>
      simp only [hw] at h ⊢
      exact ⟨h.1, hqueue _ h.2⟩
  | answering durableSequence b =>
      simp only [hw] at h ⊢
      exact ⟨h.1, h.2.1, hqueue _ h.2.2⟩
  | stopped inPlace =>
      simp only [hw] at h ⊢
      exact h.trans hsent

theorem ProjectorOk.commit {inserted committed : List (Batch ε)} {p : Process ε} {lo r : ℕ}
    (h : ProjectorOk inserted committed p lo r) (c : Batch ε) :
    ProjectorOk inserted (committed ++ [c]) p lo r := by
  have hget : ∀ b, committed[r]? = some b → (committed ++ [c])[r]? = some b := by
    intro b hb
    rw [List.getElem?_append_left (List.getElem?_eq_some_iff.mp hb).1, hb]
  unfold ProjectorOk at h ⊢
  split at h
  · exact h
  · exact ⟨h.1, hget _ h.2⟩
  · exact ⟨h.1, hget _ h.2.1, h.2.2⟩
  · exact h
  · exact h

theorem eventsBetween_concat (committed : List (Batch ε)) (b : Batch ε) (i : ℕ) {k : ℕ}
    (hk : k ≤ committed.length) :
    eventsBetween (committed ++ [b]) i k = eventsBetween committed i k := by
  rw [eventsBetween, List.take_append_of_le_length hk, eventsBetween]

theorem eventsBetween_concat_length (committed : List (Batch ε)) (b : Batch ε) {i : ℕ}
    (hi : i ≤ committed.length) :
    eventsBetween (committed ++ [b]) i (committed ++ [b]).length =
      eventsBetween committed i committed.length ++ b.events := by
  rw [eventsBetween, List.take_length, List.drop_append_of_le_length hi, List.flatMap_append,
    eventsBetween, List.take_length]
  simp

/-! ## Files -/

namespace DiskOk

variable [DecidableEq ε] {spool : Spool ε} {inserted committed : List (Batch ε)} {lo r : ℕ}

theorem length_spool (h : DiskOk spool inserted committed lo r) :
    spool.length = committed.length - r := by
  have hlen := congrArg List.length h.sequences
  simpa using hlen

/-- The first file and the others. -/
theorem spool_eq_cons (h : DiskOk spool inserted committed lo r) {b : Batch ε}
    (hb : committed[r]? = some b) :
    ∃ rest, spool = ⟨lo, b⟩ :: rest ∧ (∀ f ∈ rest, lo < f.sequence) ∧
      rest.map SpoolFile.sequence = List.range' (lo + 1) (committed.length - (r + 1)) ∧
      rest.map SpoolFile.batch = committed.drop (r + 1) := by
  obtain ⟨hr, hget⟩ := List.getElem?_eq_some_iff.mp hb
  have hseq := h.sequences
  have hbatch := h.batches
  rw [List.drop_eq_getElem_cons hr, hget] at hbatch
  rw [show committed.length - r = committed.length - (r + 1) + 1 by omega,
    List.range'_succ] at hseq
  cases spool with
  | nil => cases hseq
  | cons f rest =>
      obtain ⟨hf, hrest⟩ := List.cons.inj hseq
      obtain ⟨hf', hrest'⟩ := List.cons.inj hbatch
      refine ⟨rest, ?_, ?_, hrest, hrest'⟩
      · rw [← hf, ← hf']
      · intro g hg
        have hmem := List.mem_map_of_mem (f := SpoolFile.sequence) hg
        rw [hrest, List.mem_range'_1] at hmem
        omega

theorem file?_first (h : DiskOk spool inserted committed lo r) {b : Batch ε}
    (hb : committed[r]? = some b) : spool.file? lo = some ⟨lo, b⟩ := by
  obtain ⟨rest, rfl, -⟩ := h.spool_eq_cons hb
  simp [Spool.file?]

theorem sequence_lt (h : DiskOk spool inserted committed lo r) {f : SpoolFile ε} (hf : f ∈ spool) :
    f.sequence < lo + (committed.length - r) := by
  have hmem := List.mem_map_of_mem (f := SpoolFile.sequence) hf
  rw [h.sequences, List.mem_range'_1] at hmem
  exact hmem.2

/-- A new batch goes to the end. -/
theorem commit (h : DiskOk spool inserted committed lo r) {sequence : ℕ}
    (hseq : sequence + r = lo + committed.length) (events : List ε) :
    DiskOk (spool.rename ⟨sequence, committed.length, events⟩) inserted
      (committed ++ [⟨committed.length, events⟩]) lo r := by
  have hr := h.retired
  have hrename : spool.rename ⟨sequence, committed.length, events⟩ =
      spool ++ [⟨sequence, committed.length, events⟩] := by
    rw [Spool.rename, List.filter_eq_self.mpr]
    intro f hf
    have hlt := h.sequence_lt hf
    simp only [ne_eq, decide_eq_true_eq]
    omega
  rw [hrename]
  refine ⟨h.positive, ?_, ?_, ?_, ?_, ?_⟩
  · rw [List.length_append]
    omega
  · have hlen : (committed ++ [(⟨committed.length, events⟩ : Batch ε)]).length - r =
        committed.length - r + 1 := by
      rw [List.length_append, List.length_singleton]
      omega
    rw [List.map_append, h.sequences, hlen, List.range'_concat, one_mul]
    simp only [List.map_cons, List.map_nil, List.append_cancel_left_eq, List.cons.injEq, and_true]
    omega
  · rw [List.map_append, h.batches, List.drop_append_of_le_length hr]
    rfl
  · rw [List.map_append, h.numbers, List.length_append, List.length_singleton, List.range_succ]
    rfl
  · rcases h.inserted with heq | ⟨hlt, heq⟩
    · exact .inl (by rw [heq, List.take_append_of_le_length hr])
    · refine .inr ⟨by rw [List.length_append]; omega, ?_⟩
      rw [heq, List.take_append_of_le_length (by omega)]

theorem number_of_getElem? (h : DiskOk spool inserted committed lo r) {k : ℕ} {b : Batch ε}
    (hb : committed[k]? = some b) : b.number = k := by
  have hnum := congrArg (fun l ↦ l[k]?) h.numbers
  obtain ⟨hlt, -⟩ := List.getElem?_eq_some_iff.mp hb
  simp only [List.getElem?_map, hb, Option.map_some, List.getElem?_range hlt,
    Option.some.injEq] at hnum
  exact hnum

/-- The batches before `r` are not the one with the number `r`. -/
theorem getLast?_ne (h : DiskOk spool inserted committed lo r) {b : Batch ε}
    (hb : committed[r]? = some b) (heq : inserted.destutter (· ≠ ·) = committed.take r) :
    inserted.getLast? ≠ some b := by
  rw [← getLast?_destutter, heq]
  intro hlast
  obtain ⟨k, hk⟩ := List.mem_iff_getElem?.mp (List.mem_of_getLast? hlast)
  obtain ⟨hlt, -⟩ := List.getElem?_eq_some_iff.mp hk
  rw [List.length_take] at hlt
  rw [List.getElem?_take_of_lt (by omega)] at hk
  have hnumber := h.number_of_getElem? hk
  have hnumber' := h.number_of_getElem? hb
  omega

/-- The first file is inserted, for the first time or again. -/
theorem insert (h : DiskOk spool inserted committed lo r) {b : Batch ε}
    (hb : committed[r]? = some b) : DiskOk spool (inserted ++ [b]) committed lo r := by
  obtain ⟨hr, hget⟩ := List.getElem?_eq_some_iff.mp hb
  refine ⟨h.positive, h.retired, h.sequences, h.batches, h.numbers, .inr ⟨hr, ?_⟩⟩
  rw [destutter_concat, List.take_succ_eq_append_getElem hr, hget]
  rcases h.inserted with heq | ⟨-, heq⟩
  · rw [if_neg (h.getLast?_ne hb heq), heq]
  · have hlast : inserted.getLast? = some b := by
      rw [← getLast?_destutter, heq, List.take_succ_eq_append_getElem hr, hget,
        List.getLast?_concat]
    rw [if_pos hlast, heq, List.take_succ_eq_append_getElem hr, hget, List.append_nil]

/-- The first file is removed after it was inserted. -/
theorem remove (h : DiskOk spool inserted committed lo r) {b : Batch ε}
    (hb : committed[r]? = some b) (hlast : inserted.getLast? = some b) :
    DiskOk (spool.remove lo) inserted committed (lo + 1) (r + 1) := by
  obtain ⟨hr, hget⟩ := List.getElem?_eq_some_iff.mp hb
  obtain ⟨rest, rfl, hlater, hseq, hbatch⟩ := h.spool_eq_cons hb
  have hremove : Spool.remove (⟨lo, b⟩ :: rest) lo = rest := by
    rw [Spool.remove, List.filter_cons_of_neg (by simp), List.filter_eq_self.mpr]
    intro f hf
    have := hlater f hf
    simp only [ne_eq, decide_eq_true_eq]
    omega
  rw [hremove]
  refine ⟨by omega, hr, hseq, hbatch, h.numbers, .inl ?_⟩
  rcases h.inserted with heq | ⟨-, heq⟩
  · exact absurd hlast (h.getLast?_ne hb heq)
  · exact heq

/-- The batches before the first file are inserted. -/
theorem inserted_of_lt (h : DiskOk spool inserted committed lo r) {k : ℕ} (hk : k ≤ r) :
    ∀ c ∈ committed.take k, c ∈ inserted := by
  intro c hc
  have hsub : ∀ k', k ≤ k' → c ∈ committed.take k' := fun k' hle ↦
    (List.take_prefix_take_left (l := committed) hle).subset hc
  rw [← mem_destutter]
  rcases h.inserted with heq | ⟨-, heq⟩
  · rw [heq]
    exact hsub r hk
  · rw [heq]
    exact hsub (r + 1) (by omega)

/-- Every batch is in a file or inserted. -/
theorem kept (h : DiskOk spool inserted committed lo r) {c : Batch ε} (hc : c ∈ committed) :
    c ∈ spool.map SpoolFile.batch ∨ c ∈ inserted := by
  rw [← List.take_append_drop r committed, List.mem_append] at hc
  rcases hc with hc | hc
  · exact .inr (h.inserted_of_lt le_rfl c hc)
  · exact .inl (h.batches ▸ hc)

/-! ## Recovery -/

theorem listEntries_eq (h : DiskOk spool inserted committed lo r) : spool.listEntries = spool := by
  refine List.Pairwise.insertionSort_eq ?_
  have hsorted : (spool.map SpoolFile.sequence).Pairwise (· ≤ ·) := by
    rw [h.sequences]
    exact List.pairwise_le_range'
  exact List.pairwise_map.mp hsorted

theorem maxSequence_of_lt (h : DiskOk spool inserted committed lo r) (hlt : r < committed.length) :
    spool.maxSequence + r + 1 = lo + committed.length := by
  have hlast : spool.getLast?.map SpoolFile.sequence =
      some (lo + (committed.length - r - 1)) := by
    rw [← List.getLast?_map, h.sequences, List.getLast?_range', if_neg (by omega)]
    exact congrArg some (by omega)
  rw [Spool.maxSequence, h.listEntries_eq, hlast, Option.getD_some]
  omega

theorem firstSequence_of_lt (h : DiskOk spool inserted committed lo r)
    (hlt : r < committed.length) : spool.firstSequence = some lo := by
  obtain ⟨rest, heq, -⟩ := h.spool_eq_cons (List.getElem?_eq_getElem hlt)
  rw [Spool.firstSequence, h.listEntries_eq, heq]
  rfl

theorem spool_eq_nil (h : DiskOk spool inserted committed lo r) (hr : r = committed.length) :
    spool = [] := by
  rw [← List.length_eq_zero_iff, h.length_spool]
  omega

/-- The sequence of the first file to come is free as long as there is none. -/
theorem of_empty (h : DiskOk spool inserted committed lo r) (hr : r = committed.length) :
    DiskOk spool inserted committed 1 r := by
  refine ⟨le_rfl, h.retired, ?_, h.batches, h.numbers, h.inserted⟩
  rw [h.sequences, hr, Nat.sub_self]
  rfl

end DiskOk

/-- A process that starts finds its place. -/
theorem processOk_start [DecidableEq ε] {s : Metadata ε} {lo r : ℕ}
    (h : DiskOk s.spool s.inserted s.committed lo r) : ∃ lo',
    DiskOk s.spool s.inserted s.committed lo' r ∧
      ProcessOk s.inserted s.committed s.start lo' r := by
  have hr := h.retired
  have hevents : eventsBetween s.committed s.committed.length s.committed.length = [] := by
    simp [eventsBetween]
  rcases Nat.lt_or_ge r s.committed.length with hlt | hge
  · have hmax := h.maxSequence_of_lt hlt
    have hfirst := h.firstSequence_of_lt hlt
    have hlo := h.positive
    refine ⟨lo, h, ?_, ?_, ?_, le_rfl, ?_, ?_, ?_⟩
    · simp only [Metadata.start, WriterState.unstored]
      omega
    · simp only [Metadata.start]
      omega
    · simp only [Metadata.start, hfirst, Option.map_some, Option.getD_some]
      omega
    · exact hevents.symm
    · simp only [ProjectorOk, Metadata.start, hfirst, Option.getD_some]
    · intro d b hmem
      cases hmem
  · have hend : r = s.committed.length := by omega
    have hnil := h.spool_eq_nil hend
    have hmax : s.spool.maxSequence = 0 := by rw [hnil]; rfl
    have hfirst : s.spool.firstSequence = none := by rw [hnil]; rfl
    refine ⟨1, h.of_empty hend, ?_, ?_, ?_, le_rfl, ?_, ?_, ?_⟩
    · simp only [Metadata.start, hmax, WriterState.unstored]
      omega
    · simp only [Metadata.start, hmax]
      omega
    · simp only [Metadata.start, hmax, hfirst, Option.map_none, Option.getD_none]
      omega
    · exact hevents.symm
    · simp only [ProjectorOk, Metadata.start, hmax, hfirst, Option.getD_none]
      omega
    · intro d b hmem
      cases hmem

/-! ## Steps of a process -/

namespace Process

variable (p : Process ε)

theorem receive_logs : p.receive.sent = p.sent ∧ p.receive.found = p.found := by
  unfold receive
  split
  · exact ⟨rfl, rfl⟩
  · exact ⟨rfl, rfl⟩
  · split_ifs <;> exact ⟨rfl, rfl⟩
  · split_ifs <;> exact ⟨rfl, rfl⟩
  · exact ⟨rfl, rfl⟩

theorem closeBatch_logs : p.closeBatch.sent = p.sent ∧ p.closeBatch.found = p.found := by
  unfold closeBatch
  split <;> exact ⟨rfl, rfl⟩

theorem storeDurable_logs : p.storeDurable.sent = p.sent ∧ p.storeDurable.found = p.found := by
  unfold storeDurable
  split <;> exact ⟨rfl, rfl⟩

theorem storeProjected_logs :
    p.storeProjected.sent = p.sent ∧ p.storeProjected.found = p.found := by
  unfold storeProjected
  split <;> exact ⟨rfl, rfl⟩

theorem read_logs (spool : Spool ε) (ok : Bool) :
    (p.read spool ok).sent = p.sent ∧ (p.read spool ok).found = p.found := by
  unfold read
  split
  · split_ifs
    · exact ⟨rfl, rfl⟩
    · split <;> exact ⟨rfl, rfl⟩
    · split <;> exact ⟨rfl, rfl⟩
  · exact ⟨rfl, rfl⟩

end Process

namespace ProcessOk

variable {inserted committed : List (Batch ε)} {p : Process ε} {lo r : ℕ}

theorem receive (h : ProcessOk inserted committed p lo r) :
    ProcessOk inserted committed p.receive lo r := by
  have hwriter := h.writer
  have hnext := h.next
  have hdurable := h.durable
  unfold WriterOk at hwriter
  unfold Process.receive
  split
  · rename_i hw hq
    simp only [hw, hq] at hwriter hnext
    exact ⟨hnext, hdurable, h.projected, h.found, hwriter, h.projector, h.waiters⟩
  · rename_i hw hq
    simp only [hw, hq] at hwriter hnext
    refine ⟨hnext, hdurable, h.projected, h.found, ⟨?_, hwriter⟩, h.projector, h.waiters⟩
    simp only
    omega
  · rename_i hw hq
    split_ifs
    · simp only [hw, hq, QueueOk, List.append_assoc] at hwriter hnext
      exact ⟨hnext, hdurable, h.projected, h.found, hwriter, h.projector, h.waiters⟩
    · exact h
  · rename_i hw hq
    split_ifs
    · simp only [hw, hq] at hwriter hnext
      refine ⟨hnext, hdurable, h.projected, h.found, ⟨?_, hwriter.2⟩, h.projector, h.waiters⟩
      intro b hb
      obtain rfl := Option.mem_some_iff.mp hb
      exact hwriter.1
    · exact h
  · exact h

theorem closeBatch (h : ProcessOk inserted committed p lo r) :
    ProcessOk inserted committed p.closeBatch lo r := by
  have hwriter := h.writer
  have hnext := h.next
  unfold WriterOk at hwriter
  unfold Process.closeBatch
  split
  · rename_i hw
    simp only [hw] at hwriter hnext
    exact ⟨hnext, h.durable, h.projected, h.found, ⟨by simp, hwriter⟩, h.projector, h.waiters⟩
  · exact h

theorem stopWriter (h : ProcessOk inserted committed p lo r) {inPlace : Bool}
    (hstored : p.writer.unstored = (WriterState.stopped inPlace : WriterState ε).unstored) :
    ProcessOk inserted committed (p.stopWriter inPlace) lo r := by
  have hnext := h.next
  rw [hstored] at hnext
  exact ⟨hnext, h.durable, h.projected, h.found, h.writer.isPrefix, h.projector, h.waiters⟩

theorem storeDurable (h : ProcessOk inserted committed p lo r) :
    ProcessOk inserted committed p.storeDurable lo r := by
  have hwriter := h.writer
  have hnext := h.next
  unfold WriterOk at hwriter
  unfold Process.storeDurable
  split
  · rename_i barrier hw
    simp only [hw, WriterState.unstored] at hwriter hnext
    cases barrier with
    | none =>
        refine ⟨?_, rfl, h.projected, h.found, hwriter.2, h.projector, h.waiters⟩
        simp only [WriterState.unstored]
        omega
    | some b =>
        refine ⟨?_, rfl, h.projected, h.found, ⟨rfl, hwriter.1 b rfl, hwriter.2⟩, h.projector,
          h.waiters⟩
        simp only [WriterState.unstored]
        omega
  · exact h

theorem storeProjected (h : ProcessOk inserted committed p lo r) :
    ProcessOk inserted committed p.storeProjected lo r := by
  have hproj := h.projector
  unfold ProjectorOk at hproj
  unfold Process.storeProjected
  split
  · rename_i hpr
    simp only [hpr] at hproj
    exact ⟨h.next, h.durable, rfl, h.found, h.writer, hproj, h.waiters⟩
  · exact h

theorem halt (h : ProcessOk inserted committed p lo r) (hle : p.sequence ≤ lo) :
    ProcessOk inserted committed { p with projector := .halted } lo r :=
  ⟨h.next, h.durable, h.projected, h.found, h.writer, hle, h.waiters⟩

theorem sequence_le (h : ProcessOk inserted committed p lo r) : p.sequence ≤ lo := by
  have hproj := h.projector
  unfold ProjectorOk at hproj
  split at hproj <;> omega

/-- The projector never finds its file missing: a stored sequence is in place. -/
theorem read [DecidableEq ε] {spool : Spool ε} (hdisk : DiskOk spool inserted committed lo r)
    (h : ProcessOk inserted committed p lo r) (ok : Bool) :
    ProcessOk inserted committed (p.read spool ok) lo r := by
  have hproj := h.projector
  have hnext := h.next
  have hdurable := h.durable
  unfold ProjectorOk at hproj
  unfold Process.read
  split
  · rename_i hpr
    simp only [hpr] at hproj
    by_cases hnone : p.durableSequenceMax < p.sequence
    · rw [if_pos hnone]
      exact h
    · have hlt : r < committed.length := by omega
      have hfile : spool.file? p.sequence = some ⟨lo, committed.get ⟨r, hlt⟩⟩ := by
        rw [hproj]
        exact hdisk.file?_first (List.getElem?_eq_getElem hlt)
      rw [if_neg hnone, hfile]
      cases ok with
      | true => exact ⟨hnext, hdurable, h.projected, h.found, h.writer,
          ⟨hproj, List.getElem?_eq_getElem hlt⟩, h.waiters⟩
      | false => exact h.halt hproj.le
  · exact h

end ProcessOk

/-! ## Steps of the whole -/

theorem RepliesOk.failed {inserted committed : List (Batch ε)} {replies : List (Barrier ε × Bool)}
    (h : RepliesOk inserted committed replies) (bs : List (Barrier ε)) :
    RepliesOk inserted committed (replies ++ bs.map (·, false)) := by
  intro b hb
  refine h b ?_
  simpa using hb

theorem RepliesOk.concat {inserted committed : List (Batch ε)} {replies : List (Barrier ε × Bool)}
    (h : RepliesOk inserted committed replies) {b : Barrier ε} {i k : ℕ} (hk : k ≤ committed.length)
    (hb : b.before = eventsBetween committed i k)
    (hins : b.projected = true → ∀ c ∈ committed.take k, c ∈ inserted) :
    RepliesOk inserted committed (replies ++ [(b, true)]) := by
  intro b' hmem
  rcases List.mem_append.mp hmem with hmem | hmem
  · exact h b' hmem
  · obtain rfl : b' = b := by simpa using hmem
    exact ⟨i, k, hk, hb, hins⟩

namespace MetadataOk

variable [DecidableEq ε] {s : Metadata ε} {p : Process ε}

/-- Steps within the process. -/
theorem setProcess (h : MetadataOk s) (hp : s.process = some p) {p' : Process ε}
    (hsent : p'.sent = p.sent) (hfound : p'.found = p.found)
    (hok : ∀ lo r, DiskOk s.spool s.inserted s.committed lo r →
      ProcessOk s.inserted s.committed p lo r → ProcessOk s.inserted s.committed p' lo r) :
    MetadataOk { s with process := some p' } := by
  obtain ⟨lo, r, hdisk, hproc⟩ := h.numbers
  have horder := h.order
  simp only [OrderOk, hp] at horder
  refine ⟨h.replies, ?_, lo, r, hdisk, ?_⟩
  · simpa only [OrderOk, hsent, hfound] using horder
  · intro q hq
    obtain rfl := Option.some.inj hq
    exact hok lo r hdisk (hproc p hp)

theorem setReplies (h : MetadataOk s) {replies : List (Barrier ε × Bool)}
    (hr : RepliesOk s.inserted s.committed replies) : MetadataOk { s with replies } :=
  ⟨hr, h.order, h.numbers⟩

theorem send (h : MetadataOk s) (hp : s.process = some p) (e : ε) : MetadataOk (s.send p e) := by
  obtain ⟨lo, r, hdisk, hproc⟩ := h.numbers
  have hok := hproc p hp
  have hwriter := hok.writer
  have horder := h.order
  simp only [OrderOk, hp] at horder
  obtain ⟨old, henq, hold⟩ := horder
  unfold Metadata.send
  split
  · exact h
  · rename_i hlive
    refine ⟨h.replies, ⟨old, ?_, hold⟩, lo, r, hdisk, ?_⟩
    · simp only [henq, List.append_assoc]
    · intro q hq
      obtain rfl := Option.some.inj hq
      exact ⟨hok.next, hok.durable, hok.projected, hok.found,
        hok.writer.extend (List.prefix_append _ _) fun acc hq ↦ hq.send e, hok.projector,
        hok.waiters⟩

theorem barrier (h : MetadataOk s) (hp : s.process = some p) (projected : Bool) :
    MetadataOk (s.barrier p projected) := by
  unfold Metadata.barrier
  split
  · exact h.setReplies (h.replies.failed [_])
  · refine h.setProcess hp rfl rfl fun lo r _ hok ↦ ?_
    exact ⟨hok.next, hok.durable, hok.projected, hok.found,
      hok.writer.extend (List.prefix_refl _) fun acc hq ↦ hq.barrier projected, hok.projector,
      hok.waiters⟩

theorem stopWriter (h : MetadataOk s) (hp : s.process = some p) {inPlace : Bool}
    (hstored : p.writer.unstored = (WriterState.stopped inPlace : WriterState ε).unstored) :
    MetadataOk (s.stopWriter p inPlace) :=
  (h.setReplies (h.replies.failed p.pendingBarriers)).setProcess hp rfl rfl
    fun _ _ _ hok ↦ hok.stopWriter hstored

/-- A batch is renamed into place. -/
theorem commit (h : MetadataOk s) (hp : s.process = some p) {batch : List ε}
    {barrier : Option (Barrier ε)} (hw : p.writer = .appending batch barrier)
    {writer : WriterState ε} (hstored : writer.unstored = 1)
    {queue : List (MetadataCommand ε)}
    (hok : WriterOk { p with writer, queue }
      (eventsBetween s.committed p.found s.committed.length ++ batch)) :
    MetadataOk { s.commit p batch with process := some { p with writer, queue } } := by
  obtain ⟨lo, r, hdisk, hproc⟩ := h.numbers
  have hprocess := hproc p hp
  have hnext := hprocess.next
  have hfound := hprocess.found
  simp only [hw, WriterState.unstored] at hnext
  have horder := h.order
  simp only [OrderOk, hp] at horder
  obtain ⟨old, henq, hold⟩ := horder
  refine ⟨?_, ⟨old, henq, ?_⟩, lo, r, hdisk.commit (by omega) batch, ?_⟩
  · intro b hb
    obtain ⟨i, k, hk, hbefore, hins⟩ := h.replies b hb
    refine ⟨i, k, ?_, ?_, ?_⟩
    · simp only [Metadata.commit, List.length_append]
      omega
    · rw [hbefore]
      exact (eventsBetween_concat _ _ _ hk).symm
    · simp only [Metadata.commit, List.take_append_of_le_length hk]
      exact hins
  · simp only [Metadata.commit, List.take_append_of_le_length hfound]
    exact hold
  · intro q hq
    obtain rfl := Option.some.inj hq
    refine ⟨?_, hprocess.durable, hprocess.projected, ?_, ?_, ?_, ?_⟩
    · simp only [hstored, Metadata.commit, List.length_append, List.length_singleton]
      omega
    · simp only [Metadata.commit, List.length_append]
      omega
    · have hevents := eventsBetween_concat_length s.committed ⟨s.committed.length, batch⟩ hfound
      simp only [Metadata.commit, hevents]
      exact hok
    · exact ProjectorOk.commit hprocess.projector _
    · intro d b hmem
      obtain ⟨k, hk, hfrom, hd, hb⟩ := hprocess.waiters d b hmem
      refine ⟨k, ?_, hfrom, hd, ?_⟩
      · simp only [Metadata.commit, List.length_append]
        omega
      · rw [hb]
        exact (eventsBetween_concat _ _ _ hk).symm

theorem append (h : MetadataOk s) (hp : s.process = some p) (result : AppendResult) :
    MetadataOk (s.append p result) := by
  unfold Metadata.append
  split
  · rename_i batch barrier hw
    obtain ⟨lo, r, -, hproc⟩ := h.numbers
    have hwriter := (hproc p hp).writer
    simp only [WriterOk, hw] at hwriter
    cases result with
    | ok => exact h.commit hp hw rfl hwriter
    | unsynced =>
        have hcommit : MetadataOk { s.commit p batch with process := some (p.stopWriter true) } :=
          h.commit hp hw rfl hwriter.2.isPrefix
        exact hcommit.setReplies (hcommit.replies.failed _)
    | failed => exact h.stopWriter hp (by rw [hw]; rfl)
  · exact h

theorem answer (h : MetadataOk s) (hp : s.process = some p) : MetadataOk (s.answer p) := by
  unfold Metadata.answer
  split
  · rename_i durableSequence b hw
    obtain ⟨lo, r, -, hproc⟩ := h.numbers
    have hwriter := (hproc p hp).writer
    simp only [WriterOk, hw] at hwriter
    obtain ⟨hseq, hbefore, hqueue⟩ := hwriter
    have hreceiving : ∀ waiters, (∀ lo r, ProcessOk s.inserted s.committed p lo r →
        ∀ d c, (d, c) ∈ waiters → ∃ k ≤ s.committed.length, p.found ≤ k ∧ d + 1 + r = lo + k ∧
          c.before = eventsBetween s.committed p.found k) →
        MetadataOk { s with process := some { p with writer := .receiving, waiters } } := by
      intro waiters hwaiters
      refine h.setProcess hp rfl rfl fun lo r _ hok ↦ ?_
      have hnext := hok.next
      simp only [hw, WriterState.unstored] at hnext
      exact ⟨hnext, hok.durable, hok.projected, hok.found, hqueue, hok.projector,
        hwaiters lo r hok⟩
    split_ifs with hprojected
    · refine hreceiving _ fun lo r hok d c hmem ↦ ?_
      rcases List.mem_append.mp hmem with hmem | hmem
      · exact hok.waiters d c hmem
      · obtain ⟨rfl, rfl⟩ : d = durableSequence ∧ c = b := by simpa using hmem
        have hnext := hok.next
        simp only [hw, WriterState.unstored] at hnext
        exact ⟨_, le_rfl, hok.found, by omega, hbefore⟩
    · have hdone := hreceiving p.waiters fun lo r hok ↦ hok.waiters
      exact hdone.setReplies (h.replies.concat le_rfl hbefore fun htrue ↦ absurd htrue hprojected)
  · exact h

/-- A waiter that sees its sequence projected: the batches up to it are inserted. -/
theorem poll (h : MetadataOk s) (hp : s.process = some p) (i : ℕ) : MetadataOk (s.poll p i) := by
  have herase : MetadataOk { s with process := some { p with waiters := p.waiters.eraseIdx i } } :=
    h.setProcess hp rfl rfl fun lo r _ hok ↦ ⟨hok.next, hok.durable, hok.projected, hok.found,
      hok.writer, hok.projector, fun d b hmem ↦ hok.waiters d b (List.mem_of_mem_eraseIdx hmem)⟩
  unfold Metadata.poll
  split
  · exact h
  · rename_i durableSequence b hget
    split_ifs with hle halive
    · obtain ⟨lo, r, hdisk, hproc⟩ := h.numbers
      have hok := hproc p hp
      have hprojected := hok.projected
      have hseq := hok.sequence_le
      obtain ⟨k, hk, -, hd, hbefore⟩ := hok.waiters _ _ (List.mem_of_getElem? hget)
      exact herase.setReplies (h.replies.concat hk hbefore fun _ ↦ hdisk.inserted_of_lt (by omega))
    · exact h
    · exact herase.setReplies (h.replies.failed [b])

theorem insert (h : MetadataOk s) (hp : s.process = some p) (ok : Bool) :
    MetadataOk (s.insert p ok) := by
  unfold Metadata.insert
  split
  · rename_i batch hpr
    split_ifs
    · obtain ⟨lo, r, hdisk, hproc⟩ := h.numbers
      have hok := hproc p hp
      have hproj := hok.projector
      simp only [ProjectorOk, hpr] at hproj
      have horder := h.order
      simp only [OrderOk, hp] at horder
      refine ⟨?_, horder, lo, r, hdisk.insert hproj.2, ?_⟩
      · intro b hb
        obtain ⟨i, k, hk, hbefore, hins⟩ := h.replies b hb
        exact ⟨i, k, hk, hbefore, fun htrue c hc ↦ List.mem_append_left _ (hins htrue c hc)⟩
      · intro q hq
        obtain rfl := Option.some.inj hq
        exact ⟨hok.next, hok.durable, hok.projected, hok.found, hok.writer,
          ⟨hproj.1, hproj.2, List.getLast?_concat⟩, hok.waiters⟩
    · exact h
  · exact h

/-- The projector removes the first file. -/
theorem removed (h : MetadataOk s) (hp : s.process = some p) {b : Batch ε}
    (hpr : p.projector = .removing b) {projector : ProjectorState ε}
    (hstate : projector = .removed ∨ projector = .halted) :
    MetadataOk { s with
      spool := s.spool.remove p.sequence
      process := some { p with projector } } := by
  obtain ⟨lo, r, hdisk, hproc⟩ := h.numbers
  have hok := hproc p hp
  have hproj := hok.projector
  simp only [ProjectorOk, hpr] at hproj
  obtain ⟨hseq, hb, hlast⟩ := hproj
  have horder := h.order
  simp only [OrderOk, hp] at horder
  have hnext := hok.next
  refine ⟨h.replies, horder, lo + 1, r + 1, hseq ▸ hdisk.remove hb hlast, ?_⟩
  intro q hq
  obtain rfl := Option.some.inj hq
  refine ⟨?_, hok.durable, hok.projected, hok.found, hok.writer, ?_, ?_⟩
  · simp only
    omega
  · rcases hstate with rfl | rfl
    · simp only [ProjectorOk, hseq]
    · simp only [ProjectorOk, hseq]
      omega
  · intro d c hmem
    obtain ⟨k, hk, hfrom, hd, hbefore⟩ := hok.waiters d c hmem
    exact ⟨k, hk, hfrom, by omega, hbefore⟩

theorem remove (h : MetadataOk s) (hp : s.process = some p) (result : RemoveResult) :
    MetadataOk (s.remove p result) := by
  unfold Metadata.remove
  split
  · rename_i b hpr
    cases result with
    | ok => exact h.removed hp hpr (.inl rfl)
    | unsynced => exact h.removed hp hpr (.inr rfl)
    | failed => exact h.setProcess hp rfl rfl fun lo r _ hok ↦ hok.halt hok.sequence_le
  · exact h

theorem crash (h : MetadataOk s) (hp : s.process = some p) :
    MetadataOk { s with process := none } := by
  obtain ⟨lo, r, hdisk, hproc⟩ := h.numbers
  have hdone := (hproc p hp).writer.isPrefix
  have horder := h.order
  simp only [OrderOk, hp] at horder
  obtain ⟨old, henq, hold⟩ := horder
  refine ⟨h.replies, ?_, lo, r, hdisk, fun q hq ↦ by cases hq⟩
  rw [eventsBetween, List.take_length] at hdone
  simp only [OrderOk, henq]
  rw [← List.take_append_drop p.found s.committed, List.flatMap_append]
  exact hold.append hdone.sublist

theorem start (h : MetadataOk s) (hp : s.process = none) :
    MetadataOk { s with process := some s.start } := by
  obtain ⟨lo, r, hdisk, -⟩ := h.numbers
  obtain ⟨lo', hdisk', hproc⟩ := processOk_start hdisk
  have horder := h.order
  simp only [OrderOk, hp] at horder
  refine ⟨h.replies, ⟨s.enqueued, by simp [Metadata.start], ?_⟩, lo', r, hdisk', ?_⟩
  · simpa [Metadata.start] using horder
  · intro q hq
    obtain rfl := Option.some.inj hq
    exact hproc

/-- Every step keeps the invariant. -/
theorem step (h : MetadataOk s) (e : MetadataStep ε) : MetadataOk (s.step e) := by
  unfold Metadata.step
  cases hp : s.process with
  | none =>
      cases e with
      | start => exact h.start hp
      | _ => exact h
  | some p =>
      cases e with
      | send e => exact h.send hp e
      | barrier projected => exact h.barrier hp projected
      | receive =>
          exact h.setProcess hp p.receive_logs.1 p.receive_logs.2 fun _ _ _ hok ↦ hok.receive
      | closeBatch =>
          exact h.setProcess hp p.closeBatch_logs.1 p.closeBatch_logs.2 fun _ _ _ hok ↦ hok.closeBatch
      | stopWriter =>
          simp only
          split
          · rename_i hw
            exact h.stopWriter hp (by rw [hw]; rfl)
          · rename_i hw
            exact h.stopWriter hp (by rw [hw]; rfl)
          · exact h
      | append result => exact h.append hp result
      | storeDurable =>
          exact h.setProcess hp p.storeDurable_logs.1 p.storeDurable_logs.2
            fun _ _ _ hok ↦ hok.storeDurable
      | answer => exact h.answer hp
      | poll i => exact h.poll hp i
      | read ok =>
          exact h.setProcess hp (p.read_logs _ ok).1 (p.read_logs _ ok).2
            fun _ _ hdisk hok ↦ hok.read hdisk ok
      | insert ok => exact h.insert hp ok
      | remove result => exact h.remove hp result
      | storeProjected =>
          exact h.setProcess hp p.storeProjected_logs.1 p.storeProjected_logs.2
            fun _ _ _ hok ↦ hok.storeProjected
      | haltProjector =>
          simp only
          split
          · exact h.setProcess hp rfl rfl fun _ _ _ hok ↦ hok.halt hok.sequence_le
          · exact h.setProcess hp rfl rfl fun _ _ _ hok ↦ hok.halt hok.sequence_le
          · exact h
      | markStopped =>
          simp only
          split
          · exact h.setProcess hp rfl rfl fun _ _ _ hok ↦ ⟨hok.next, hok.durable, hok.projected,
              hok.found, hok.writer, hok.projector, hok.waiters⟩
          · exact h
      | crash => exact h.crash hp
      | start => exact h

end MetadataOk

theorem metadataOk_empty [DecidableEq ε] : MetadataOk ({} : Metadata ε) where
  replies := fun b hb ↦ by cases hb
  order := List.Sublist.slnil
  numbers := ⟨1, 0, ⟨le_rfl, le_rfl, rfl, rfl, rfl, .inl rfl⟩, fun p hp ↦ by cases hp⟩

theorem metadataOk_run [DecidableEq ε] (es : List (MetadataStep ε)) :
    MetadataOk (runFrom Metadata.step {} es) :=
  invariant_runFrom_of_step (I := MetadataOk) (fun _ e h ↦ h.step e) es metadataOk_empty

/-! ## The protocol -/

/-- The events from before the barrier are in batches that are in place or inserted. -/
def Metadata.Durable (s : Metadata ε) (b : Barrier ε) : Prop :=
  ∃ batches, batches <:+: s.committed ∧ batches.flatMap Batch.events = b.before ∧
    ∀ c ∈ batches, c ∈ s.spool.map SpoolFile.batch ∨ c ∈ s.inserted

/-- The events from before the barrier are in batches that are inserted. -/
def Metadata.Projected (s : Metadata ε) (b : Barrier ε) : Prop :=
  ∃ batches, batches <:+: s.committed ∧ batches.flatMap Batch.events = b.before ∧
    ∀ c ∈ batches, c ∈ s.inserted

/-- Insertions, with repetitions collapsed, are the batches in the order in which they were
renamed into place, up to those that are still in the spool.  This is the order in which
their events were sent. -/
def Metadata.InOrder [DecidableEq ε] (s : Metadata ε) : Prop :=
  (∃ m, s.inserted.destutter (· ≠ ·) = s.committed.take m ∧
    ∀ c ∈ s.committed.drop m, c ∈ s.spool.map SpoolFile.batch) ∧
  (s.committed.flatMap Batch.events).Sublist s.enqueued ∧
  ∀ p, s.process = some p → (s.committed.drop p.found).flatMap Batch.events <+: p.sent

theorem eventsBetween_isInfix (committed : List (Batch ε)) (i k : ℕ) :
    (committed.take k).drop i <:+: committed :=
  (List.drop_suffix _ _).isInfix.trans (List.take_prefix _ _).isInfix

/-- What a step does to the directory. -/
theorem spool_step (s : Metadata ε) (e : MetadataStep ε) : (s.step e).spool = s.spool ∨
    ∃ p, s.process = some p ∧
      ((∃ batch barrier, p.writer = .appending batch barrier ∧ (s.step e).spool =
          s.spool.rename ⟨p.nextSequence, s.committed.length, batch⟩) ∨
        (∃ b, p.projector = .removing b ∧ (s.step e).spool = s.spool.remove p.sequence)) := by
  unfold Metadata.step
  cases hp : s.process with
  | none => cases e <;> exact .inl rfl
  | some p =>
      cases e with
      | send e =>
          left
          simp only [Metadata.send]
          split <;> rfl
      | barrier projected =>
          left
          simp only [Metadata.barrier]
          split <;> rfl
      | stopWriter =>
          left
          simp only
          split <;> rfl
      | append result =>
          simp only [Metadata.append]
          split
          · rename_i batch barrier hw
            cases result with
            | ok => exact .inr ⟨p, rfl, .inl ⟨batch, barrier, hw, rfl⟩⟩
            | unsynced => exact .inr ⟨p, rfl, .inl ⟨batch, barrier, hw, rfl⟩⟩
            | failed => exact .inl rfl
          · exact .inl rfl
      | answer =>
          left
          simp only [Metadata.answer]
          split
          · split_ifs <;> rfl
          · rfl
      | poll i =>
          left
          simp only [Metadata.poll]
          split
          · rfl
          · split_ifs <;> rfl
      | insert ok =>
          left
          simp only [Metadata.insert]
          split
          · split_ifs <;> rfl
          · rfl
      | remove result =>
          simp only [Metadata.remove]
          split
          · rename_i b hpr
            cases result with
            | ok => exact .inr ⟨p, rfl, .inr ⟨b, hpr, rfl⟩⟩
            | unsynced => exact .inr ⟨p, rfl, .inr ⟨b, hpr, rfl⟩⟩
            | failed => exact .inl rfl
          · exact .inl rfl
      | haltProjector =>
          left
          simp only
          split <;> rfl
      | markStopped =>
          left
          simp only
          split <;> rfl
      | _ => exact .inl rfl

/-- What is in place stays so, and what is sent too as long as the process runs. -/
def Metadata.Extends (s : Metadata ε) (p : Process ε) (s' : Metadata ε) : Prop :=
  s.committed <+: s'.committed ∧ ∃ p', s'.process = some p' ∧ p.sent <+: p'.sent

section

variable {s : Metadata ε} {p : Process ε}

theorem extends_of_eq {s' : Metadata ε} (hcommitted : s'.committed = s.committed) {p' : Process ε}
    (hp' : s'.process = some p') (hsent : p'.sent = p.sent) : s.Extends p s' :=
  ⟨hcommitted ▸ List.prefix_refl _, p', hp', hsent ▸ List.prefix_refl _⟩

theorem extends_append (hp : s.process = some p) (result : AppendResult) :
    s.Extends p (s.append p result) := by
  unfold Metadata.append
  split
  · cases result with
    | ok => exact ⟨List.prefix_append _ _, _, rfl, List.prefix_refl _⟩
    | unsynced => exact ⟨List.prefix_append _ _, _, rfl, List.prefix_refl _⟩
    | failed => exact extends_of_eq rfl rfl rfl
  · exact extends_of_eq rfl hp rfl

theorem extends_send (hp : s.process = some p) (e : ε) : s.Extends p (s.send p e) := by
  unfold Metadata.send
  split
  · exact extends_of_eq rfl hp rfl
  · exact ⟨List.prefix_refl _, _, rfl, List.prefix_append _ _⟩

theorem extends_step (hp : s.process = some p) {e : MetadataStep ε} (he : e ≠ .crash) :
    s.Extends p (s.step e) := by
  unfold Metadata.step
  simp only [hp]
  cases e with
  | send e => exact extends_send hp e
  | barrier projected =>
      simp only [Metadata.barrier]
      split
      · exact extends_of_eq rfl hp rfl
      · exact extends_of_eq rfl rfl rfl
  | receive => exact extends_of_eq rfl rfl p.receive_logs.1
  | closeBatch => exact extends_of_eq rfl rfl p.closeBatch_logs.1
  | stopWriter =>
      simp only
      split
      · exact extends_of_eq rfl rfl rfl
      · exact extends_of_eq rfl rfl rfl
      · exact extends_of_eq rfl hp rfl
  | append result => exact extends_append hp result
  | storeDurable => exact extends_of_eq rfl rfl p.storeDurable_logs.1
  | answer =>
      simp only [Metadata.answer]
      split
      · split_ifs <;> exact extends_of_eq rfl rfl rfl
      · exact extends_of_eq rfl hp rfl
  | poll i =>
      simp only [Metadata.poll]
      split
      · exact extends_of_eq rfl hp rfl
      · split_ifs
        · exact extends_of_eq rfl rfl rfl
        · exact extends_of_eq rfl hp rfl
        · exact extends_of_eq rfl rfl rfl
  | read ok => exact extends_of_eq rfl rfl (p.read_logs _ ok).1
  | insert ok =>
      simp only [Metadata.insert]
      split
      · split_ifs
        · exact extends_of_eq rfl rfl rfl
        · exact extends_of_eq rfl hp rfl
      · exact extends_of_eq rfl hp rfl
  | remove result =>
      simp only [Metadata.remove]
      split
      · cases result <;> exact extends_of_eq rfl rfl rfl
      · exact extends_of_eq rfl hp rfl
  | storeProjected => exact extends_of_eq rfl rfl p.storeProjected_logs.1
  | haltProjector =>
      simp only
      split
      · exact extends_of_eq rfl rfl rfl
      · exact extends_of_eq rfl rfl rfl
      · exact extends_of_eq rfl hp rfl
  | markStopped =>
      simp only
      split
      · exact extends_of_eq rfl rfl rfl
      · exact extends_of_eq rfl hp rfl
  | crash => exact absurd rfl he
  | start => exact extends_of_eq rfl hp rfl

end

theorem committed_step (s : Metadata ε) (e : MetadataStep ε) :
    s.committed <+: (s.step e).committed := by
  cases hp : s.process with
  | none =>
      unfold Metadata.step
      simp only [hp]
      cases e <;> exact List.prefix_refl _
  | some p =>
      by_cases he : e = .crash
      · subst he
        unfold Metadata.step
        simp only [hp]
        exact List.prefix_refl _
      · exact (extends_step hp he).1

section

variable [DecidableEq ε] {s : Metadata ε}

theorem MetadataOk.durable (h : MetadataOk s) {b : Barrier ε} (hb : (b, true) ∈ s.replies) :
    s.Durable b := by
  obtain ⟨lo, r, hdisk, -⟩ := h.numbers
  obtain ⟨i, k, -, hbefore, -⟩ := h.replies b hb
  refine ⟨_, eventsBetween_isInfix s.committed i k, hbefore.symm, fun c hc ↦ ?_⟩
  exact hdisk.kept ((eventsBetween_isInfix s.committed i k).subset hc)

theorem MetadataOk.projected (h : MetadataOk s) {b : Barrier ε} (hb : (b, true) ∈ s.replies)
    (hp : b.projected = true) : s.Projected b := by
  obtain ⟨i, k, -, hbefore, hins⟩ := h.replies b hb
  exact ⟨_, eventsBetween_isInfix s.committed i k, hbefore.symm,
    fun c hc ↦ hins hp c (List.mem_of_mem_drop hc)⟩

theorem MetadataOk.inOrder (h : MetadataOk s) : s.InOrder := by
  obtain ⟨lo, r, hdisk, hproc⟩ := h.numbers
  refine ⟨?_, ?_, ?_⟩
  · rcases hdisk.inserted with heq | ⟨-, heq⟩
    · exact ⟨r, heq, fun c hc ↦ hdisk.batches ▸ hc⟩
    · refine ⟨r + 1, heq, fun c hc ↦ hdisk.batches ▸ ?_⟩
      rw [← List.drop_drop] at hc
      exact List.mem_of_mem_drop hc
  · cases hp : s.process with
    | none => simpa [OrderOk, hp] using h.order
    | some p => exact (h.crash hp).order
  · intro p hp
    have hdone := (hproc p hp).writer.isPrefix
    rwa [eventsBetween, List.take_length] at hdone

theorem MetadataOk.removed_inserted (h : MetadataOk s) {e : MetadataStep ε} {f : SpoolFile ε}
    (hf : f ∈ s.spool) (hgone : f ∉ (s.step e).spool) : f.batch ∈ s.inserted := by
  obtain ⟨lo, r, hdisk, hproc⟩ := h.numbers
  rcases spool_step s e with heq | ⟨p, hp, ⟨batch, barrier, hw, heq⟩ | ⟨b, hpr, heq⟩⟩
  · exact absurd (heq ▸ hf) hgone
  · -- a new file has a new name
    have hnext := (hproc p hp).next
    have hlt := hdisk.sequence_lt hf
    have hr := hdisk.retired
    simp only [hw, WriterState.unstored] at hnext
    refine absurd ?_ hgone
    rw [heq, Spool.rename, List.mem_append, List.mem_filter]
    refine .inl ⟨hf, ?_⟩
    simp only [ne_eq, decide_eq_true_eq]
    omega
  · have hproj := (hproc p hp).projector
    simp only [ProjectorOk, hpr] at hproj
    obtain ⟨hseq, hb, hlast⟩ := hproj
    obtain ⟨rest, hspool, hlater, -⟩ := hdisk.spool_eq_cons hb
    rw [hspool] at hf
    rcases List.mem_cons.mp hf with rfl | hrest
    · exact List.mem_of_getLast? hlast
    · refine absurd ?_ hgone
      have hlt := hlater f hrest
      rw [heq, Spool.remove, List.mem_filter, hspool]
      refine ⟨hf, ?_⟩
      simp only [ne_eq, decide_eq_true_eq]
      omega

end

/-- In every run of senders, writer, projector and restarts: a barrier that has returned
`Ok` has its events in place or, if it asked for it, inserted; files are removed after they
were inserted; their sequences are consecutive; and batches are inserted in order. -/
theorem metadata_protocol [DecidableEq ε] (es : List (MetadataStep ε)) :
    let s : Metadata ε := runFrom Metadata.step {} es
    (∀ b, (b, true) ∈ s.replies → s.Durable b) ∧
    (∀ b, (b, true) ∈ s.replies → b.projected = true → s.Projected b) ∧
    (∀ e f, f ∈ s.spool → f ∉ (s.step e).spool → f.batch ∈ s.inserted) ∧
    (∃ lo, s.spool.map SpoolFile.sequence = List.range' lo s.spool.length) ∧
    s.InOrder := by
  intro s
  have h : MetadataOk s := metadataOk_run es
  refine ⟨fun b hb ↦ h.durable hb, fun b hb hp ↦ h.projected hb hp,
    fun e f hf hgone ↦ h.removed_inserted hf hgone, ?_, h.inOrder⟩
  obtain ⟨lo, r, hdisk, -⟩ := h.numbers
  exact ⟨lo, hdisk.length_spool ▸ hdisk.sequences⟩

/-- A batch is inserted, and again after a restart that found its file. -/
example :
    let s : Metadata ℕ := runFrom Metadata.step {} [.start, .send 1, .send 2, .barrier false,
      .receive, .receive, .receive, .append .ok, .storeDurable, .answer, .read true, .insert true,
      .crash, .start, .barrier true, .receive, .answer, .read true, .insert false, .insert true,
      .poll 0, .remove .ok, .storeProjected, .poll 0]
    s.replies = [(⟨false, [1, 2]⟩, true), (⟨true, []⟩, true)] ∧
      s.inserted = [⟨0, [1, 2]⟩, ⟨0, [1, 2]⟩] ∧ s.spool = [] := by
  decide

end Bazalt.Storage
