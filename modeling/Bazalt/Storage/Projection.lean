import Bazalt.Storage.Barriers

/-!
# What is on its way to the database

An event is alive from when it is sent until its file is removed from the spool or the
process loses it.  Only sending makes an event alive.  When a barrier that asked for it has
returned, only events that were sent after it are alive, even those of earlier processes
are gone.
-/

namespace Bazalt.Storage

open Lib

variable {ε : Type}

/-- The events in a queue. -/
def queued (queue : List (MetadataCommand ε)) : List ε :=
  queue.filterMap fun
    | .event e => some e
    | .barrier _ => none

/-- The events that the process holds.  A writer that has ended takes the queue with it. -/
def Process.inHand (p : Process ε) : List ε :=
  match p.writer with
  | .stopped _ => []
  | .collecting batch => batch ++ queued p.queue
  | .appending batch _ => batch ++ queued p.queue
  | _ => queued p.queue

/-- The events that can still be inserted. -/
def Metadata.live (s : Metadata ε) : List ε :=
  s.spool.flatMap (fun f ↦ f.batch.events) ++ (s.process.map Process.inHand).getD []

section

variable {s : Metadata ε} {p : Process ε} {e : ε}

theorem mem_live : e ∈ s.live ↔
    (∃ f ∈ s.spool, e ∈ f.batch.events) ∨ ∃ p, s.process = some p ∧ e ∈ p.inHand := by
  rw [Metadata.live, List.mem_append, List.mem_flatMap]
  cases s.process with
  | none => simp
  | some p => simp

/-- A step that keeps the spool and adds nothing to the process. -/
theorem live_setProcess {s' : Metadata ε} {p' : Process ε} (hp : s.process = some p)
    (hspool : ∀ f ∈ s'.spool, f ∈ s.spool) (hp' : s'.process = some p')
    (hhand : ∀ e ∈ p'.inHand, e ∈ p.inHand) : ∀ e ∈ s'.live, e ∈ s.live := by
  intro e he
  rw [mem_live] at he ⊢
  rcases he with ⟨f, hf, he⟩ | ⟨q, hq, he⟩
  · exact .inl ⟨f, hspool f hf, he⟩
  · obtain rfl := Option.some.inj (hp'.symm.trans hq)
    exact .inr ⟨p, hp, hhand e he⟩

namespace Process

theorem inHand_receive (p : Process ε) : p.receive.inHand = p.inHand := by
  unfold receive
  split
  · next hw hq => simp [inHand, queued, hw, hq]
  · next hw hq => simp [inHand, queued, hw, hq]
  · next hw hq =>
      split_ifs
      · simp [inHand, queued, hw, hq]
      · rfl
  · next hw hq =>
      split_ifs
      · simp [inHand, queued, hw, hq]
      · rfl
  · rfl

theorem inHand_closeBatch (p : Process ε) : p.closeBatch.inHand = p.inHand := by
  unfold closeBatch
  split
  · next hw => simp [inHand, hw]
  · rfl

theorem inHand_storeDurable (p : Process ε) : p.storeDurable.inHand = p.inHand := by
  unfold storeDurable
  split
  · next barrier hw =>
      cases barrier with
      | none => simp [inHand, hw]
      | some b => simp [inHand, hw]
  · rfl

theorem inHand_storeProjected (p : Process ε) : p.storeProjected.inHand = p.inHand := by
  unfold storeProjected
  split <;> rfl

theorem inHand_read (p : Process ε) (spool : Spool ε) (ok : Bool) :
    (p.read spool ok).inHand = p.inHand := by
  unfold read
  split
  · by_cases hlt : p.durableSequenceMax < p.sequence
    · rw [if_pos hlt]
    · rw [if_neg hlt]
      split
      · rfl
      · split_ifs <;> rfl
  · rfl

theorem inHand_stopWriter (p : Process ε) (inPlace : Bool) : (p.stopWriter inPlace).inHand = [] :=
  rfl

end Process

theorem live_stopWriter (hp : s.process = some p) (inPlace : Bool) :
    ∀ e ∈ (s.stopWriter p inPlace).live, e ∈ s.live :=
  live_setProcess hp (fun _ hf ↦ hf) rfl fun e he ↦ by
    rw [Process.inHand_stopWriter] at he
    cases he

/-- A batch that is renamed into place was in hand. -/
theorem live_commit (hp : s.process = some p) {batch : List ε} {barrier : Option (Barrier ε)}
    (hw : p.writer = .appending batch barrier) {s' : Metadata ε} {p' : Process ε}
    (hspool : s'.spool = (s.commit p batch).spool) (hp' : s'.process = some p')
    (hhand : ∀ e ∈ p'.inHand, e ∈ p.inHand) : ∀ e ∈ s'.live, e ∈ s.live := by
  have hbatch : ∀ e ∈ batch, e ∈ p.inHand := by
    intro e he
    simp [Process.inHand, hw, he]
  intro e he
  rw [mem_live] at he ⊢
  rcases he with ⟨f, hf, he⟩ | ⟨q, hq, he⟩
  · rw [hspool, Metadata.commit, Spool.rename, List.mem_append, List.mem_filter,
      List.mem_singleton] at hf
    rcases hf with ⟨hf, -⟩ | rfl
    · exact .inl ⟨f, hf, he⟩
    · exact .inr ⟨p, hp, hbatch e he⟩
  · obtain rfl := Option.some.inj (hp'.symm.trans hq)
    exact .inr ⟨p, hp, hhand e he⟩

theorem live_append (hp : s.process = some p) (result : AppendResult) :
    ∀ e ∈ (s.append p result).live, e ∈ s.live := by
  unfold Metadata.append
  split
  · next batch barrier hw =>
      cases result with
      | ok =>
          refine live_commit hp hw rfl rfl fun e he ↦ ?_
          simp only [Process.inHand, hw] at he ⊢
          exact List.mem_append_right _ he
      | unsynced =>
          refine live_commit hp hw rfl rfl fun e he ↦ ?_
          rw [Process.inHand_stopWriter] at he
          cases he
      | failed => exact live_stopWriter hp false
  · exact fun e he ↦ he

theorem live_answer (hp : s.process = some p) : ∀ e ∈ (s.answer p).live, e ∈ s.live := by
  unfold Metadata.answer
  split
  · next d b hw =>
      split_ifs
      · exact live_setProcess hp (fun _ hf ↦ hf) rfl fun e he ↦ by simpa [Process.inHand, hw] using he
      · exact live_setProcess hp (fun _ hf ↦ hf) rfl fun e he ↦ by simpa [Process.inHand, hw] using he
  · exact fun e he ↦ he

theorem live_poll (hp : s.process = some p) (i : ℕ) : ∀ e ∈ (s.poll p i).live, e ∈ s.live := by
  unfold Metadata.poll
  split
  · exact fun e he ↦ he
  · split_ifs
    · exact live_setProcess hp (fun _ hf ↦ hf) rfl fun e he ↦ he
    · exact fun e he ↦ he
    · exact live_setProcess hp (fun _ hf ↦ hf) rfl fun e he ↦ he

theorem live_insert (hp : s.process = some p) (ok : Bool) :
    ∀ e ∈ (s.insert p ok).live, e ∈ s.live := by
  unfold Metadata.insert
  split
  · split_ifs
    · exact live_setProcess hp (fun _ hf ↦ hf) rfl fun e he ↦ he
    · exact fun e he ↦ he
  · exact fun e he ↦ he

theorem live_remove (hp : s.process = some p) (result : RemoveResult) :
    ∀ e ∈ (s.remove p result).live, e ∈ s.live := by
  unfold Metadata.remove
  split
  · cases result with
    | ok => exact live_setProcess hp (fun f hf ↦ List.mem_of_mem_filter hf) rfl fun e he ↦ he
    | unsynced => exact live_setProcess hp (fun f hf ↦ List.mem_of_mem_filter hf) rfl fun e he ↦ he
    | failed => exact live_setProcess hp (fun _ hf ↦ hf) rfl fun e he ↦ he
  · exact fun e he ↦ he

theorem live_barrier (hp : s.process = some p) (projected : Bool) :
    ∀ e ∈ (s.barrier p projected).live, e ∈ s.live := by
  unfold Metadata.barrier
  split
  · exact fun e he ↦ he
  · refine live_setProcess hp (fun _ hf ↦ hf) rfl fun e he ↦ ?_
    have hqueue : queued (p.queue ++ [.barrier ⟨projected, p.sent⟩]) = queued p.queue := by
      simp [queued]
    simpa only [Process.inHand, hqueue] using he

theorem live_send (hp : s.process = some p) (a : ε) :
    ∀ e ∈ (s.send p a).live, e ∈ s.live ∨ e = a := by
  unfold Metadata.send
  split
  · exact fun e he ↦ .inl he
  · intro e he
    rcases mem_live.mp he with hspool | ⟨q, hq, he⟩
    · exact .inl (mem_live.mpr (.inl hspool))
    · obtain rfl := Option.some.inj hq
      have hqueue : queued (p.queue ++ [.event a]) = queued p.queue ++ [a] := by
        simp [queued]
      have hhand : e ∈ p.inHand ∨ e = a := by
        simp only [Process.inHand, hqueue] at he ⊢
        split at he
        · cases he
        · simpa [or_assoc] using he
        · simpa [or_assoc] using he
        · simpa using he
      rcases hhand with he | he
      · exact .inl (mem_live.mpr (.inr ⟨p, hp, he⟩))
      · exact .inr he

/-- Only sending makes an event alive. -/
theorem live_step (s : Metadata ε) (a : MetadataStep ε) :
    ∀ e ∈ (s.step a).live, e ∈ s.live ∨ a = .send e := by
  have hsame : ∀ {p p' : Process ε}, s.process = some p → p'.inHand = p.inHand →
      ∀ e ∈ ({ s with process := some p' } : Metadata ε).live, e ∈ s.live :=
    fun hp hhand ↦ live_setProcess hp (fun _ hf ↦ hf) rfl fun e he ↦ hhand ▸ he
  unfold Metadata.step
  cases hp : s.process with
  | none =>
      cases a with
      | start =>
          intro e he
          refine .inl (mem_live.mpr ?_)
          rcases mem_live.mp he with hspool | ⟨q, hq, he⟩
          · exact .inl hspool
          · obtain rfl := Option.some.inj hq
            cases he
      | _ => exact fun e he ↦ .inl he
  | some p =>
      cases a with
      | send a =>
          intro e he
          rcases live_send hp a e he with he | rfl
          · exact .inl he
          · exact .inr rfl
      | barrier projected => exact fun e he ↦ .inl (live_barrier hp projected e he)
      | receive => exact fun e he ↦ .inl (hsame hp p.inHand_receive e he)
      | closeBatch => exact fun e he ↦ .inl (hsame hp p.inHand_closeBatch e he)
      | stopWriter =>
          refine fun e he ↦ .inl ?_
          revert he
          simp only
          split
          · exact live_stopWriter hp false e
          · exact live_stopWriter hp false e
          · exact fun he ↦ he
      | append result => exact fun e he ↦ .inl (live_append hp result e he)
      | storeDurable => exact fun e he ↦ .inl (hsame hp p.inHand_storeDurable e he)
      | answer => exact fun e he ↦ .inl (live_answer hp e he)
      | poll i => exact fun e he ↦ .inl (live_poll hp i e he)
      | read ok => exact fun e he ↦ .inl (hsame hp (p.inHand_read _ ok) e he)
      | insert ok => exact fun e he ↦ .inl (live_insert hp ok e he)
      | remove result => exact fun e he ↦ .inl (live_remove hp result e he)
      | storeProjected => exact fun e he ↦ .inl (hsame hp p.inHand_storeProjected e he)
      | haltProjector =>
          refine fun e he ↦ .inl ?_
          revert he
          simp only
          split
          · exact fun he ↦ hsame hp rfl e he
          · exact fun he ↦ hsame hp rfl e he
          · exact fun he ↦ he
      | markStopped =>
          refine fun e he ↦ .inl ?_
          revert he
          simp only
          split
          · exact fun he ↦ hsame hp rfl e he
          · exact fun he ↦ he
      | crash =>
          refine fun e he ↦ .inl (mem_live.mpr ?_)
          rcases mem_live.mp he with hspool | ⟨q, hq, he⟩
          · exact .inl hspool
          · cases hq
      | start => exact fun e he ↦ .inl he

/-! ## What is inserted, and what a barrier leaves -/

theorem MetadataOk.inserting_live [DecidableEq ε] (h : MetadataOk s) (hp : s.process = some p)
    {b : Batch ε} (hprojector : p.projector = .inserting b) : ∀ e ∈ b.events, e ∈ s.live := by
  intro e he
  obtain ⟨lo, r, hdisk, hprocess⟩ := h.numbers
  have hproj := (hprocess p hp).projector
  simp only [ProjectorOk, hprojector] at hproj
  obtain ⟨hr, hb⟩ := List.getElem?_eq_some_iff.mp hproj.2
  have hmem : b ∈ s.spool.map SpoolFile.batch := by
    rw [hdisk.batches, List.drop_eq_getElem_cons hr, hb]
    exact List.mem_cons_self
  obtain ⟨f, hf, rfl⟩ := List.mem_map.mp hmem
  exact mem_live.mpr (.inl ⟨f, hf, he⟩)

theorem QueueOk.sent_eq {acc : List ε} {queue : List (MetadataCommand ε)} {sent : List ε}
    (h : QueueOk acc queue sent) : sent = acc ++ queued queue := by
  induction queue generalizing acc with
  | nil =>
      rw [queued, List.filterMap_nil, List.append_nil]
      exact h
  | cons c queue ih =>
      cases c with
      | event e =>
          rw [ih h]
          simp [queued]
      | barrier b => exact ih h.2

/-- What was sent is in place or in hand, or lost with the writer. -/
theorem WriterOk.isPrefix_inHand {done : List ε} (h : WriterOk p done) :
    done ++ p.inHand <+: p.sent := by
  have hqueue : ∀ {acc : List ε}, QueueOk acc p.queue p.sent → acc ++ queued p.queue <+: p.sent :=
    fun hq ↦ hq.sent_eq ▸ List.prefix_refl _
  unfold WriterOk at h
  unfold Process.inHand
  cases hw : p.writer with
  | receiving =>
      simp only [hw] at h ⊢
      exact hqueue h
  | collecting batch =>
      simp only [hw] at h ⊢
      rw [← List.append_assoc]
      exact hqueue h
  | appending batch barrier =>
      simp only [hw] at h ⊢
      rw [← List.append_assoc]
      exact hqueue h.2
  | appended barrier =>
      simp only [hw] at h ⊢
      exact hqueue h.2
  | answering d b =>
      simp only [hw] at h ⊢
      exact hqueue h.2.2
  | stopped inPlace =>
      simp only [hw] at h ⊢
      rw [List.append_nil]
      exact h

theorem eventsBetween_append (committed : List (Batch ε)) {i k n : ℕ} (hik : i ≤ k) (hkn : k ≤ n) :
    eventsBetween committed i n = eventsBetween committed i k ++ eventsBetween committed k n := by
  have htake : (committed.take n).take k = committed.take k := by
    rw [List.take_take, min_eq_left hkn]
  have hdrop : ((committed.take n).drop i).drop (k - i) = (committed.take n).drop k := by
    rw [List.drop_drop, Nat.add_sub_cancel' hik]
  have hsplit := List.take_append_drop (k - i) ((committed.take n).drop i)
  rw [hdrop, List.take_drop, Nat.add_sub_cancel' hik, htake] at hsplit
  rw [eventsBetween, ← hsplit, List.flatMap_append]
  rfl

/-- When the batches with the events `before` are removed, only later events are alive. -/
theorem live_of_removed [DecidableEq ε] {lo r k : ℕ}
    (hdisk : DiskOk s.spool s.inserted s.committed lo r)
    (hprocess : ProcessOk s.inserted s.committed p lo r) (hp : s.process = some p)
    (hfound : p.found ≤ k) (hk : k ≤ r) :
    ∀ e ∈ s.live, e ∈ p.sent.drop (eventsBetween s.committed p.found k).length := by
  have hr := hdisk.retired
  obtain ⟨lost, hsent⟩ := hprocess.writer.isPrefix_inHand
  have hlater : p.sent.drop (eventsBetween s.committed p.found k).length =
      eventsBetween s.committed k s.committed.length ++ p.inHand ++ lost := by
    rw [← hsent, eventsBetween_append s.committed hfound (hk.trans hr), List.append_assoc,
      List.append_assoc, List.drop_left, List.append_assoc]
  rw [hlater]
  intro e he
  refine List.mem_append_left _ (List.mem_append.mpr ?_)
  rcases mem_live.mp he with ⟨f, hf, he⟩ | ⟨q, hq, he⟩
  · left
    have hmem : f.batch ∈ s.committed.drop r := hdisk.batches ▸ List.mem_map_of_mem hf
    rw [eventsBetween_append s.committed hk hr, List.mem_append]
    right
    rw [eventsBetween, List.take_length]
    exact List.mem_flatMap.mpr ⟨f.batch, hmem, he⟩
  · obtain rfl := Option.some.inj (hp.symm.trans hq)
    exact .inr he

/-- A barrier that asked for it returns when only later events are alive. -/
theorem MetadataOk.poll_live [DecidableEq ε] (h : MetadataOk s) (hp : s.process = some p) {i d : ℕ}
    {b : Barrier ε} (hget : p.waiters[i]? = some (d, b)) (hle : d ≤ p.projectedSequence) :
    ∀ e ∈ s.live, e ∈ p.sent.drop b.before.length := by
  obtain ⟨lo, r, hdisk, hprocess⟩ := h.numbers
  have hok := hprocess p hp
  have hprojected := hok.projected
  have hseq := hok.sequence_le
  obtain ⟨k, -, hfound, hd, hbefore⟩ := hok.waiters d b (List.mem_of_getElem? hget)
  rw [hbefore]
  exact live_of_removed hdisk hok hp hfound (by omega)

/-- The barriers that return in a step: those that asked for it return only when no event
from before them is alive. -/
def Metadata.Answers (s s' : Metadata ε) : Prop :=
  ∃ new, s'.replies = s.replies ++ new ∧
    ∀ b, (b, true) ∈ new → b.projected = true → ∀ p, s.process = some p →
      ∀ e ∈ s.live, e ∈ p.sent.drop b.before.length

theorem answers_nothing {s' : Metadata ε} (h : s'.replies = s.replies) : s.Answers s' :=
  ⟨[], by rw [h, List.append_nil], fun b hb ↦ by cases hb⟩

theorem answers_failed {s' : Metadata ε} (bs : List (Barrier ε))
    (h : s'.replies = s.replies ++ bs.map (·, false)) : s.Answers s' :=
  ⟨_, h, fun b hb ↦ by simp at hb⟩

theorem MetadataOk.answers_step [DecidableEq ε] (h : MetadataOk s) (a : MetadataStep ε) :
    s.Answers (s.step a) := by
  unfold Metadata.step
  cases hp : s.process with
  | none =>
      cases a with
      | start => exact answers_nothing rfl
      | _ => exact answers_nothing rfl
  | some p =>
      cases a with
      | send e =>
          simp only [Metadata.send]
          split
          · exact answers_nothing rfl
          · exact answers_nothing rfl
      | barrier projected =>
          simp only [Metadata.barrier]
          split
          · exact answers_failed [⟨projected, p.sent⟩] rfl
          · exact answers_nothing rfl
      | stopWriter =>
          simp only
          split
          · exact answers_failed p.pendingBarriers rfl
          · exact answers_failed p.pendingBarriers rfl
          · exact answers_nothing rfl
      | append result =>
          simp only [Metadata.append]
          split
          · cases result with
            | ok => exact answers_nothing rfl
            | unsynced => exact answers_failed p.pendingBarriers rfl
            | failed => exact answers_failed p.pendingBarriers rfl
          · exact answers_nothing rfl
      | answer =>
          simp only [Metadata.answer]
          split
          · next d b hw =>
              split_ifs with hprojected
              · exact answers_nothing rfl
              · refine ⟨[(b, true)], rfl, fun c hc htrue ↦ ?_⟩
                obtain rfl : c = b := by simpa using hc
                exact absurd htrue hprojected
          · exact answers_nothing rfl
      | poll i =>
          simp only [Metadata.poll]
          split
          · exact answers_nothing rfl
          · next d b hget =>
              split_ifs with hle halive
              · refine ⟨[(b, true)], rfl, fun c hc _ q hq ↦ ?_⟩
                obtain rfl : c = b := by simpa using hc
                obtain rfl := Option.some.inj (hp.symm.trans hq)
                exact h.poll_live hp hget hle
              · exact answers_nothing rfl
              · exact answers_failed [b] rfl
      | insert ok =>
          simp only [Metadata.insert]
          split
          · split_ifs
            · exact answers_nothing rfl
            · exact answers_nothing rfl
          · exact answers_nothing rfl
      | remove result =>
          simp only [Metadata.remove]
          split
          · cases result <;> exact answers_nothing rfl
          · exact answers_nothing rfl
      | haltProjector =>
          simp only
          split <;> exact answers_nothing rfl
      | markStopped =>
          simp only
          split <;> exact answers_nothing rfl
      | _ => exact answers_nothing rfl

/-- As long as the process runs, it forgets nothing that it has sent. -/
theorem sent_step (hp : s.process = some p) {a : MetadataStep ε} (ha : a ≠ .crash) :
    ∃ p', (s.step a).process = some p' ∧
      (p'.sent = p.sent ∨ ∃ e, a = .send e ∧ p'.sent = p.sent ++ [e]) := by
  unfold Metadata.step
  simp only [hp]
  cases a with
  | send e =>
      simp only [Metadata.send]
      split
      · exact ⟨p, hp, .inl rfl⟩
      · exact ⟨_, rfl, .inr ⟨e, rfl, rfl⟩⟩
  | barrier projected =>
      simp only [Metadata.barrier]
      split
      · exact ⟨p, hp, .inl rfl⟩
      · exact ⟨_, rfl, .inl rfl⟩
  | receive => exact ⟨_, rfl, .inl p.receive_logs.1⟩
  | closeBatch => exact ⟨_, rfl, .inl p.closeBatch_logs.1⟩
  | stopWriter =>
      simp only
      split
      · exact ⟨_, rfl, .inl rfl⟩
      · exact ⟨_, rfl, .inl rfl⟩
      · exact ⟨p, hp, .inl rfl⟩
  | append result =>
      simp only [Metadata.append]
      split
      · cases result with
        | ok => exact ⟨_, rfl, .inl rfl⟩
        | unsynced => exact ⟨_, rfl, .inl rfl⟩
        | failed => exact ⟨_, rfl, .inl rfl⟩
      · exact ⟨p, hp, .inl rfl⟩
  | storeDurable => exact ⟨_, rfl, .inl p.storeDurable_logs.1⟩
  | answer =>
      simp only [Metadata.answer]
      split
      · split_ifs
        · exact ⟨_, rfl, .inl rfl⟩
        · exact ⟨_, rfl, .inl rfl⟩
      · exact ⟨p, hp, .inl rfl⟩
  | poll i =>
      simp only [Metadata.poll]
      split
      · exact ⟨p, hp, .inl rfl⟩
      · split_ifs
        · exact ⟨_, rfl, .inl rfl⟩
        · exact ⟨p, hp, .inl rfl⟩
        · exact ⟨_, rfl, .inl rfl⟩
  | read ok => exact ⟨_, rfl, .inl (p.read_logs _ ok).1⟩
  | insert ok =>
      simp only [Metadata.insert]
      split
      · split_ifs
        · exact ⟨_, rfl, .inl rfl⟩
        · exact ⟨p, hp, .inl rfl⟩
      · exact ⟨p, hp, .inl rfl⟩
  | remove result =>
      simp only [Metadata.remove]
      split
      · cases result with
        | ok => exact ⟨_, rfl, .inl rfl⟩
        | unsynced => exact ⟨_, rfl, .inl rfl⟩
        | failed => exact ⟨_, rfl, .inl rfl⟩
      · exact ⟨p, hp, .inl rfl⟩
  | storeProjected => exact ⟨_, rfl, .inl p.storeProjected_logs.1⟩
  | haltProjector =>
      simp only
      split
      · exact ⟨_, rfl, .inl rfl⟩
      · exact ⟨_, rfl, .inl rfl⟩
      · exact ⟨p, hp, .inl rfl⟩
  | markStopped =>
      simp only
      split
      · exact ⟨_, rfl, .inl rfl⟩
      · exact ⟨p, hp, .inl rfl⟩
  | crash => exact absurd rfl ha
  | start => exact ⟨p, hp, .inl rfl⟩

/-! ## Sending several events -/

/-- There is a writer that takes events. -/
def Metadata.accepts (s : Metadata ε) : Bool :=
  match s.process with
  | none => false
  | some p =>
      match p.writer with
      | .stopped _ => false
      | _ => true

def Metadata.sendAll (s : Metadata ε) (events : List ε) : Metadata ε :=
  runFrom Metadata.step s (events.map .send)

theorem MetadataOk.sendAll [DecidableEq ε] (h : MetadataOk s) (events : List ε) :
    MetadataOk (s.sendAll events) := by
  induction events generalizing s with
  | nil => exact h
  | cons e events ih => exact ih (h.step (.send e))

theorem live_sendAll (s : Metadata ε) (events : List ε) :
    ∀ e ∈ (s.sendAll events).live, e ∈ s.live ∨ e ∈ events := by
  induction events generalizing s with
  | nil => exact fun e he ↦ .inl he
  | cons a events ih =>
      intro e he
      rcases ih (s.step (.send a)) e he with he | he
      · rcases live_step s (.send a) e he with he | heq
        · exact .inl he
        · exact .inr (MetadataStep.send.inj heq ▸ List.mem_cons_self)
      · exact .inr (List.mem_cons_of_mem a he)

theorem accepts_iff (hp : s.process = some p) :
    s.accepts = true ↔ ∀ inPlace, p.writer ≠ .stopped inPlace := by
  unfold Metadata.accepts
  cases hw : p.writer <;> simp [hp, hw]

theorem step_send_of_accepts (h : s.accepts = true) (hp : s.process = some p) (e : ε) :
    s.step (.send e) = { s with
      process := some { p with queue := p.queue ++ [.event e], sent := p.sent ++ [e] }
      enqueued := s.enqueued ++ [e] } := by
  have hrunning := (accepts_iff hp).mp h
  simp only [Metadata.step, hp]
  unfold Metadata.send
  cases hw : p.writer with
  | stopped inPlace => exact absurd hw (hrunning inPlace)
  | _ => rfl

theorem step_barrier_of_accepts (h : s.accepts = true) (hp : s.process = some p)
    (projected : Bool) :
    s.step (.barrier projected) = { s with
      process := some { p with queue := p.queue ++ [.barrier ⟨projected, p.sent⟩] } } := by
  have hrunning := (accepts_iff hp).mp h
  simp only [Metadata.step, hp]
  unfold Metadata.barrier
  cases hw : p.writer with
  | stopped inPlace => exact absurd hw (hrunning inPlace)
  | _ => rfl

/-- Every event is sent, and nothing else happens to the process and the answers. -/
theorem sendAll_of_accepts (h : s.accepts = true) (hp : s.process = some p) (events : List ε) :
    ∃ p', (s.sendAll events).process = some p' ∧ p'.sent = p.sent ++ events ∧
      (s.sendAll events).replies = s.replies := by
  induction events generalizing s p with
  | nil => exact ⟨p, hp, (List.append_nil _).symm, rfl⟩
  | cons e events ih =>
      have hsend := step_send_of_accepts h hp e
      have hnext : (s.step (.send e)).accepts = true := by
        have hprocess : (s.step (.send e)).process = some
            { p with queue := p.queue ++ [.event e], sent := p.sent ++ [e] } := by
          rw [hsend]
        exact (accepts_iff hprocess).mpr ((accepts_iff hp).mp h)
      obtain ⟨p', hp', hsent, hreplies⟩ := ih hnext (by rw [hsend])
      refine ⟨p', hp', ?_, ?_⟩
      · rw [hsent, List.append_assoc]
        rfl
      · change ((s.step (.send e)).sendAll events).replies = s.replies
        rw [hreplies, hsend]

end

end Bazalt.Storage
