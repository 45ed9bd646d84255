import Bazalt.Replay.Pipeline

/-!
# Replay checkpoints

A hit is with the worker that found it, in the channel of the collector, or sent to the
metadata writer.  Each of the three barriers moves all hits of the segment on by one place,
and after the last one they are in place.
-/

namespace Bazalt.Replay

open Lib Matching Storage

/-- The event is in a batch that was renamed into place. -/
def Stored (committed : List (Batch ReplayEvent)) (e : ReplayEvent) : Prop :=
  ∃ c ∈ committed, e ∈ c.events

/-- The worker has nothing to do and nothing to send. -/
def Quiet (w : ReplayWorker) : Prop := w.queue = [] ∧ w.sending = []

/-- No barrier waits for the worker. -/
def Plain (w : ReplayWorker) : Prop := ReplayWork.barrier ∉ w.queue

/-- The barrier is the last item of the channel. -/
def Barred (w : ReplayWorker) : Prop :=
  ∃ front, w.queue = front ++ [.barrier] ∧ ReplayWork.barrier ∉ front

/-- The barrier was sent to the workers below `k`, and those in `acked` have answered. -/
structure Acked (n k : ℕ) (acked : List ℕ) (workers : ℕ → ReplayWorker) : Prop where
  nodup : acked.Nodup
  quiet : ∀ w ∈ acked, w < k ∧ Quiet (workers w)
  barred : ∀ w < k, w ∉ acked → Barred (workers w)
  plain : ∀ w < n, k ≤ w → Plain (workers w)

/-- What the reader knows in its state about the hits `all` of the run. -/
def PhaseOk (n : ℕ) (committed : List (Batch ReplayEvent)) (all : List ReplayEvent)
    (r : ReplayRun) : Prop :=
  match r.reader with
  | .next => (∀ w < n, Plain (r.workers w)) ∧ ReplayHit.barrier ∉ r.hitQueue
  | .scanning _ => (∀ w < n, Plain (r.workers w)) ∧ ReplayHit.barrier ∉ r.hitQueue
  | .sendingBarriers k =>
      k ≤ n ∧ Acked n k r.acks r.workers ∧ ReplayHit.barrier ∉ r.hitQueue
  | .waitingForWorkers acked =>
      Acked n n (acked ++ r.acks) r.workers ∧ ReplayHit.barrier ∉ r.hitQueue
  | .sendingHitBarrier => (∀ w < n, Quiet (r.workers w)) ∧ ReplayHit.barrier ∉ r.hitQueue
  | .waitingForHits => (∀ w < n, Quiet (r.workers w)) ∧
      match r.hitReply with
      | none => ∃ hits, r.hitQueue = hits ++ [.barrier] ∧ ReplayHit.barrier ∉ hits
      | some _ => r.hitQueue = []
  | .committing _ => (∀ w < n, Quiet (r.workers w)) ∧ r.hitQueue = []
  | .waitingForMetadata _ before =>
      (∀ w < n, Quiet (r.workers w)) ∧ r.hitQueue = [] ∧ ∀ e ∈ all, Stored committed e ∨ e ∈ before
  | .reporting _ =>
      (∀ w < n, Quiet (r.workers w)) ∧ r.hitQueue = [] ∧ ∀ e ∈ all, Stored committed e
  | _ => True

/-- The hit is on its way. -/
def InFlight (n : ℕ) (r : ReplayRun) (sent : List ReplayEvent) (i : ℕ) (hit : MatchRecord) : Prop :=
  (∃ w < n, (i, hit) ∈ (r.workers w).sending) ∨ ReplayHit.hit i hit ∈ r.hitQueue ∨
    ReplayEvent.hit i hit ∈ sent

/-- The hits of a run as they are sent. -/
def eventsOf (produced : List (ℕ × MatchRecord)) : List ReplayEvent :=
  produced.zipIdx.map fun e ↦ .hit e.2 e.1.2

structure RunOk (n : ℕ) (committed : List (Batch ReplayEvent)) (sent : List ReplayEvent)
    (produced : List (ℕ × MatchRecord)) (r : ReplayRun) : Prop where
  segments : ∀ e ∈ produced, e.1 ≤ r.segmentsDone
  queues : ∀ w < n, ∀ segment record, ReplayWork.record segment record ∈ (r.workers w).queue →
    segment = r.segmentsDone
  done : ∀ i segment hit, produced[i]? = some (segment, hit) → segment < r.segmentsDone →
    Stored committed (.hit i hit)
  flight : ∀ i segment hit, produced[i]? = some (segment, hit) →
    Stored committed (.hit i hit) ∨ InFlight n r sent i hit
  phase : PhaseOk n committed (eventsOf produced) r

/-- The events that the running process has sent. -/
def sentEvents (s : Metadata ReplayEvent) : List ReplayEvent :=
  (s.process.map Process.sent).getD []

structure SystemOk (n : ℕ) (s : ReplaySystem) : Prop where
  metadata : MetadataOk s.metadata
  stored : ∀ p ∈ s.progress, ∀ (i segment : ℕ) (hit : MatchRecord),
    s.produced[i]? = some (segment, hit) → (segment : ℤ) < p.segmentsDone →
    Stored s.metadata.committed (.hit i hit)
  run : ∀ r, s.run = some r → RunOk n s.metadata.committed (sentEvents s.metadata) s.produced r ∧
    ∀ p ∈ s.progress, p.segmentsDone ≤ r.segmentsDone

/-! ## What is stored stays stored -/

section

variable {n : ℕ} {committed committed' : List (Batch ReplayEvent)}
  {sent sent' all : List ReplayEvent} {produced : List (ℕ × MatchRecord)} {r : ReplayRun}

theorem Stored.mono {e : ReplayEvent} (h : Stored committed e) (hc : committed <+: committed') :
    Stored committed' e :=
  let ⟨c, hmem, he⟩ := h
  ⟨c, hc.subset hmem, he⟩

theorem PhaseOk.mono (h : PhaseOk n committed all r) (hc : committed <+: committed') :
    PhaseOk n committed' all r := by
  unfold PhaseOk at h ⊢
  cases hr : r.reader with
  | waitingForMetadata found before =>
      simp only [hr] at h ⊢
      exact ⟨h.1, h.2.1, fun e he ↦ (h.2.2 e he).imp_left fun hs ↦ hs.mono hc⟩
  | reporting found =>
      simp only [hr] at h ⊢
      exact ⟨h.1, h.2.1, fun e he ↦ (h.2.2 e he).mono hc⟩
  | _ => simpa only [hr] using h

theorem RunOk.mono (h : RunOk n committed sent produced r) (hc : committed <+: committed')
    (hs : sent <+: sent') : RunOk n committed' sent' produced r where
  segments := h.segments
  queues := h.queues
  done := fun i segment hit hi hlt ↦ (h.done i segment hit hi hlt).mono hc
  flight := fun i segment hit hi ↦ (h.flight i segment hit hi).imp (fun hst ↦ hst.mono hc)
    fun hf ↦ hf.imp_right fun hf ↦ hf.imp_right fun hmem ↦ hs.subset hmem
  phase := h.phase.mono hc

theorem mem_eventsOf {e : ReplayEvent} : e ∈ eventsOf produced ↔
    ∃ i segment hit, produced[i]? = some (segment, hit) ∧ e = .hit i hit := by
  simp only [eventsOf, List.mem_map, Prod.exists, List.mem_zipIdx_iff_getElem?]
  constructor
  · rintro ⟨segment, hit, i, hi, rfl⟩
    exact ⟨i, segment, hit, hi, rfl⟩
  · rintro ⟨i, segment, hit, hi, rfl⟩
    exact ⟨segment, hit, i, hi, rfl⟩

/-! ## Barriers of the workers -/

variable {k i : ℕ} {acked : List ℕ} {workers : ℕ → ReplayWorker} {w : ReplayWorker}

theorem Acked.set (h : Acked n k acked workers) (hi : i ∉ acked)
    (hbarred : Barred (workers i) → Barred w) (hplain : Plain (workers i) → Plain w) :
    Acked n k acked (Function.update workers i w) := by
  refine ⟨h.nodup, fun j hj ↦ ?_, fun j hj hnot ↦ ?_, fun j hj hle ↦ ?_⟩
  · have hne : j ≠ i := fun heq ↦ hi (heq ▸ hj)
    rw [Function.update_of_ne hne]
    exact h.quiet j hj
  · by_cases heq : j = i
    · subst heq
      rw [Function.update_self]
      exact hbarred (h.barred j hj hnot)
    · rw [Function.update_of_ne heq]
      exact h.barred j hj hnot
  · by_cases heq : j = i
    · subst heq
      rw [Function.update_self]
      exact hplain (h.plain j hj hle)
    · rw [Function.update_of_ne heq]
      exact h.plain j hj hle

/-- A worker answers. -/
theorem Acked.answer (h : Acked n k acked workers) (hik : i < k) (hi : i ∉ acked) (hw : Quiet w) :
    Acked n k (acked ++ [i]) (Function.update workers i w) := by
  refine ⟨?_, fun j hj ↦ ?_, fun j hj hnot ↦ ?_, fun j hj hle ↦ ?_⟩
  · rw [List.nodup_append]
    refine ⟨h.nodup, List.nodup_singleton i, fun j hj l hl heq ↦ ?_⟩
    rw [List.mem_singleton.mp hl] at heq
    exact hi (heq ▸ hj)
  · rcases List.mem_append.mp hj with hj | hj
    · have hne : j ≠ i := fun heq ↦ hi (heq ▸ hj)
      rw [Function.update_of_ne hne]
      exact h.quiet j hj
    · rw [List.mem_singleton.mp hj, Function.update_self]
      exact ⟨hik, hw⟩
  · rw [List.mem_append, not_or, List.mem_singleton] at hnot
    rw [Function.update_of_ne hnot.2]
    exact h.barred j hj hnot.1
  · rw [Function.update_of_ne (by omega)]
    exact h.plain j hj hle

/-- The barrier is sent to the next worker. -/
theorem Acked.send (h : Acked n k acked workers) (hk : k < n) :
    Acked n (k + 1) acked (Function.update workers k
      { workers k with queue := (workers k).queue ++ [.barrier] }) := by
  have hnot : k ∉ acked := fun hmem ↦ absurd (h.quiet k hmem).1 (lt_irrefl k)
  refine ⟨h.nodup, fun j hj ↦ ?_, fun j hj hacked ↦ ?_, fun j hj hle ↦ ?_⟩
  · have hlt := (h.quiet j hj).1
    rw [Function.update_of_ne (by omega)]
    exact ⟨by omega, (h.quiet j hj).2⟩
  · by_cases heq : j = k
    · subst heq
      rw [Function.update_self]
      exact ⟨_, rfl, h.plain j hk le_rfl⟩
    · rw [Function.update_of_ne heq]
      exact h.barred j (by omega) hacked
  · rw [Function.update_of_ne (by omega)]
    exact h.plain j hj (by omega)

/-- All workers have answered. -/
theorem Acked.all_quiet {acks : List ℕ} (h : Acked n n (acked ++ acks) workers)
    (hlen : acked.length = n) : ∀ w < n, Quiet (workers w) := by
  intro w hw
  have hnodup := (List.nodup_append.mp h.nodup).1
  have hlt : ∀ j ∈ acked, j < n := fun j hj ↦ (h.quiet j (List.mem_append_left _ hj)).1
  have hall : acked.toFinset = Finset.range n := by
    refine Finset.eq_of_subset_of_card_le (fun j hj ↦ ?_) ?_
    · exact Finset.mem_range.mpr (hlt j (List.mem_toFinset.mp hj))
    · rw [List.toFinset_card_of_nodup hnodup, hlen, Finset.card_range]
  have hmem : w ∈ acked := by
    rw [← List.mem_toFinset, hall]
    exact Finset.mem_range.mpr hw
  exact (h.quiet w (List.mem_append_left _ hmem)).2

/-! ## Steps of the workers and the collector -/

/-- A worker that has something to do does it, and may send a hit. -/
theorem PhaseOk.worker (h : PhaseOk n committed all r) (hi : i < n) (hbusy : ¬ Quiet (r.workers i))
    (hbarred : Barred (r.workers i) → Barred w) (hplain : Plain (r.workers i) → Plain w)
    {hits : List ReplayHit} (hhits : ReplayHit.barrier ∉ hits) (all' : List ReplayEvent) :
    PhaseOk n committed all' { r with
      hitQueue := r.hitQueue ++ hits
      workers := Function.update r.workers i w } := by
  have hplains : (∀ j < n, Plain (r.workers j)) →
      ∀ j < n, Plain (Function.update r.workers i w j) := by
    intro hall j hj
    by_cases heq : j = i
    · subst heq
      rw [Function.update_self]
      exact hplain (hall j hj)
    · rw [Function.update_of_ne heq]
      exact hall j hj
  have hqueue : ReplayHit.barrier ∉ r.hitQueue → ReplayHit.barrier ∉ r.hitQueue ++ hits := by
    intro hno hmem
    exact (List.mem_append.mp hmem).elim hno hhits
  have hnot : ∀ k acked, Acked n k acked r.workers → i ∉ acked :=
    fun k acked hacked hmem ↦ hbusy (hacked.quiet i hmem).2
  unfold PhaseOk at h ⊢
  cases hr : r.reader with
  | next =>
      simp only [hr] at h ⊢
      exact ⟨hplains h.1, hqueue h.2⟩
  | scanning records =>
      simp only [hr] at h ⊢
      exact ⟨hplains h.1, hqueue h.2⟩
  | sendingBarriers k =>
      simp only [hr] at h ⊢
      exact ⟨h.1, h.2.1.set (hnot _ _ h.2.1) hbarred hplain, hqueue h.2.2⟩
  | waitingForWorkers acked =>
      simp only [hr] at h ⊢
      exact ⟨h.1.set (hnot _ _ h.1) hbarred hplain, hqueue h.2⟩
  | sendingHitBarrier =>
      simp only [hr] at h
      exact absurd (h.1 i hi) hbusy
  | waitingForHits =>
      simp only [hr] at h
      exact absurd (h.1 i hi) hbusy
  | committing found =>
      simp only [hr] at h
      exact absurd (h.1 i hi) hbusy
  | waitingForMetadata found before =>
      simp only [hr] at h
      exact absurd (h.1 i hi) hbusy
  | reporting found =>
      simp only [hr] at h
      exact absurd (h.1 i hi) hbusy
  | _ => trivial

/-- A worker sends a hit to the collector. -/
theorem RunOk.sendHit (h : RunOk n committed sent produced r) (hi : i < n) {number : ℕ}
    {hit : MatchRecord} {sending : List (ℕ × MatchRecord)}
    (hsend : (r.workers i).sending = (number, hit) :: sending) :
    RunOk n committed sent produced { r with
      hitQueue := r.hitQueue ++ [.hit number hit]
      workers := Function.update r.workers i { r.workers i with sending } } := by
  have hbusy : ¬ Quiet (r.workers i) := fun hq ↦ by simp [hq.2] at hsend
  have hhits : ReplayHit.barrier ∉ [ReplayHit.hit number hit] := by simp
  refine ⟨h.segments, ?_, h.done, ?_,
    h.phase.worker (w := { r.workers i with sending }) hi hbusy id id hhits _⟩
  · intro j hj segment record hmem
    refine h.queues j hj segment record ?_
    by_cases heq : j = i
    · subst heq
      simpa using hmem
    · simpa [Function.update_of_ne heq] using hmem
  · intro m segment hit' hm
    refine (h.flight m segment hit' hm).imp_right fun hf ↦ ?_
    rcases hf with ⟨j, hj, hmem⟩ | hmem | hmem
    · by_cases heq : j = i
      · subst heq
        rw [hsend] at hmem
        rcases List.mem_cons.mp hmem with hhead | hmem
        · obtain ⟨rfl, rfl⟩ := Prod.mk.inj hhead
          exact .inr (.inl (List.mem_append_right _ List.mem_cons_self))
        · exact .inl ⟨j, hj, by simpa using hmem⟩
      · exact .inl ⟨j, hj, by simpa [Function.update_of_ne heq] using hmem⟩
    · exact .inr (.inl (List.mem_append_left _ hmem))
    · exact .inr (.inr hmem)

/-- A worker scans a record. -/
theorem RunOk.scan (h : RunOk n committed sent produced r) (hi : i < n) {segment : ℕ}
    {record : ContentRecord} {queue : List ReplayWork}
    (hqueue : (r.workers i).queue = .record segment record :: queue)
    (hsend : (r.workers i).sending = []) (scanner : ReplayScanner) (out : List MatchRecord) :
    segment = r.segmentsDone ∧
      RunOk n committed sent (produced ++ out.map (segment, ·)) { r with
        workers := Function.update r.workers i { r.workers i with
          queue, scanner, sending := (List.range' produced.length out.length).zip out } } := by
  have hbusy : ¬ Quiet (r.workers i) := fun hq ↦ by simp [hq.1] at hqueue
  have hsegment : segment = r.segmentsDone :=
    h.queues i hi segment record (by rw [hqueue]; exact List.mem_cons_self)
  subst hsegment
  refine ⟨rfl, ?_, ?_, ?_, ?_, ?_⟩
  · intro e he
    rcases List.mem_append.mp he with he | he
    · exact h.segments e he
    · obtain ⟨hit, -, rfl⟩ := List.mem_map.mp he
      exact le_rfl
  · intro j hj segment' record' hmem
    refine h.queues j hj segment' record' ?_
    by_cases heq : j = i
    · subst heq
      rw [hqueue]
      exact List.mem_cons_of_mem _ (by simpa using hmem)
    · simpa [Function.update_of_ne heq] using hmem
  · intro m segment' hit hm hlt
    rw [List.getElem?_append] at hm
    split_ifs at hm with hold
    · exact h.done m segment' hit hm hlt
    · obtain ⟨hit', -, heq⟩ := List.mem_map.mp (List.mem_of_getElem? hm)
      obtain ⟨rfl, -⟩ := Prod.mk.inj heq
      exact absurd hlt (lt_irrefl _)
  · intro m segment' hit hm
    rw [List.getElem?_append] at hm
    split_ifs at hm with hold
    · refine (h.flight m segment' hit hm).imp_right fun hf ↦ ?_
      rcases hf with ⟨j, hj, hmem⟩ | hf
      · have hne : j ≠ i := by
          rintro rfl
          simp [hsend] at hmem
        exact .inl ⟨j, hj, by simpa [Function.update_of_ne hne] using hmem⟩
      · exact .inr hf
    · -- a hit that the worker has just found
      refine .inr (.inl ⟨i, hi, ?_⟩)
      rw [List.getElem?_map, Option.map_eq_some_iff] at hm
      obtain ⟨hit', hget, heq⟩ := hm
      obtain ⟨-, rfl⟩ := Prod.mk.inj heq
      simp only [Function.update_self]
      refine List.mem_iff_getElem?.mpr ⟨m - produced.length, ?_⟩
      have hlt := (List.getElem?_eq_some_iff.mp hget).1
      rw [List.getElem?_zip_eq_some, List.getElem?_range' hlt, hget]
      exact ⟨congrArg some (by omega), rfl⟩
  · have hphase := h.phase.worker (w := { r.workers i with
      queue, scanner, sending := (List.range' produced.length out.length).zip out }) hi hbusy
      ?_ ?_ List.not_mem_nil (eventsOf (produced ++ out.map (r.segmentsDone, ·)))
    · simpa using hphase
    · rintro ⟨front, hfront, hno⟩
      rw [hqueue] at hfront
      cases front with
      | nil => cases hfront
      | cons x front =>
          obtain ⟨rfl, rfl⟩ := List.cons.inj hfront
          exact ⟨front, rfl, fun hmem ↦ hno (List.mem_cons_of_mem _ hmem)⟩
    · intro hplain hmem
      refine hplain ?_
      rw [hqueue]
      exact List.mem_cons_of_mem _ hmem

/-- A worker answers the barrier of the segment. -/
theorem RunOk.answer (h : RunOk n committed sent produced r) (hi : i < n) {queue : List ReplayWork}
    (hqueue : (r.workers i).queue = .barrier :: queue) (hsend : (r.workers i).sending = []) :
    RunOk n committed sent produced { r with
      acks := r.acks ++ [i]
      workers := Function.update r.workers i { r.workers i with queue } } := by
  have hbusy : ¬ Quiet (r.workers i) := fun hq ↦ by simp [hq.1] at hqueue
  have hnotPlain : ¬ Plain (r.workers i) := fun hp ↦ hp (by rw [hqueue]; exact List.mem_cons_self)
  have hquiet : Barred (r.workers i) → Quiet { r.workers i with queue } := by
    rintro ⟨front, hfront, hno⟩
    rw [hqueue] at hfront
    cases front with
    | nil => exact ⟨(List.cons.inj hfront).2, hsend⟩
    | cons x front =>
        obtain ⟨rfl, -⟩ := List.cons.inj hfront
        exact absurd List.mem_cons_self hno
  have hacked : ∀ k acked, Acked n k acked r.workers →
      Acked n k (acked ++ [i]) (Function.update r.workers i { r.workers i with queue }) := by
    intro k acked hacked
    have hnot : i ∉ acked := fun hmem ↦ hbusy (hacked.quiet i hmem).2
    have hlt : i < k := by
      by_contra hge
      exact hnotPlain (hacked.plain i hi (not_lt.mp hge))
    exact hacked.answer hlt hnot (hquiet (hacked.barred i hlt hnot))
  refine ⟨h.segments, ?_, h.done, ?_, ?_⟩
  · intro j hj segment record hmem
    refine h.queues j hj segment record ?_
    by_cases heq : j = i
    · subst heq
      rw [hqueue]
      exact List.mem_cons_of_mem _ (by simpa using hmem)
    · simpa [Function.update_of_ne heq] using hmem
  · intro m segment hit hm
    refine (h.flight m segment hit hm).imp_right fun hf ↦ hf.imp_left fun ⟨j, hj, hmem⟩ ↦ ?_
    refine ⟨j, hj, ?_⟩
    by_cases heq : j = i
    · subst heq
      simpa using hmem
    · simpa [Function.update_of_ne heq] using hmem
  · have hphase := h.phase
    unfold PhaseOk at hphase ⊢
    cases hr : r.reader with
    | next =>
        simp only [hr] at hphase
        exact absurd (hphase.1 i hi) hnotPlain
    | scanning records =>
        simp only [hr] at hphase
        exact absurd (hphase.1 i hi) hnotPlain
    | sendingBarriers k =>
        simp only [hr] at hphase ⊢
        exact ⟨hphase.1, hacked _ _ hphase.2.1, hphase.2.2⟩
    | waitingForWorkers acked =>
        simp only [hr] at hphase ⊢
        rw [← List.append_assoc]
        exact ⟨hacked _ _ hphase.1, hphase.2⟩
    | sendingHitBarrier =>
        simp only [hr] at hphase
        exact absurd (hphase.1 i hi) hbusy
    | waitingForHits =>
        simp only [hr] at hphase
        exact absurd (hphase.1 i hi) hbusy
    | committing found =>
        simp only [hr] at hphase
        exact absurd (hphase.1 i hi) hbusy
    | waitingForMetadata found before =>
        simp only [hr] at hphase
        exact absurd (hphase.1 i hi) hbusy
    | reporting found =>
        simp only [hr] at hphase
        exact absurd (hphase.1 i hi) hbusy
    | _ => trivial

/-- What happens to the flags of a run tells nothing about its hits. -/
theorem RunOk.setFlags (h : RunOk n committed sent produced r) {r' : ReplayRun}
    (hworkers : ∀ j, (r'.workers j).queue = (r.workers j).queue ∧
      (r'.workers j).sending = (r.workers j).sending)
    (hreader : r'.reader = r.reader) (hacks : r'.acks = r.acks) (hqueue : r'.hitQueue = r.hitQueue)
    (hreply : r'.hitReply = r.hitReply) (hdone : r'.segmentsDone = r.segmentsDone) :
    RunOk n committed sent produced r' := by
  have hquiet : ∀ j, Quiet (r'.workers j) ↔ Quiet (r.workers j) := fun j ↦ by
    rw [Quiet, Quiet, (hworkers j).1, (hworkers j).2]
  have hplain : ∀ j, Plain (r'.workers j) ↔ Plain (r.workers j) := fun j ↦ by
    rw [Plain, Plain, (hworkers j).1]
  have hbarred : ∀ j, Barred (r'.workers j) ↔ Barred (r.workers j) := fun j ↦ by
    rw [Barred, Barred, (hworkers j).1]
  have hacked : ∀ k acked, Acked n k acked r.workers → Acked n k acked r'.workers :=
    fun k acked ha ↦ ⟨ha.nodup, fun w hw ↦ (ha.quiet w hw).imp_right (hquiet w).mpr,
      fun w hw hnot ↦ (hbarred w).mpr (ha.barred w hw hnot),
      fun w hw hle ↦ (hplain w).mpr (ha.plain w hw hle)⟩
  refine ⟨?_, ?_, ?_, ?_, ?_⟩
  · rw [hdone]
    exact h.segments
  · intro w hw segment record hmem
    rw [(hworkers w).1] at hmem
    rw [hdone]
    exact h.queues w hw segment record hmem
  · rw [hdone]
    exact h.done
  · intro m segment hit hm
    refine (h.flight m segment hit hm).imp_right fun hf ↦ ?_
    unfold InFlight at hf ⊢
    rw [hqueue]
    refine hf.imp_left fun ⟨w, hw, hmem⟩ ↦ ⟨w, hw, ?_⟩
    rwa [(hworkers w).2]
  · have hphase := h.phase
    unfold PhaseOk at hphase ⊢
    rw [hreader, hacks, hqueue, hreply]
    cases hr : r.reader with
    | sendingBarriers k =>
        simp only [hr] at hphase ⊢
        exact ⟨hphase.1, hacked _ _ hphase.2.1, hphase.2.2⟩
    | waitingForWorkers acked =>
        simp only [hr] at hphase ⊢
        exact ⟨hacked _ _ hphase.1, hphase.2⟩
    | _ => simpa only [hr, hquiet, hplain] using hphase

/-- The collector sends a hit on. -/
theorem RunOk.collect (h : RunOk n committed sent produced r) {number : ℕ} {hit : MatchRecord}
    {hitQueue : List ReplayHit} (hqueue : r.hitQueue = .hit number hit :: hitQueue)
    (hsent : sent <+: sent') (hmem : ReplayEvent.hit number hit ∈ sent') (found : ℤ) :
    RunOk n committed sent' produced { r with hitQueue, matches_ := found } := by
  refine ⟨h.segments, h.queues, h.done, ?_, ?_⟩
  · intro m segment hit' hm
    refine (h.flight m segment hit' hm).imp_right fun hf ↦ ?_
    rcases hf with hf | hf | hf
    · exact .inl hf
    · rw [hqueue] at hf
      rcases List.mem_cons.mp hf with heq | hf
      · obtain ⟨rfl, rfl⟩ := ReplayHit.hit.inj heq
        exact .inr (.inr hmem)
      · exact .inr (.inl hf)
    · exact .inr (.inr (hsent.subset hf))
  · have hphase := h.phase
    have hfront : ReplayHit.barrier ∉ r.hitQueue → ReplayHit.barrier ∉ hitQueue := by
      intro hno hin
      exact hno (by rw [hqueue]; exact List.mem_cons_of_mem _ hin)
    unfold PhaseOk at hphase ⊢
    cases hr : r.reader with
    | next =>
        simp only [hr] at hphase ⊢
        exact ⟨hphase.1, hfront hphase.2⟩
    | scanning records =>
        simp only [hr] at hphase ⊢
        exact ⟨hphase.1, hfront hphase.2⟩
    | sendingBarriers k =>
        simp only [hr] at hphase ⊢
        exact ⟨hphase.1, hphase.2.1, hfront hphase.2.2⟩
    | waitingForWorkers acked =>
        simp only [hr] at hphase ⊢
        exact ⟨hphase.1, hfront hphase.2⟩
    | sendingHitBarrier =>
        simp only [hr] at hphase ⊢
        exact ⟨hphase.1, hfront hphase.2⟩
    | waitingForHits =>
        simp only [hr] at hphase ⊢
        refine ⟨hphase.1, ?_⟩
        cases hreply : r.hitReply with
        | none =>
            simp only [hreply] at hphase ⊢
            obtain ⟨-, hits, heq, hno⟩ := hphase
            rw [hqueue] at heq
            cases hits with
            | nil => cases heq
            | cons x hits =>
                obtain ⟨rfl, rfl⟩ := List.cons.inj heq
                exact ⟨hits, rfl, fun hin ↦ hno (List.mem_cons_of_mem _ hin)⟩
        | some reply =>
            simp only [hreply] at hphase
            rw [hqueue] at hphase
            cases hphase.2
    | committing reply =>
        simp only [hr, hqueue] at hphase
        cases hphase.2
    | waitingForMetadata reply before =>
        simp only [hr, hqueue] at hphase
        cases hphase.2.1
    | reporting reply =>
        simp only [hr, hqueue] at hphase
        cases hphase.2.1
    | _ => trivial

/-- The collector answers the barrier of the segment. -/
theorem RunOk.collectBarrier (h : RunOk n committed sent produced r) {hitQueue : List ReplayHit}
    (hqueue : r.hitQueue = .barrier :: hitQueue) (found : ℤ) :
    RunOk n committed sent produced { r with hitQueue, hitReply := some found } := by
  have hin : ReplayHit.barrier ∈ r.hitQueue := by
    rw [hqueue]
    exact List.mem_cons_self
  refine ⟨h.segments, h.queues, h.done, ?_, ?_⟩
  · intro m segment hit hm
    refine (h.flight m segment hit hm).imp_right fun hf ↦ hf.imp_right fun hf ↦ hf.imp_left ?_
    intro hmem
    rw [hqueue] at hmem
    simpa using hmem
  · have hphase := h.phase
    unfold PhaseOk at hphase ⊢
    cases hr : r.reader with
    | next =>
        simp only [hr] at hphase
        exact absurd hin hphase.2
    | scanning records =>
        simp only [hr] at hphase
        exact absurd hin hphase.2
    | sendingBarriers k =>
        simp only [hr] at hphase
        exact absurd hin hphase.2.2
    | waitingForWorkers acked =>
        simp only [hr] at hphase
        exact absurd hin hphase.2
    | sendingHitBarrier =>
        simp only [hr] at hphase
        exact absurd hin hphase.2
    | waitingForHits =>
        simp only [hr] at hphase ⊢
        refine ⟨hphase.1, ?_⟩
        cases hreply : r.hitReply with
        | none =>
            simp only [hreply] at hphase
            obtain ⟨-, hits, heq, hno⟩ := hphase
            rw [hqueue] at heq
            cases hits with
            | nil => exact (List.cons.inj heq).2
            | cons x hits =>
                obtain ⟨rfl, -⟩ := List.cons.inj heq
                exact absurd List.mem_cons_self hno
        | some reply =>
            simp only [hreply] at hphase
            rw [hqueue] at hphase
            cases hphase.2
    | committing reply =>
        simp only [hr, hqueue] at hphase
        cases hphase.2
    | waitingForMetadata reply before =>
        simp only [hr, hqueue] at hphase
        cases hphase.2.1
    | reporting reply =>
        simp only [hr, hqueue] at hphase
        cases hphase.2.1
    | _ => trivial

/-! ## Steps of the reader -/

theorem RunOk.setPhase (h : RunOk n committed sent produced r) {r' : ReplayRun}
    (hworkers : r'.workers = r.workers) (hqueue : r'.hitQueue = r.hitQueue)
    (hdone : r'.segmentsDone = r.segmentsDone)
    (hphase : PhaseOk n committed (eventsOf produced) r') :
    RunOk n committed sent produced r' := by
  refine ⟨?_, ?_, ?_, ?_, hphase⟩
  · rw [hdone]
    exact h.segments
  · rw [hworkers, hdone]
    exact h.queues
  · rw [hdone]
    exact h.done
  · intro m segment hit hm
    unfold InFlight
    rw [hworkers, hqueue]
    exact h.flight m segment hit hm

/-- The reader sends to the channel of a worker. -/
theorem RunOk.sendWork (h : RunOk n committed sent produced r) {work : ReplayWork}
    (hwork : ∀ segment record, work = .record segment record → segment = r.segmentsDone)
    {reader : ReaderState}
    (hphase : PhaseOk n committed (eventsOf produced) { r with
      workers := Function.update r.workers i
        { r.workers i with queue := (r.workers i).queue ++ [work] }
      reader }) :
    RunOk n committed sent produced { r with
      workers := Function.update r.workers i
        { r.workers i with queue := (r.workers i).queue ++ [work] }
      reader } := by
  refine ⟨h.segments, ?_, h.done, ?_, hphase⟩
  · intro w hw segment record hmem
    by_cases heq : w = i
    · subst heq
      simp only [Function.update_self, List.mem_append, List.mem_singleton] at hmem
      rcases hmem with hmem | hmem
      · exact h.queues w hw segment record hmem
      · exact hwork segment record hmem.symm
    · simp only [Function.update_of_ne heq] at hmem
      exact h.queues w hw segment record hmem
  · intro m segment hit hm
    refine (h.flight m segment hit hm).imp_right fun hf ↦ hf.imp_left fun ⟨w, hw, hmem⟩ ↦ ?_
    refine ⟨w, hw, ?_⟩
    by_cases heq : w = i
    · subst heq
      simpa using hmem
    · simpa [Function.update_of_ne heq] using hmem

/-- The reader sends the barrier to the collector. -/
theorem RunOk.sendHitBarrier (h : RunOk n committed sent produced r)
    (hr : r.reader = .sendingHitBarrier) : RunOk n committed sent produced { r with
      hitQueue := r.hitQueue ++ [.barrier]
      hitReply := none
      reader := .waitingForHits } := by
  have hphase := h.phase
  simp only [PhaseOk, hr] at hphase
  refine ⟨h.segments, h.queues, h.done, ?_, hphase.1, r.hitQueue, rfl, hphase.2⟩
  intro m segment hit hm
  refine (h.flight m segment hit hm).imp_right fun hf ↦ hf.imp_right fun hf ↦ hf.imp_left ?_
  exact List.mem_append_left _

/-- With nothing at the workers and the collector, everything is sent. -/
theorem RunOk.all_sent (h : RunOk n committed sent produced r)
    (hquiet : ∀ w < n, Quiet (r.workers w)) (hqueue : r.hitQueue = []) :
    ∀ e ∈ eventsOf produced, Stored committed e ∨ e ∈ sent := by
  intro e he
  obtain ⟨m, segment, hit, hm, rfl⟩ := mem_eventsOf.mp he
  refine (h.flight m segment hit hm).imp_right fun hf ↦ ?_
  rcases hf with ⟨w, hw, hmem⟩ | hmem | hmem
  · rw [(hquiet w hw).2] at hmem
    cases hmem
  · rw [hqueue] at hmem
    cases hmem
  · exact hmem

/-- The segment is done. -/
theorem RunOk.report (h : RunOk n committed sent produced r) {found : ℤ}
    (hr : r.reader = .reporting found) (bytes : ℤ) : RunOk n committed sent produced { r with
      segmentsDone := r.segmentsDone + 1
      bytesProcessed := bytes
      reader := .next } := by
  have hphase := h.phase
  simp only [PhaseOk, hr] at hphase
  obtain ⟨hquiet, hqueue, hall⟩ := hphase
  refine ⟨?_, ?_, ?_, h.flight, ?_⟩
  · exact fun e he ↦ (h.segments e he).trans (Nat.le_succ _)
  · intro w hw segment record hmem
    rw [(hquiet w hw).1] at hmem
    cases hmem
  · intro m segment hit hm _
    exact hall _ (mem_eventsOf.mpr ⟨m, segment, hit, hm, rfl⟩)
  · refine ⟨fun w hw hmem ↦ ?_, ?_⟩
    · rw [(hquiet w hw).1] at hmem
      cases hmem
    · rw [hqueue]
      exact List.not_mem_nil

end

/-! ## Steps of the system -/

namespace SystemOk

variable {E : Engines} {n : ℕ} {s : ReplaySystem} {r : ReplayRun}

theorem setRun (h : SystemOk n s) (hr : s.run = some r) {r' : ReplayRun}
    (hok : RunOk n s.metadata.committed (sentEvents s.metadata) s.produced r →
      RunOk n s.metadata.committed (sentEvents s.metadata) s.produced r')
    (hdone : r'.segmentsDone = r.segmentsDone) : SystemOk n (s.setRun r') := by
  refine ⟨h.metadata, h.stored, fun q hq ↦ ?_⟩
  obtain rfl := Option.some.inj hq
  refine ⟨hok (h.run r hr).1, fun p hp ↦ ?_⟩
  rw [hdone]
  exact (h.run r hr).2 p hp

/-- The reader goes to another state. -/
theorem setReader (h : SystemOk n s) (hr : s.run = some r) {r' : ReplayRun}
    (hworkers : r'.workers = r.workers) (hqueue : r'.hitQueue = r.hitQueue)
    (hdone : r'.segmentsDone = r.segmentsDone)
    (hphase : PhaseOk n s.metadata.committed (eventsOf s.produced) r →
      PhaseOk n s.metadata.committed (eventsOf s.produced) r') : SystemOk n (s.setRun r') :=
  h.setRun hr (fun hok ↦ hok.setPhase hworkers hqueue hdone (hphase hok.phase)) hdone

/-- Steps of the metadata writer. -/
theorem metadataStep (h : SystemOk n s) {e : MetadataStep ReplayEvent} (he : e ≠ .crash) :
    SystemOk n { s with metadata := s.metadata.step e } := by
  have hc := committed_step s.metadata e
  refine ⟨h.metadata.step e, ?_, fun r hr ↦ ?_⟩
  · exact fun p hp m segment hit hm hlt ↦ (h.stored p hp m segment hit hm hlt).mono hc
  · obtain ⟨hok, hprogress⟩ := h.run r hr
    refine ⟨hok.mono hc ?_, hprogress⟩
    cases hp : s.metadata.process with
    | none =>
        simp only [sentEvents, hp, Option.map_none, Option.getD_none]
        exact List.nil_prefix
    | some p =>
        obtain ⟨-, p', hp', hsent⟩ := extends_step hp he
        simpa only [sentEvents, hp, hp', Option.map_some, Option.getD_some] using hsent

/-- The reader asks the metadata writer for a barrier. -/
theorem requestBarrier (h : SystemOk n s) (hr : s.run = some r)
    {waiting : List ReplayEvent → ReaderState}
    (hphase : ∀ committed sent, RunOk n committed sent s.produced r →
      PhaseOk n committed (eventsOf s.produced) { r with reader := waiting sent }) :
    SystemOk n (s.requestBarrier r waiting) := by
  unfold ReplaySystem.requestBarrier
  split
  · exact h
  · rename_i p hp
    have hmeta := h.metadataStep (e := .barrier false) (by simp)
    have hok := hphase _ _ (h.run r hr).1
    simp only [sentEvents, hp, Option.map_some, Option.getD_some] at hok
    exact hmeta.setReader hr rfl rfl rfl fun _ ↦ hok.mono (committed_step _ _)

theorem awaitBarrier (h : SystemOk n s) (hr : s.run = some r) {before : List ReplayEvent}
    {returned : ReaderState}
    (hphase : (∀ e ∈ before, Stored s.metadata.committed e) →
      PhaseOk n s.metadata.committed (eventsOf s.produced) r →
      PhaseOk n s.metadata.committed (eventsOf s.produced) { r with reader := returned }) :
    SystemOk n (s.awaitBarrier r before returned) := by
  unfold ReplaySystem.awaitBarrier
  split_ifs with hreply
  · refine h.setReader hr rfl rfl rfl (hphase fun e he ↦ ?_)
    obtain ⟨batches, hinfix, hbefore, -⟩ := h.metadata.durable hreply
    simp only at hbefore
    rw [← hbefore] at he
    obtain ⟨c, hc, hmem⟩ := List.mem_flatMap.mp he
    exact ⟨c, hinfix.subset hc, hmem⟩
  · exact h

theorem sendWork (h : SystemOk n s) (hr : s.run = some r) {i : ℕ} {work : ReplayWork}
    {sent failed : ReaderState}
    (hwork : ∀ segment record, work = .record segment record → segment = r.segmentsDone)
    (hsent : PhaseOk n s.metadata.committed (eventsOf s.produced) r →
      PhaseOk n s.metadata.committed (eventsOf s.produced) { r with
        workers := Function.update r.workers i
          { r.workers i with queue := (r.workers i).queue ++ [work] }
        reader := sent })
    (hfailed : PhaseOk n s.metadata.committed (eventsOf s.produced) { r with reader := failed }) :
    SystemOk n (s.sendWork r i work sent failed) := by
  unfold ReplaySystem.sendWork
  split_ifs
  · exact h.setRun hr (fun hok ↦ hok.sendWork hwork (hsent hok.phase)) rfl
  · exact h.setReader hr rfl rfl rfl fun _ ↦ hfailed

/-- More progress is sent. -/
theorem report (h : SystemOk n s) {r' : ReplayRun}
    (hok : RunOk n s.metadata.committed (sentEvents s.metadata) s.produced r')
    (hle : ∀ p ∈ s.progress, p.segmentsDone ≤ r'.segmentsDone) {p : ReplayProgress}
    (hp : p.segmentsDone = r'.segmentsDone) :
    SystemOk n { s.setRun r' with progress := s.progress ++ [p] } := by
  refine ⟨h.metadata, fun q hq m segment hit hm hlt ↦ ?_, fun q hq ↦ ?_⟩
  · rcases List.mem_append.mp hq with hq | hq
    · exact h.stored q hq m segment hit hm hlt
    · rw [List.mem_singleton.mp hq, hp] at hlt
      exact hok.done m segment hit hm (by exact_mod_cast hlt)
  · obtain rfl := Option.some.inj hq
    refine ⟨hok, fun q hq ↦ ?_⟩
    rcases List.mem_append.mp hq with hq | hq
    · exact hle q hq
    · rw [List.mem_singleton.mp hq, hp]

theorem reader (h : SystemOk n s) (hr : s.run = some r) : SystemOk n (s.reader n r) := by
  unfold ReplaySystem.reader
  split
  · -- the head of the loop
    rename_i hread
    split_ifs
    · exact h.setReader hr rfl rfl rfl fun _ ↦ trivial
    · split
      · exact h.setReader hr rfl rfl rfl fun _ ↦ trivial
      · refine h.setReader hr rfl rfl rfl fun hphase ↦ ?_
        simpa only [PhaseOk, hread] using hphase
  · -- all records of the segment are sent
    rename_i hread
    refine h.setReader hr rfl rfl rfl fun hphase ↦ ?_
    simp only [PhaseOk, hread] at hphase
    split_ifs
    · trivial
    · exact ⟨Nat.zero_le n, ⟨List.nodup_nil, by simp, by simp, fun w hw _ ↦ hphase.1 w hw⟩,
        hphase.2⟩
  · -- a record is sent to the worker of its flow
    rename_i record records hread
    split_ifs
    · exact h.setReader hr rfl rfl rfl fun _ ↦ trivial
    · refine h.sendWork hr ?_ (fun hphase ↦ ?_) trivial
      · rintro segment record' heq
        exact (ReplayWork.record.inj heq).1.symm
      · simp only [PhaseOk, hread] at hphase ⊢
        refine ⟨fun w hw ↦ ?_, hphase.2⟩
        by_cases heq : w = workerOf n record.flowId
        · subst heq
          rw [Function.update_self]
          intro hmem
          refine hphase.1 _ hw ?_
          simpa using hmem
        · rw [Function.update_of_ne heq]
          exact hphase.1 w hw
  · refine h.setReader hr rfl rfl rfl fun _ ↦ ?_
    split_ifs <;> trivial
  · -- the barrier is sent to the workers
    rename_i k hread
    split_ifs with hk
    · refine h.sendWork hr (by simp) (fun hphase ↦ ?_) trivial
      simp only [PhaseOk, hread] at hphase ⊢
      exact ⟨hk, hphase.2.1.send hk, hphase.2.2⟩
    · refine h.setReader hr rfl rfl rfl fun hphase ↦ ?_
      simp only [PhaseOk, hread] at hphase
      obtain rfl : k = n := by omega
      exact hphase.2
  · rename_i acked hread
    split_ifs with hlen
    · refine h.setReader hr rfl rfl rfl fun hphase ↦ ?_
      simp only [PhaseOk, hread] at hphase
      exact ⟨hphase.1.all_quiet hlen, hphase.2⟩
    · split
      · exact h
      · rename_i i acks hacks
        refine h.setReader hr rfl rfl rfl fun hphase ↦ ?_
        simp only [PhaseOk, hread, hacks] at hphase ⊢
        rwa [List.append_assoc, List.singleton_append]
  · rename_i hread
    split_ifs
    · exact h.setRun hr (fun hok ↦ hok.sendHitBarrier hread) rfl
    · exact h.setReader hr rfl rfl rfl fun _ ↦ trivial
  · rename_i hread
    split
    · exact h
    · rename_i found hreply
      refine h.setReader hr rfl rfl rfl fun hphase ↦ ?_
      simpa only [PhaseOk, hread, hreply] using hphase
  · rename_i found hread
    refine h.requestBarrier hr fun committed sent hok ↦ ?_
    have hphase := hok.phase
    simp only [PhaseOk, hread] at hphase
    exact ⟨hphase.1, hphase.2, hok.all_sent hphase.1 hphase.2⟩
  · rename_i found before hread
    refine h.awaitBarrier hr fun hstored hphase ↦ ?_
    simp only [PhaseOk, hread] at hphase
    exact ⟨hphase.1, hphase.2.1, fun e he ↦ (hphase.2.2 e he).elim id (hstored e)⟩
  · rename_i found hread
    obtain ⟨hok, hle⟩ := h.run r hr
    refine h.report (hok.report hread _) (fun p hp ↦ ?_) (by push_cast; rfl)
    have := hle p hp
    push_cast
    omega
  · split_ifs
    · exact h.setReader hr rfl rfl rfl fun _ ↦ trivial
    · exact h
  · split_ifs
    · exact h
    · exact h.setReader hr rfl rfl rfl fun _ ↦ trivial
    · exact h.setReader hr rfl rfl rfl fun _ ↦ trivial
  · exact h.requestBarrier hr fun _ _ _ ↦ trivial
  · exact h.awaitBarrier hr fun _ _ ↦ trivial
  · obtain ⟨hok, hle⟩ := h.run r hr
    have hend : RunOk n s.metadata.committed (sentEvents s.metadata) s.produced
        { r with reader := .returned true } := hok.setPhase rfl rfl rfl trivial
    exact h.report hend hle rfl
  · exact h

theorem worker (h : SystemOk n s) (hr : s.run = some r) {i : ℕ} (hi : i < n) :
    SystemOk n (s.worker E r i) := by
  unfold ReplaySystem.worker
  simp only
  by_cases hrun : (r.workers i).running = true
  · rw [if_pos hrun]
    split
    · rename_i number hit sending hsend
      split_ifs
      · exact h.setRun hr (fun hok ↦ hok.sendHit hi hsend) rfl
      · refine h.setRun hr (fun hok ↦ hok.setFlags (fun j ↦ ?_) rfl rfl rfl rfl rfl) rfl
        by_cases heq : j = i
        · subst heq
          simp
        · simp [Function.update_of_ne heq]
    · rename_i segment record queue hsend hqueue
      obtain ⟨hok, hle⟩ := h.run r hr
      obtain ⟨hsegment, hscan⟩ := hok.scan hi hqueue hsend
        ((r.workers i).scanner.scanRecord E record).1
        ((r.workers i).scanner.scanRecord E record).2.out
      refine ⟨h.metadata, fun p hp m segment' hit hm hlt ↦ ?_, fun q hq ↦ ?_⟩
      · -- a new hit is in a segment that no progress counts
        have hnew := hle p hp
        simp only at hm
        rw [List.getElem?_append] at hm
        split_ifs at hm
        · exact h.stored p hp m segment' hit hm hlt
        · obtain ⟨hit', -, heq⟩ := List.mem_map.mp (List.mem_of_getElem? hm)
          obtain ⟨rfl, -⟩ := Prod.mk.inj heq
          omega
      · obtain rfl := Option.some.inj hq
        exact ⟨hscan, hle⟩
    · rename_i queue hsend hqueue
      exact h.setRun hr (fun hok ↦ hok.answer hi hqueue hsend) rfl
    · exact h
  · rw [if_neg hrun]
    exact h

theorem mem_sentEvents_send {s : Metadata ReplayEvent} {p : Process ReplayEvent}
    (hp : s.process = some p) (hlive : ∀ inPlace, p.writer ≠ .stopped inPlace) (e : ReplayEvent) :
    e ∈ sentEvents (s.step (.send e)) := by
  unfold Metadata.step
  simp only [hp, Metadata.send]
  simp [sentEvents]

theorem collector (h : SystemOk n s) (hr : s.run = some r) : SystemOk n (s.collector r) := by
  unfold ReplaySystem.collector
  split_ifs
  · split
    · exact h
    · rename_i hitQueue hqueue
      exact h.setRun hr (fun hok ↦ hok.collectBarrier hqueue _) rfl
    · rename_i number hit hitQueue hqueue
      split
      · exact h.setRun hr (fun hok ↦ hok.setFlags (fun _ ↦ ⟨rfl, rfl⟩) rfl rfl rfl rfl rfl) rfl
      · exact h.setRun hr (fun hok ↦ hok.setFlags (fun _ ↦ ⟨rfl, rfl⟩) rfl rfl rfl rfl rfl) rfl
      · rename_i hnone hstopped
        have hmeta := h.metadataStep (e := .send (.hit number hit)) (by simp)
        refine hmeta.setRun hr (fun hok ↦ hok.collect hqueue (List.prefix_refl _) ?_ _) rfl
        cases hp : s.metadata.process with
        | none => simp [hp] at hnone
        | some p =>
            have hlive : ∀ inPlace, p.writer ≠ .stopped inPlace := by
              intro inPlace hw
              exact hstopped inPlace (by simp [hp, hw])
            exact mem_sentEvents_send hp hlive _
  · exact h

theorem step (h : SystemOk n s) (e : ReplayStep) : SystemOk n (s.step E n e) := by
  unfold ReplaySystem.step
  split
  · refine ⟨h.metadata.step .crash, ?_, fun r hr ↦ by cases hr⟩
    exact fun p hp m segment hit hm hlt ↦
      (h.stored p hp m segment hit hm hlt).mono (committed_step _ _)
  · exact h
  · rename_i e hcrash _
    exact h.metadataStep fun heq ↦ hcrash heq
  · split
    · exact h
    · rename_i r hr
      cases e with
      | reader => exact h.reader hr
      | scanFails =>
          simp only
          split
          · exact h.setReader hr rfl rfl rfl fun _ ↦ trivial
          · exact h
      | readerFails => exact h.setReader hr rfl rfl rfl fun _ ↦ trivial
      | shutdown =>
          exact h.setRun hr (fun hok ↦ hok.setFlags (fun _ ↦ ⟨rfl, rfl⟩) rfl rfl rfl rfl rfl) rfl
      | worker i =>
          simp only
          split_ifs with hi
          · exact h.worker hr hi
          · exact h
      | workerFails i =>
          refine h.setRun hr (fun hok ↦ hok.setFlags (fun j ↦ ?_) rfl rfl rfl rfl rfl) rfl
          by_cases heq : j = i
          · subst heq
            simp
          · simp [Function.update_of_ne heq]
      | collector => exact h.collector hr
      | collectorFails =>
          exact h.setRun hr (fun hok ↦ hok.setFlags (fun _ ↦ ⟨rfl, rfl⟩) rfl rfl rfl rfl rfl) rfl
      | metadata e => exact h

end SystemOk

/-! ## Checkpoints -/

/-- A run that starts with new workers, in a process whatever it and those before it have
done. -/
def ReplaySystem.begin (before : List (MetadataStep ReplayEvent)) (sc : ReplayScanner)
    (paths : List (ℤ × List ContentRecord)) (segmentsDone : ℕ)
    (bytesProcessed initialMatchesFound : ℤ) : ReplaySystem where
  metadata := runFrom Metadata.step {} before
  run := some {
    paths := paths
    segmentsDone := segmentsDone
    bytesProcessed := bytesProcessed
    initialMatchesFound := initialMatchesFound
    workers := fun _ ↦ { scanner := sc } }

theorem systemOk_begin (n : ℕ) (before : List (MetadataStep ReplayEvent)) (sc : ReplayScanner)
    (paths : List (ℤ × List ContentRecord)) (segmentsDone : ℕ)
    (bytesProcessed initialMatchesFound : ℤ) :
    SystemOk n (.begin before sc paths segmentsDone bytesProcessed initialMatchesFound) := by
  refine ⟨metadataOk_run before, fun p hp ↦ absurd hp List.not_mem_nil, fun r hr ↦ ?_⟩
  obtain rfl := Option.some.inj hr
  refine ⟨⟨?_, ?_, ?_, ?_, ?_⟩, fun p hp ↦ absurd hp List.not_mem_nil⟩
  · exact fun e he ↦ by cases he
  · exact fun w _ segment record hmem ↦ by cases hmem
  · exact fun m segment hit hm ↦ by cases hm
  · exact fun m segment hit hm ↦ by cases hm
  · exact ⟨fun w _ ↦ List.not_mem_nil, List.not_mem_nil⟩

/-- Whenever a run has sent a progress for `k` segments, every hit that its workers found
in the first `k` segments is in a batch that is in the spool or already inserted: with any
number of workers, in any interleaving, and whatever fails or crashes before or after. -/
theorem checkpoint_sound (E : Engines) (n : ℕ) (before : List (MetadataStep ReplayEvent))
    (sc : ReplayScanner) (paths : List (ℤ × List ContentRecord)) (segmentsDone : ℕ)
    (bytesProcessed initialMatchesFound : ℤ) (es : List ReplayStep) :
    let s := runFrom (ReplaySystem.step E n)
      (.begin before sc paths segmentsDone bytesProcessed initialMatchesFound) es
    ∀ p ∈ s.progress, ∀ (i segment : ℕ) (hit : MatchRecord),
      s.produced[i]? = some (segment, hit) → (segment : ℤ) < p.segmentsDone →
      ∃ c, (c ∈ s.metadata.spool.map SpoolFile.batch ∨ c ∈ s.metadata.inserted) ∧
        ReplayEvent.hit i hit ∈ c.events := by
  intro s p hp i segment hit hi hlt
  have h : SystemOk n s := invariant_runFrom_of_step (I := SystemOk n) (fun _ e h ↦ h.step e) es
    (systemOk_begin n before sc paths segmentsDone bytesProcessed initialMatchesFound)
  obtain ⟨c, hc, hmem⟩ := h.stored p hp i segment hit hi hlt
  obtain ⟨lo, r, hdisk, -⟩ := h.metadata.numbers
  exact ⟨c, hdisk.kept hc, hmem⟩

/-- A segment with one hit is scanned, and its progress is sent. -/
example :
    let s := runFrom (ReplaySystem.step referenceEngines 1)
      (.begin [.start] flagScanner [(512, (flagStore.contents 0).take 1)] 4 0 0)
      [.reader, .reader, .worker 0, .worker 0, .reader, .reader, .reader, .worker 0, .reader,
        .reader, .reader, .collector, .collector, .reader, .reader, .metadata .receive,
        .metadata .receive, .metadata (.append .ok), .metadata .storeDurable, .metadata .answer,
        .reader, .reader]
    s.progress = [⟨5, 512, 1⟩] ∧ s.produced.map Prod.fst = [4] ∧
      s.metadata.spool.map (fun f ↦ f.batch.events.length) = [1] := by
  decide +kernel

end Bazalt.Replay
