import Bazalt.Live.Content

/-!
# Nothing stays behind

When no packets come any more, the shards send what they have left and the workers take what
is in their queues.  The queues are bounded, so a shard may have to wait for a worker, but a
worker waits for nobody: as long as anything waits, something can move.  Every move brings an
event nearer to its worker, so that after as many moves as the measure says everything that
the shards have put out is handled.
-/

namespace Bazalt.Live

open Lib Bazalt.Flow Http L7Worker

namespace Content

variable {ι : Type} [DecidableEq ι] {n : ℕ} (cfg : ContentConfig) (s : Content ι n)

/-- A shard can send its next event, or a worker has something to take. -/
def Moves : Event ι n → Prop
  | .shard _ _ _ => False
  | .send i r => r.metadata = true ∧ ∃ e ∈ (s.unsent i).head?, Takes cfg s.l7 ⟨e, r⟩
  | .take j => s.l7.queue j ≠ []

instance : DecidablePred (Moves cfg s)
  | .shard _ _ _ => .isFalse id
  | .send i r =>
      decidable_of_iff (r.metadata = true ∧
        ((s.unsent i).head?.any fun e ↦ decide (Takes cfg s.l7 ⟨e, r⟩)) = true) (by
          simp [Moves, Option.any_eq_true])
  | .take j => inferInstanceAs (Decidable (s.l7.queue j ≠ []))

/-- An event that is not sent yet has two moves before it. -/
def waiting [Fintype ι] : ℕ :=
  ∑ i, 2 * (s.unsent i).length + ∑ j, (s.l7.queue j).length

variable {cfg} {s}

omit [DecidableEq ι] in
theorem meets_of_moves {e : Event ι n} (h : Moves cfg s e) : Meets cfg s e := by
  cases e with
  | shard i active m => exact h.elim
  | send i r => exact h.1
  | take j => trivial

theorem shard_of_moves {e : Event ι n} (h : Moves cfg s e) : (s.step cfg e).shard = s.shard := by
  cases e with
  | shard i active m => exact h.elim
  | send i r =>
      dsimp only [Content.step]
      cases s.unsent i with
      | nil => rfl
      | cons e rest =>
          dsimp only
          split_ifs <;> rfl
  | take j => rfl

/-- The measure goes down. -/
theorem waiting_lt_of_moves [Fintype ι] (hs : Sound cfg s) {e : Event ι n} (h : Moves cfg s e) :
    (s.step cfg e).waiting < s.waiting := by
  cases e with
  | shard i active m => exact h.elim
  | send i r =>
      obtain ⟨-, e, he, htakes⟩ := h
      obtain ⟨rest, hunsent⟩ := List.head?_eq_some_iff.mp he
      dsimp only [Content.step]
      rw [hunsent]
      dsimp only
      rw [if_pos htakes, Keyed.Workers.step, if_pos htakes]
      have hshards := sum_update_add (fun _ (es : List FlowOutput) ↦ 2 * es.length) s.unsent i rest
      have hqueues := sum_update_add (fun _ (ds : List Delivery) ↦ ds.length) s.l7.queue
        ((l7Layout n cfg.flowToL7Capacity).owner ((keyed cfg.http).key ⟨e, r⟩))
        (s.l7.queue ((l7Layout n cfg.flowToL7Capacity).owner ((keyed cfg.http).key ⟨e, r⟩)) ++
          [⟨e, r⟩])
      rw [hunsent, List.length_cons] at hshards
      rw [List.length_append, List.length_singleton] at hqueues
      dsimp only [waiting, Keyed.Workers.enqueue]
      omega
  | take j =>
      obtain ⟨d, rest, hqueue⟩ := List.exists_cons_of_ne_nil h
      have hstops : (l7Layout n cfg.flowToL7Capacity).stops d = false :=
        hs.inFlight j d (hqueue ▸ List.mem_cons_self)
      dsimp only [Content.step]
      rw [Keyed.Workers.step, hs.running j, if_neg Bool.false_ne_true, hqueue]
      have hqueues := sum_update_add (fun _ (ds : List Delivery) ↦ ds.length) s.l7.queue j rest
      rw [hqueue, List.length_cons] at hqueues
      dsimp only [waiting, Keyed.Workers.handle]
      rw [hstops, if_neg Bool.false_ne_true]
      omega

omit [DecidableEq ι] in
/-- Where nothing can move, nothing waits: a queue that is full has something to take. -/
theorem empty_of_not_moves (hs : Sound cfg s) (h : ∀ e, ¬ Moves cfg s e) :
    (∀ i, s.unsent i = []) ∧ ∀ j, s.l7.queue j = [] := by
  have hqueues : ∀ j, s.l7.queue j = [] := fun j ↦ by
    by_contra hne
    exact h (.take j) hne
  refine ⟨fun i ↦ ?_, hqueues⟩
  by_contra hne
  obtain ⟨e, rest, hunsent⟩ := List.exists_cons_of_ne_nil hne
  apply h (.send i webReadings)
  refine ⟨rfl, e, by rw [hunsent]; rfl, hs.running _, ?_⟩
  rw [hqueues]
  exact Nat.lt_of_lt_of_le Nat.zero_lt_one (le_max_right _ 1)

omit [DecidableEq ι] in
theorem not_moves_of_empty (hunsent : ∀ i, s.unsent i = []) (hqueues : ∀ j, s.l7.queue j = [])
    (e : Event ι n) : ¬ Moves cfg s e := by
  cases e with
  | shard i active m => exact id
  | send i r =>
      rintro ⟨-, e, he, -⟩
      rw [hunsent] at he
      cases he
  | take j => exact fun h ↦ h (hqueues j)

theorem moves_runFrom {more : List (Event ι n)} (hs : Sound cfg s)
    (h : Along (Content.step cfg) (Moves cfg) s more) :
    Sound cfg (runFrom (Content.step cfg) s more) ∧
      (runFrom (Content.step cfg) s more).shard = s.shard :=
  invariant_runFrom (I := fun t ↦ Sound cfg t ∧ t.shard = s.shard)
    (fun _ e ht hmoves ↦ ⟨ht.1.step e (meets_of_moves hmoves),
      (shard_of_moves hmoves).trans ht.2⟩) ⟨hs, rfl⟩ h

theorem along_waiting [Fintype ι] {more : List (Event ι n)} (hs : Sound cfg s)
    (h : Along (Content.step cfg) (Moves cfg) s more) :
    Along (Content.step cfg) (fun t e ↦ (t.step cfg e).waiting < t.waiting) s more := by
  refine along_iff.mpr fun before e later hsplit ↦ ?_
  subst hsplit
  have hbefore := along_append.mp h
  exact waiting_lt_of_moves (moves_runFrom hs hbefore.1).1 hbefore.2.1

/-- After any run, in whatever order shards and workers then go on: they come to an end, and at
the end every event that a shard has put out is handled, and a worker knows something only of
flows that are in the table of a shard. -/
theorem drained_of_flow [Fintype ι] (cfg : ContentConfig) (es more : List (Event ι n))
    (h : Along (Content.step cfg) (Meets cfg) {} es)
    (hmore : Along (Content.step cfg) (Moves cfg) (after cfg es) more) :
    let t := after cfg (es ++ more)
    more.length ≤ (after cfg es).waiting ∧ t.shard = (after cfg es).shard ∧
      ((∀ e, ¬ Moves cfg t e) → ∀ i id, id ∈ (t.shard i).created →
        (handledOf cfg t id).map Delivery.event = eventsOf id (t.shard i).log ∧
          ∀ j, (t.l7.worker j).flow id ≠ {} → (t.shard i).Live id) := by
  intro t
  have hsound := sound_after h
  have ht : t = runFrom (Content.step cfg) (after cfg es) more := runFrom_append _ _ _ _
  obtain ⟨hfinal, hshard⟩ := moves_runFrom hsound hmore
  rw [← ht] at hfinal hshard
  have hsteps := @Along.length_add_le _ _ _ (fun t : Content ι n ↦ t.waiting) _ _
    (along_waiting hsound hmore)
  refine ⟨(Nat.le_add_right _ _).trans hsteps, hshard, fun hstuck i id hid ↦ ?_⟩
  obtain ⟨hunsent, hqueues⟩ := empty_of_not_moves hfinal hstuck
  refine ⟨(hfinal.kept hid).complete (hunsent i) (hqueues _), fun j hknows ↦ ?_⟩
  obtain ⟨-, k, hk, hlive | ⟨e, he, -⟩⟩ := hfinal.knows hknows
  · rwa [hfinal.apart i k id hid hk]
  · rw [hunsent, hqueues] at he
    exact absurd he List.not_mem_nil

/-- The worker takes both events of the round, each as soon as it is sent. -/
def webDrain : List (Event (Fin 1) 0) := webRun.drop 3 ++ webRun.drop 3

theorem drained_of_webFlow :
    let t := after webConfig (webRun.take 3 ++ webDrain)
    webDrain.length = 4 ∧ (after webConfig (webRun.take 3)).waiting = 4 ∧
      (∀ e, ¬ Moves webConfig t e) ∧ (t.shard 0).log.length = 2 ∧
      (handledOf webConfig t 1).map Delivery.event = eventsOf 1 (t.shard 0).log := by
  intro t
  have hmoves : Along (Content.step webConfig) (Moves webConfig)
      (after webConfig (webRun.take 3)) webDrain := by
    decide +kernel
  have hmeets : Along (Content.step webConfig) (Meets webConfig) {} (webRun.take 3) :=
    (along_append.mp (List.take_append_drop 3 webRun ▸ meets_webRun)).1
  have hstuck : ∀ e, ¬ Moves webConfig t e :=
    not_moves_of_empty (by decide +kernel) (by decide +kernel)
  obtain ⟨-, -, hdrained⟩ := drained_of_flow webConfig (webRun.take 3) webDrain hmeets hmoves
  refine ⟨rfl, by decide +kernel, hstuck, by decide +kernel, ?_⟩
  exact (hdrained hstuck 0 1 (by decide +kernel)).1

end Content

end Bazalt.Live
