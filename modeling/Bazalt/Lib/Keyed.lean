import Bazalt.Lib.Run

/-!
# Workers that share the keys

A keyed machine handles events one after the other.  Every event belongs to a key, and what
the machine does with it depends only on the part of its state for that key.

Several copies of such a machine take the events from bounded queues, a queue for each copy,
and an event waits in the queue of the copy that owns its key.  Whatever the order in which
events are sent and taken, each key sees its own events in the order in which they were sent,
as if it had a machine of its own.
-/

namespace Bazalt.Lib

section Local

variable {σ ε ο : Type*} (next : σ → ε → σ × List ο)

/-- The last state and all outputs. -/
def runLocal (s : σ) : List ε → σ × List ο
  | [] => (s, [])
  | e :: es =>
      let rest := runLocal (next s e).1 es
      (rest.1, (next s e).2 ++ rest.2)

@[simp] theorem runLocal_nil (s : σ) : runLocal next s [] = (s, []) := rfl

@[simp] theorem runLocal_cons (s : σ) (e : ε) (es : List ε) : runLocal next s (e :: es) =
    ((runLocal next (next s e).1 es).1, (next s e).2 ++ (runLocal next (next s e).1 es).2) := rfl

theorem runLocal_append (s : σ) (as bs : List ε) : runLocal next s (as ++ bs) =
    ((runLocal next (runLocal next s as).1 bs).1,
      (runLocal next s as).2 ++ (runLocal next (runLocal next s as).1 bs).2) := by
  induction as generalizing s with
  | nil => rfl
  | cons e as ih => simp [ih]

theorem runLocal_concat (s : σ) (es : List ε) (e : ε) : runLocal next s (es ++ [e]) =
    ((next (runLocal next s es).1 e).1,
      (runLocal next s es).2 ++ (next (runLocal next s es).1 e).2) := by
  rw [runLocal_append]
  simp

end Local

/-- A machine `step` that acts on each key like the machine `next` acts on its part. -/
structure Keyed (W κ σ ε ο : Type*) where
  key : ε → κ
  step : W → ε → W × List ο
  view : W → κ → σ
  next : σ → ε → σ × List ο
  own : ∀ w e, view (step w e).1 (key e) = (next (view w (key e)) e).1
  other : ∀ w e k, k ≠ key e → view (step w e).1 k = view w k
  output : ∀ w e, (step w e).2 = (next (view w (key e)) e).2

namespace Keyed

variable {W κ σ ε ο ι : Type*} [DecidableEq κ] (M : Keyed W κ σ ε ο)

def eventsOf (k : κ) (es : List ε) : List ε := es.filter fun e ↦ decide (M.key e = k)

theorem eventsOf_append (k : κ) (as bs : List ε) :
    M.eventsOf k (as ++ bs) = M.eventsOf k as ++ M.eventsOf k bs := List.filter_append _ _

@[simp] theorem eventsOf_nil (k : κ) : M.eventsOf k [] = [] := rfl

theorem eventsOf_cons_self (e : ε) (es : List ε) :
    M.eventsOf (M.key e) (e :: es) = e :: M.eventsOf (M.key e) es :=
  List.filter_cons_of_pos (by simp)

theorem eventsOf_cons_of_ne {k : κ} {e : ε} (h : k ≠ M.key e) (es : List ε) :
    M.eventsOf k (e :: es) = M.eventsOf k es :=
  List.filter_cons_of_neg (by simpa using h.symm)

/-- The copies of a machine, with the queues before them.  What was sent and handled and what
came out of it is kept in the order in which it happened. -/
structure Workers (ι W κ ε ο : Type*) where
  worker : ι → W
  queue : ι → List ε := fun _ ↦ []
  stopped : ι → Bool := fun _ ↦ false
  sent : List ε := []
  handled : List ε := []
  log : List (κ × ο) := []

/-- An event is sent, or a copy takes the next one from its queue. -/
inductive Move (ι ε : Type*) where
  | send (e : ε)
  | take (i : ι)

/-- Who owns which keys, how many events a queue holds, and which events are the last one
that a copy handles. -/
structure Layout (ι κ ε : Type*) where
  owner : κ → ι
  capacity : ℕ
  stops : ε → Bool

/-- The outputs that belong to a key. -/
def outputsOf (k : κ) (log : List (κ × ο)) : List ο :=
  log.filterMap fun o ↦ if o.1 = k then some o.2 else none

theorem outputsOf_append (k : κ) (as bs : List (κ × ο)) :
    outputsOf k (as ++ bs) = outputsOf k as ++ outputsOf k bs := List.filterMap_append

theorem outputsOf_map_self (k : κ) (out : List ο) : outputsOf k (out.map (Prod.mk k)) = out := by
  simp [outputsOf, List.filterMap_map]

theorem outputsOf_map_of_ne {k l : κ} (h : k ≠ l) (out : List ο) :
    outputsOf k (out.map (Prod.mk l)) = [] := by
  simp [outputsOf, List.filterMap_map, h.symm]

namespace Workers

variable [DecidableEq ι] (L : Layout ι κ ε)

/-- The queue of the event's owner has room for it. -/
def Takes (w : Workers ι W κ ε ο) (e : ε) : Prop :=
  w.stopped (L.owner (M.key e)) = false ∧ (w.queue (L.owner (M.key e))).length < L.capacity

instance (w : Workers ι W κ ε ο) (e : ε) : Decidable (Takes M L w e) :=
  inferInstanceAs (Decidable (_ ∧ _))

def enqueue (w : Workers ι W κ ε ο) (e : ε) : Workers ι W κ ε ο :=
  { w with
    queue := Function.update w.queue (L.owner (M.key e)) (w.queue (L.owner (M.key e)) ++ [e])
    sent := w.sent ++ [e] }

/-- The copy `i` handles the event `e`, and `rest` is left in its queue. -/
def handle (w : Workers ι W κ ε ο) (i : ι) (e : ε) (rest : List ε) : Workers ι W κ ε ο :=
  { w with
    worker := Function.update w.worker i (M.step (w.worker i) e).1
    queue := Function.update w.queue i (if L.stops e then [] else rest)
    stopped := Function.update w.stopped i (L.stops e)
    handled := w.handled ++ [e]
    log := w.log ++ (M.step (w.worker i) e).2.map (Prod.mk (M.key e)) }

/-- A send that finds no room waits. -/
def step (w : Workers ι W κ ε ο) : Move ι ε → Workers ι W κ ε ο
  | .send e => if Takes M L w e then w.enqueue M L e else w
  | .take i =>
      if w.stopped i then w
      else match w.queue i with
        | [] => w
        | e :: rest => w.handle M L i e rest

/-- Every key has its own part of the events and of the outputs. -/
structure Faithful (start : W) (w : Workers ι W κ ε ο) : Prop where
  state : ∀ k, M.view (w.worker (L.owner k)) k =
    (runLocal M.next (M.view start k) (M.eventsOf k w.handled)).1
  outputs : ∀ k, outputsOf k w.log =
    (runLocal M.next (M.view start k) (M.eventsOf k w.handled)).2
  foreign : ∀ i k, L.owner k ≠ i → M.view (w.worker i) k = M.view start k
  queued : ∀ i, ∀ e ∈ w.queue i, L.owner (M.key e) = i
  inOrder : ∀ k, M.eventsOf k w.handled <+: M.eventsOf k w.sent
  pending : ∀ k, w.stopped (L.owner k) = false →
    M.eventsOf k w.handled ++ M.eventsOf k (w.queue (L.owner k)) = M.eventsOf k w.sent

variable {M L} {start : W} {w : Workers ι W κ ε ο}

omit [DecidableEq ι] in
theorem faithful_start :
    Faithful M L start ({ worker := fun _ ↦ start } : Workers ι W κ ε ο) where
  state _ := rfl
  outputs _ := rfl
  foreign _ _ _ := rfl
  queued _ _ he := absurd he List.not_mem_nil
  inOrder _ := List.prefix_rfl
  pending _ _ := rfl

theorem Faithful.enqueue (h : Faithful M L start w) (e : ε) :
    Faithful M L start (w.enqueue M L e) where
  state := h.state
  outputs := h.outputs
  foreign := h.foreign
  queued i e' he' := by
    dsimp only [Workers.enqueue] at he'
    by_cases hi : i = L.owner (M.key e)
    · subst hi
      rw [Function.update_self] at he'
      rcases List.mem_append.mp he' with he' | he'
      · exact h.queued _ e' he'
      · rw [List.mem_singleton.mp he']
    · rw [Function.update_of_ne hi] at he'
      exact h.queued i e' he'
  inOrder k := by
    rw [Workers.enqueue, eventsOf_append]
    exact (h.inOrder k).trans (List.prefix_append _ _)
  pending k hk := by
    have hpending := h.pending k hk
    dsimp only [Workers.enqueue]
    rw [eventsOf_append, ← hpending]
    by_cases howner : L.owner k = L.owner (M.key e)
    · rw [howner, Function.update_self, eventsOf_append, List.append_assoc]
    · have hne : k ≠ M.key e := fun heq ↦ howner (heq ▸ rfl)
      rw [Function.update_of_ne howner, eventsOf_cons_of_ne M hne, eventsOf_nil, List.append_nil]

theorem Faithful.handle (h : Faithful M L start w) {i : ι} {e : ε} {rest : List ε}
    (hrunning : w.stopped i = false) (hqueue : w.queue i = e :: rest) :
    Faithful M L start (w.handle M L i e rest) := by
  have howner : L.owner (M.key e) = i := h.queued i e (hqueue ▸ List.mem_cons_self)
  have hown : M.eventsOf (M.key e) (w.handled ++ [e]) =
      M.eventsOf (M.key e) w.handled ++ [e] := by
    rw [eventsOf_append, eventsOf_cons_self, eventsOf_nil]
  have hother : ∀ k, k ≠ M.key e → M.eventsOf k (w.handled ++ [e]) = M.eventsOf k w.handled := by
    intro k hk
    rw [eventsOf_append, eventsOf_cons_of_ne M hk, eventsOf_nil, List.append_nil]
  have hstate := h.state (M.key e)
  rw [howner] at hstate
  constructor
  · intro k
    change M.view (Function.update w.worker i _ (L.owner k)) k =
      (runLocal M.next (M.view start k) (M.eventsOf k (w.handled ++ [e]))).1
    by_cases hk : k = M.key e
    · subst hk
      rw [hown, runLocal_concat, howner, Function.update_self, M.own, hstate]
    · rw [hother k hk, ← h.state k]
      by_cases hi : L.owner k = i
      · rw [hi, Function.update_self, M.other _ _ _ hk]
      · rw [Function.update_of_ne hi]
  · intro k
    change outputsOf k (w.log ++ _) =
      (runLocal M.next (M.view start k) (M.eventsOf k (w.handled ++ [e]))).2
    rw [outputsOf_append, h.outputs k]
    by_cases hk : k = M.key e
    · subst hk
      rw [hown, runLocal_concat, outputsOf_map_self, M.output, hstate]
    · rw [hother k hk, outputsOf_map_of_ne hk, List.append_nil]
  · intro j k hk
    change M.view (Function.update w.worker i _ j) k = _
    by_cases hj : j = i
    · subst hj
      have hne : k ≠ M.key e := fun heq ↦ hk (heq ▸ howner)
      rw [Function.update_self, M.other _ _ _ hne]
      exact h.foreign j k hk
    · rw [Function.update_of_ne hj]
      exact h.foreign j k hk
  · intro j e' he'
    change e' ∈ Function.update w.queue i _ j at he'
    by_cases hj : j = i
    · subst hj
      rw [Function.update_self] at he'
      split_ifs at he'
      · exact absurd he' List.not_mem_nil
      · exact h.queued j e' (hqueue ▸ List.mem_cons_of_mem e he')
    · rw [Function.update_of_ne hj] at he'
      exact h.queued j e' he'
  · intro k
    change M.eventsOf k (w.handled ++ [e]) <+: M.eventsOf k w.sent
    by_cases hk : k = M.key e
    · subst hk
      have hpending := h.pending (M.key e) (howner ▸ hrunning)
      rw [howner, hqueue, eventsOf_cons_self] at hpending
      rw [hown, ← hpending]
      exact ⟨M.eventsOf (M.key e) rest, by rw [List.append_assoc, List.singleton_append]⟩
    · rw [hother k hk]
      exact h.inOrder k
  · intro k hk
    change Function.update w.stopped i _ (L.owner k) = false at hk
    change M.eventsOf k (w.handled ++ [e]) ++
      M.eventsOf k (Function.update w.queue i _ (L.owner k)) = M.eventsOf k w.sent
    by_cases hi : L.owner k = i
    · rw [hi, Function.update_self] at hk
      have hpending := h.pending k (hi ▸ hrunning)
      rw [hi, hqueue] at hpending
      rw [hi, Function.update_self, hk, if_neg Bool.false_ne_true, ← hpending]
      by_cases hkey : k = M.key e
      · subst hkey
        rw [hown, eventsOf_cons_self, List.append_assoc, List.singleton_append]
      · rw [hother k hkey, eventsOf_cons_of_ne M hkey]
    · have hne : k ≠ M.key e := fun heq ↦ hi (heq ▸ howner)
      rw [Function.update_of_ne hi] at hk
      rw [hother k hne, Function.update_of_ne hi]
      exact h.pending k hk

theorem Faithful.step (h : Faithful M L start w) (m : Move ι ε) :
    Faithful M L start (w.step M L m) := by
  cases m with
  | send e =>
      rw [Workers.step]
      split_ifs
      · exact h.enqueue e
      · exact h
  | take i =>
      rw [Workers.step]
      split_ifs with hstopped
      · exact h
      · cases hqueue : w.queue i with
        | nil => exact h
        | cons e rest => exact h.handle (Bool.eq_false_iff.mpr hstopped) hqueue

/-- The run lemma. -/
theorem faithful_runFrom (moves : List (Move ι ε)) :
    Faithful M L start (runFrom (Workers.step M L) { worker := fun _ ↦ start } moves) :=
  invariant_runFrom_of_step (I := Faithful M L start) (fun _ m h ↦ h.step m) moves faithful_start

/-- The queue of the key's owner is empty, and the owner still runs. -/
def Drained (L : Layout ι κ ε) (w : Workers ι W κ ε ο) (k : κ) : Prop :=
  w.stopped (L.owner k) = false ∧ w.queue (L.owner k) = []

omit [DecidableEq ι] in
/-- When nothing waits any more, everything that was sent has been handled. -/
theorem Faithful.handled_eq (h : Faithful M L start w) {k : κ} (hk : Drained L w k) :
    M.eventsOf k w.handled = M.eventsOf k w.sent := by
  rw [← h.pending k hk.1, hk.2, eventsOf_nil, List.append_nil]

end Workers

end Keyed

end Bazalt.Lib
