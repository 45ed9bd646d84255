import Bazalt.Lib.Run
import Bazalt.Model

/-!
# The gauges of the live queues

The flow, L7 and matcher queues have a gauge each, for all of their shards.  A producer
raises it after its item is in the channel, and a consumer lowers it after it has taken an
item out.  In between the item may already be gone again: then the consumer finds the gauge
at zero, its decrement is lost, and the gauge is one too high from then on.

What else the live pressure is computed from, the storage and segment queues and the spool,
is set by its owners at any time.
-/

namespace Bazalt.Live

open Lib

structure QueueGauge where
  depth : ℕ := 0
  highWatermark : ℕ := 0
  capacity : ℕ := 0
  deriving DecidableEq, Repr

namespace QueueGauge

def observeQueue (g : QueueGauge) (value : ℕ) : QueueGauge :=
  { g with depth := value, highWatermark := max g.highWatermark value }

def queueEnqueued (g : QueueGauge) : QueueGauge × ℕ :=
  let value := satAdd g.depth 1
  ({ g with
      depth := (g.depth + 1) % 2 ^ 64
      highWatermark := max g.highWatermark value }, value)

def queueDequeued (g : QueueGauge) : QueueGauge := { g with depth := g.depth - 1 }

end QueueGauge

/-- The queues between live workers. -/
inductive Queue where
  | flow
  | l7
  | matcher
  deriving DecidableEq, Repr

instance : Fintype Queue := ⟨{.flow, .l7, .matcher}, fun q ↦ by cases q <;> decide⟩

structure Metrics where
  live : Queue → QueueGauge := fun _ ↦ {}
  storage : QueueGauge := {}
  segment : QueueGauge := {}
  metadataSpoolBytes : ℕ := 0
  metadataSpoolCapacity : ℕ := 0

structure Capacities where
  live : Queue → ℕ
  storage : ℕ
  segment : ℕ
  metadataSpool : ℕ

namespace Metrics

def new (caps : Capacities) : Metrics where
  live q := { capacity := caps.live q }
  storage := { capacity := caps.storage }
  segment := { capacity := caps.segment }
  metadataSpoolCapacity := caps.metadataSpool

def update (m : Metrics) (q : Queue) (f : QueueGauge → QueueGauge) : Metrics :=
  { m with live := Function.update m.live q (f (m.live q)) }

/-- The gauges behind the pressure, with their capacities. -/
def pairs (m : Metrics) : List (ℕ × ℕ) :=
  [((m.live .flow).depth, (m.live .flow).capacity), ((m.live .l7).depth, (m.live .l7).capacity),
    ((m.live .matcher).depth, (m.live .matcher).capacity), (m.storage.depth, m.storage.capacity),
    (m.segment.depth, m.segment.capacity), (m.metadataSpoolBytes, m.metadataSpoolCapacity)]

def livePressurePct (m : Metrics) : ℕ :=
  (((m.pairs.filter fun p ↦ decide (0 < p.2)).map fun p ↦
    min (p.1 * 100) u64Max / p.2).max?).getD 0

theorem livePressurePct_eq_zero {m : Metrics} (h : ∀ p ∈ m.pairs, p.1 = 0) :
    m.livePressurePct = 0 := by
  unfold livePressurePct
  cases hmax : ((m.pairs.filter fun p ↦ decide (0 < p.2)).map fun p ↦
      min (p.1 * 100) u64Max / p.2).max? with
  | none => rfl
  | some v =>
      obtain ⟨p, hp, rfl⟩ := List.mem_map.mp (List.max?_mem hmax)
      rw [h p (List.mem_filter.mp hp).1]
      simp

end Metrics

/-! ## Producers and consumers -/

/-- The channels of the queues. -/
structure Channels (κ : Type) where
  queue : κ → Queue
  capacity : κ → ℕ

structure Shared (κ α : Type) where
  channels : κ → List α := fun _ ↦ []
  metrics : Metrics := {}

/-- A worker is between its send and the increment, between its receive and the decrement,
or neither. -/
inductive Phase where
  | idle
  | sent (q : Queue)
  | received (q : Queue)
  deriving DecidableEq, Repr

inductive Action (κ α : Type) where
  | send (channel : κ) (item : α)
  | receive (channel : κ)
  | proceed
  | observeStorage (value : ℕ)
  | observeSegment (value : ℕ)
  | observeSpool (bytes : ℕ)

section Next

variable {κ α : Type} [DecidableEq κ]

/-- A send into a full channel waits or gives up, a receive from an empty one waits. -/
def next (chans : Channels κ) (action : Action κ α) (s : Shared κ α) (phase : Phase) :
    Shared κ α × Phase :=
  match phase, action with
  | .idle, .send k x =>
      if (s.channels k).length < chans.capacity k then
        ({ s with channels := Function.update s.channels k (s.channels k ++ [x]) },
          .sent (chans.queue k))
      else (s, .idle)
  | .idle, .receive k =>
      match s.channels k with
      | [] => (s, .idle)
      | _ :: rest =>
          ({ s with channels := Function.update s.channels k rest }, .received (chans.queue k))
  | .sent q, .proceed =>
      ({ s with metrics := s.metrics.update q fun g ↦ g.queueEnqueued.1 }, .idle)
  | .received q, .proceed =>
      ({ s with metrics := s.metrics.update q QueueGauge.queueDequeued }, .idle)
  | phase, .observeStorage value =>
      ({ s with metrics := { s.metrics with storage := s.metrics.storage.observeQueue value } },
        phase)
  | phase, .observeSegment value =>
      ({ s with metrics := { s.metrics with segment := s.metrics.segment.observeQueue value } },
        phase)
  | phase, .observeSpool bytes =>
      ({ s with metrics := { s.metrics with metadataSpoolBytes := bytes } }, phase)
  | phase, _ => (s, phase)

end Next

/-- The workers, and the channels and gauges that they share. -/
abbrev Workers (ι κ α : Type) := Pool ι (Shared κ α) Phase

def Action.isProceed {κ α : Type} : Action κ α → Bool
  | proceed => true
  | _ => false

def Phase.sending (q : Queue) (phase : Phase) : ℕ := if phase = .sent q then 1 else 0

def Phase.receiving (q : Queue) (phase : Phase) : ℕ := if phase = .received q then 1 else 0

def Shared.depth {κ α : Type} (s : Shared κ α) (q : Queue) : ℕ := (s.metrics.live q).depth

section Items

variable {κ α : Type} [Fintype κ]

def Shared.items (s : Shared κ α) (chans : Channels κ) (q : Queue) : ℕ :=
  ∑ k, if chans.queue k = q then (s.channels k).length else 0

end Items

namespace Workers

variable {ι κ α : Type} [DecidableEq ι] [DecidableEq κ]

/-- The workers start with empty channels and gauges. -/
def start (caps : Capacities) : Workers ι κ α := ⟨{ metrics := .new caps }, fun _ ↦ .idle⟩

def step (chans : Channels κ) (sys : Workers ι κ α) (e : ι × Action κ α) : Workers ι κ α :=
  Pool.step (next chans e.2) sys e.1

def after (chans : Channels κ) (caps : Capacities) (moves : List (ι × Action κ α)) :
    Workers ι κ α := runFrom (step chans) (start caps) moves

/-- No worker is about to update the gauge. -/
def Quiet (sys : Workers ι κ α) (q : Queue) : Prop :=
  ∀ i, sys.locals i ≠ .sent q ∧ sys.locals i ≠ .received q

/-- A decrement finds the gauge above zero. -/
def Finds (sys : Workers ι κ α) (e : ι × Action κ α) : Prop :=
  ∀ q, e.2.isProceed = true → sys.locals e.1 = .received q → 0 < sys.shared.depth q

/-- An increment finds room in the gauge. -/
def Fits (sys : Workers ι κ α) (e : ι × Action κ α) : Prop :=
  ∀ q, e.2.isProceed = true → sys.locals e.1 = .sent q → sys.shared.depth q < u64Max

instance (sys : Workers ι κ α) (e : ι × Action κ α) : Decidable (Finds sys e) :=
  inferInstanceAs (Decidable (∀ q, e.2.isProceed = true → sys.locals e.1 = .received q →
    0 < sys.shared.depth q))

instance (sys : Workers ι κ α) (e : ι × Action κ α) : Decidable (Fits sys e) :=
  inferInstanceAs (Decidable (∀ q, e.2.isProceed = true → sys.locals e.1 = .sent q →
    sys.shared.depth q < u64Max))

end Workers

/-! ## One step -/

section OneStep

variable {κ α : Type} [DecidableEq κ] [Fintype κ] {chans : Channels κ} {s : Shared κ α}

theorem items_update (k : κ) (xs : List α) (q : Queue) :
    ({ s with channels := Function.update s.channels k xs } : Shared κ α).items chans q +
        (if chans.queue k = q then (s.channels k).length else 0) =
      s.items chans q + if chans.queue k = q then xs.length else 0 :=
  sum_update_add (fun k (xs : List α) ↦ if chans.queue k = q then xs.length else 0) s.channels k xs

/-- A step adds the same to the gauge with the increments to come as to the items with the
decrements to come. -/
def Balanced (chans : Channels κ) (q : Queue) (s : Shared κ α) (phase : Phase)
    (r : Shared κ α × Phase) : Prop :=
  r.1.depth q + r.2.sending q + (s.items chans q + phase.receiving q) =
    s.depth q + phase.sending q + (r.1.items chans q + r.2.receiving q)

omit [DecidableEq κ] in
theorem balanced_gauge {q : Queue} {phase phase' : Phase} (m : Metrics)
    (h : (m.live q).depth + phase'.sending q + phase.receiving q =
      s.depth q + phase.sending q + phase'.receiving q) :
    Balanced chans q s phase ({ s with metrics := m }, phase') := by
  have hitems : ({ s with metrics := m } : Shared κ α).items chans q = s.items chans q := rfl
  have hdepth : ({ s with metrics := m } : Shared κ α).depth q = (m.live q).depth := rfl
  unfold Balanced
  dsimp only
  omega

theorem balanced_channel {q : Queue} {k : κ} {xs : List α} {phase' : Phase}
    (hsame : chans.queue k = q → (s.channels k).length + phase'.sending q =
      xs.length + phase'.receiving q)
    (hother : chans.queue k ≠ q → phase'.sending q = phase'.receiving q) :
    Balanced chans q s .idle ({ s with channels := Function.update s.channels k xs }, phase') := by
  have hitems : _ + (if chans.queue k = q then (s.channels k).length else 0) =
    s.items chans q + if chans.queue k = q then xs.length else 0 := items_update k xs q
  have hdepth : ({ s with channels := Function.update s.channels k xs } : Shared κ α).depth q =
    s.depth q := rfl
  have hidle : Phase.idle.sending q = Phase.idle.receiving q := rfl
  unfold Balanced
  dsimp only
  by_cases hq : chans.queue k = q
  · have := hsame hq
    rw [if_pos hq, if_pos hq] at hitems
    omega
  · have := hother hq
    rw [if_neg hq, if_neg hq] at hitems
    omega

theorem next_balanced {action : Action κ α} {phase : Phase} (q : Queue)
    (hkept : action.isProceed = true → (phase = .received q → 0 < s.depth q) ∧
      (phase = .sent q → s.depth q < u64Max)) :
    Balanced chans q s phase (next chans action s phase) := by
  unfold next
  split
  case h_1 k x =>
    split_ifs
    · refine balanced_channel (fun hq ↦ ?_) fun hq ↦ ?_
      · simp [Phase.sending, Phase.receiving, hq]
      · simp [Phase.sending, Phase.receiving, hq]
    · rfl
  case h_2 k =>
    cases hchannel : s.channels k with
    | nil => rfl
    | cons x rest =>
        refine balanced_channel (fun hq ↦ ?_) fun hq ↦ ?_
        · simp [Phase.sending, Phase.receiving, hq, hchannel]
        · simp [Phase.sending, Phase.receiving, hq]
  case h_3 q' =>
    refine balanced_gauge _ ?_
    by_cases hq : q' = q
    · subst hq
      have hroom := (hkept rfl).2 rfl
      have hmod : (s.depth q' + 1) % 2 ^ 64 = s.depth q' + 1 := by
        unfold u64Max at hroom
        exact Nat.mod_eq_of_lt (by omega)
      simp only [Metrics.update, Function.update_self, QueueGauge.queueEnqueued, Phase.sending,
        Phase.receiving, reduceCtorEq, if_true, if_false]
      exact hmod
    · have hne : q ≠ q' := fun h ↦ hq h.symm
      simp [Metrics.update, hne, hq, Phase.sending, Phase.receiving, Shared.depth]
  case h_4 q' =>
    refine balanced_gauge _ ?_
    by_cases hq : q' = q
    · subst hq
      have hpos := (hkept rfl).1 rfl
      rw [Shared.depth] at hpos
      simp only [Metrics.update, Function.update_self, QueueGauge.queueDequeued, Phase.sending,
        Phase.receiving, Shared.depth, reduceCtorEq, if_true, if_false]
      omega
    · have hne : q ≠ q' := fun h ↦ hq h.symm
      simp [Metrics.update, hne, hq, Phase.sending, Phase.receiving, Shared.depth]
  all_goals rfl

end OneStep

/-! ## Runs -/

namespace Workers

variable {ι κ α : Type} [DecidableEq ι] [DecidableEq κ] [Fintype ι] [Fintype κ]
  {chans : Channels κ} {sys : Workers ι κ α}

/-- The gauge is `lost` too high, apart from the workers that have not updated it yet. -/
def Off (chans : Channels κ) (q : Queue) (lost : ℕ) (sys : Workers ι κ α) : Prop :=
  sys.shared.depth q + ∑ i, (sys.locals i).sending q =
    sys.shared.items chans q + ∑ i, (sys.locals i).receiving q + lost

theorem Off.step {q : Queue} {lost : ℕ} (h : Off chans q lost sys) {e : ι × Action κ α}
    (hkept : e.2.isProceed = true → (sys.locals e.1 = .received q → 0 < sys.shared.depth q) ∧
      (sys.locals e.1 = .sent q → sys.shared.depth q < u64Max)) :
    Off chans q lost (sys.step chans e) := by
  have hnext : Balanced chans q sys.shared (sys.locals e.1)
    (next chans e.2 sys.shared (sys.locals e.1)) := next_balanced q hkept
  have hsending : ∑ i, ((sys.step chans e).locals i).sending q + (sys.locals e.1).sending q = _ :=
    Pool.sum_locals_step (Phase.sending q) e.1
  have hreceiving : ∑ i, ((sys.step chans e).locals i).receiving q +
    (sys.locals e.1).receiving q = _ := Pool.sum_locals_step (Phase.receiving q) e.1
  have hshared : (sys.step chans e).shared = (next chans e.2 sys.shared (sys.locals e.1)).1 := rfl
  unfold Off Balanced at *
  rw [hshared]
  omega

/-- A decrement that finds the gauge at zero is lost for good. -/
theorem Off.lose {q : Queue} {lost : ℕ} (h : Off chans q lost sys) {i : ι}
    (hphase : sys.locals i = .received q) (hzero : sys.shared.depth q = 0) :
    Off chans q (lost + 1) (sys.step chans (i, .proceed)) := by
  have hnext : next chans .proceed sys.shared (sys.locals i) =
      ({ sys.shared with metrics := sys.shared.metrics.update q QueueGauge.queueDequeued },
        .idle) := by
    rw [hphase]
    rfl
  have hsending : ∑ j, ((sys.step chans (i, .proceed)).locals j).sending q +
    (sys.locals i).sending q = _ := Pool.sum_locals_step (Phase.sending q) i
  have hreceiving : ∑ j, ((sys.step chans (i, .proceed)).locals j).receiving q +
    (sys.locals i).receiving q = _ := Pool.sum_locals_step (Phase.receiving q) i
  have hshared : (sys.step chans (i, .proceed)).shared =
      { sys.shared with metrics := sys.shared.metrics.update q QueueGauge.queueDequeued } :=
    congrArg Prod.fst hnext
  have hdepth : (sys.step chans (i, .proceed)).shared.depth q = sys.shared.depth q - 1 := by
    rw [hshared]
    simp [Shared.depth, Metrics.update, QueueGauge.queueDequeued]
  have hitems : (sys.step chans (i, .proceed)).shared.items chans q =
      sys.shared.items chans q := by
    rw [hshared]
    rfl
  have hgone : Phase.idle.sending q = 0 ∧ Phase.idle.receiving q = 0 ∧
      (Phase.received q).sending q = 0 ∧ (Phase.received q).receiving q = 1 := by
    simp [Phase.sending, Phase.receiving]
  dsimp only at hsending hreceiving
  rw [hnext, hphase] at hsending hreceiving
  dsimp only at hsending hreceiving
  unfold Off at *
  omega

omit [DecidableEq ι] [DecidableEq κ] in
theorem off_start (chans : Channels κ) (caps : Capacities) (q : Queue) :
    Off chans q 0 (start caps : Workers ι κ α) := by
  simp [Off, start, Shared.depth, Shared.items, Metrics.new, Phase.sending, Phase.receiving]

omit [DecidableEq ι] [DecidableEq κ] in
theorem Off.depth_of_quiet {q : Queue} {lost : ℕ} (h : Off chans q lost sys) (hquiet : Quiet sys q) :
    sys.shared.depth q = sys.shared.items chans q + lost := by
  have hsending : ∑ i, (sys.locals i).sending q = 0 :=
    Finset.sum_eq_zero fun i _ ↦ if_neg (hquiet i).1
  have hreceiving : ∑ i, (sys.locals i).receiving q = 0 :=
    Finset.sum_eq_zero fun i _ ↦ if_neg (hquiet i).2
  unfold Off at h
  omega

/-- How many decrements of the run find the gauge at zero. -/
def lost (chans : Channels κ) (q : Queue) : Workers ι κ α → List (ι × Action κ α) → ℕ
  | _, [] => 0
  | sys, e :: es => lost chans q (sys.step chans e) es +
      if e.2.isProceed ∧ sys.locals e.1 = .received q ∧ sys.shared.depth q = 0 then 1 else 0

omit [Fintype ι] [Fintype κ] in
theorem lost_eq_zero {q : Queue} {moves : List (ι × Action κ α)}
    (h : Along (step chans) Finds sys moves) : lost chans q sys moves = 0 := by
  induction moves generalizing sys with
  | nil => rfl
  | cons e moves ih =>
      have hfound : ¬ (e.2.isProceed ∧ sys.locals e.1 = .received q ∧ sys.shared.depth q = 0) :=
        fun ⟨hproceed, hphase, hzero⟩ ↦ (h.1 q hproceed hphase).ne' hzero
      rw [lost, if_neg hfound, ih h.2]

theorem off_runFrom {q : Queue} {moves : List (ι × Action κ α)} {before : ℕ}
    (h : Off chans q before sys) (hfits : Along (step chans) Fits sys moves) :
    Off chans q (before + lost chans q sys moves) (runFrom (step chans) sys moves) := by
  induction moves generalizing sys before with
  | nil => exact h
  | cons e moves ih =>
      obtain ⟨hroom, hrest⟩ := hfits
      by_cases hlost : e.2.isProceed ∧ sys.locals e.1 = .received q ∧ sys.shared.depth q = 0
      · have hlose : Off chans q (before + 1) (sys.step chans e) := by
          obtain ⟨i, action⟩ := e
          cases action with
          | proceed => exact h.lose hlost.2.1 hlost.2.2
          | _ => exact absurd hlost.1 (by simp [Action.isProceed])
        rw [lost, if_pos hlost, add_comm (lost chans q _ moves), ← add_assoc]
        exact ih hlose hrest
      · have hkeep : Off chans q before (sys.step chans e) := by
          refine h.step fun hproceed ↦ ⟨fun hphase ↦ ?_, hroom q hproceed⟩
          exact Nat.pos_of_ne_zero fun hzero ↦ hlost ⟨hproceed, hphase, hzero⟩
        rw [lost, if_neg hlost]
        exact ih hkeep hrest

/-- The gauge of a quiet queue is too high by the decrements that were lost, so it is exact
if and only if none was. -/
theorem depth_eq_items_add_lost (chans : Channels κ) (caps : Capacities)
    (moves : List (ι × Action κ α)) (hfits : Along (step chans) Fits (start caps) moves) {q : Queue}
    (hquiet : Quiet (after chans caps moves) q) :
    (after chans caps moves).shared.depth q =
      (after chans caps moves).shared.items chans q + lost chans q (start caps) moves := by
  have h := (off_runFrom (off_start chans caps q) hfits).depth_of_quiet hquiet
  rwa [zero_add] at h

/-- In every state that the run reaches the gauge of a quiet queue is the number of its items,
and there is no pressure when the queues are empty. -/
structure Exact (chans : Channels κ) (sys : Workers ι κ α) : Prop where
  gauges : ∀ q, Quiet sys q → sys.shared.depth q = sys.shared.items chans q
  pressure : (∀ q, Quiet sys q ∧ sys.shared.items chans q = 0) →
    sys.shared.metrics.storage.depth = 0 → sys.shared.metrics.segment.depth = 0 →
    sys.shared.metrics.metadataSpoolBytes = 0 → sys.shared.metrics.livePressurePct = 0

def GaugesExact (chans : Channels κ) (caps : Capacities) (moves : List (ι × Action κ α)) : Prop :=
  ∀ before later, moves = before ++ later → Exact chans (after chans caps before)

/-- The gauges are exact in every run whose decrements all find theirs above zero. -/
theorem gaugesExact_of_finds (chans : Channels κ) (caps : Capacities)
    (moves : List (ι × Action κ α))
    (h : Along (step chans) (fun sys e ↦ Finds sys e ∧ Fits sys e) (start caps) moves) :
    GaugesExact chans caps moves := by
  rintro before later rfl
  have hbefore := (along_append.mp h).1
  have hlost : ∀ q, lost chans q (start caps) before = 0 := fun q ↦
    lost_eq_zero (hbefore.imp fun _ _ hkept ↦ hkept.1)
  have hgauges : ∀ q, Quiet (after chans caps before) q →
      (after chans caps before).shared.depth q =
        (after chans caps before).shared.items chans q := by
    intro q hquiet
    have hdepth := depth_eq_items_add_lost chans caps before
      (hbefore.imp fun _ _ hkept ↦ hkept.2) hquiet
    rwa [hlost q, add_zero] at hdepth
  refine ⟨hgauges, fun hempty hstorage hsegment hspool ↦ ?_⟩
  have hdepth : ∀ q, ((after chans caps before).shared.metrics.live q).depth = 0 := fun q ↦
    (hgauges q (hempty q).1).trans (hempty q).2
  refine Metrics.livePressurePct_eq_zero ?_
  simp [Metrics.pairs, hdepth, hstorage, hsegment, hspool]

/-- One flow shard, with a packet source and the shard as its workers. -/
def flowShard : Channels Unit := ⟨fun _ ↦ .flow, fun _ ↦ 4⟩

def shardCapacities : Capacities := ⟨fun _ ↦ 4, 4, 4, 4⟩

def inTurn : List (Fin 2 × Action Unit Unit) :=
  [(0, .send () ()), (0, .proceed), (1, .receive ()), (1, .proceed)]

theorem gaugesExact_inTurn :
    Along (step flowShard) (fun sys e ↦ Finds sys e ∧ Fits sys e) (start shardCapacities) inTurn ∧
      GaugesExact flowShard shardCapacities inTurn := by
  have h : Along (step flowShard) (fun sys e ↦ Finds sys e ∧ Fits sys e) (start shardCapacities)
      inTurn := by
    decide +kernel
  exact ⟨h, gaugesExact_of_finds flowShard shardCapacities inTurn h⟩

/-- The shard takes the packet and lowers the gauge before the source has raised it. -/
def earlyReceive : List (Fin 2 × Action Unit Unit) :=
  [(0, .send () ()), (1, .receive ()), (1, .proceed), (0, .proceed)]

theorem not_gaugesExact_earlyReceive : ¬ GaugesExact flowShard shardCapacities earlyReceive ∧
    (after flowShard shardCapacities earlyReceive).shared.items flowShard .flow = 0 ∧
    (after flowShard shardCapacities earlyReceive).shared.metrics.livePressurePct = 25 := by
  refine ⟨fun h ↦ ?_, by decide +kernel, by decide +kernel⟩
  have hquiet : Quiet (after flowShard shardCapacities earlyReceive) .flow := by
    unfold Quiet
    decide +kernel
  have hdepth := (h earlyReceive [] (List.append_nil _).symm).gauges .flow hquiet
  revert hdepth
  decide +kernel

end Workers

end Bazalt.Live
