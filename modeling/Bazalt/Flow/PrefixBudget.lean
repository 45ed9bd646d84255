import Bazalt.Flow.Accounting

/-!
# The budget of a source prefix

A shard checks the budget of a source prefix against its own flows, and the flows of one
prefix are spread over the shards by a hash of their keys.  Every shard keeps within the
budget; all of them together do as long as no shard admits a flow when they have used the
budget up between them.
-/

namespace Bazalt

namespace Capture.FlowKey

def mix (state word : UInt64) : UInt64 :=
  let z := word + state + 0x9e3779b97f4a7c15
  let z := (z ^^^ (z >>> 30)) * 0xbf58476d1ce4e5b9
  let z := (z ^^^ (z >>> 27)) * 0x94d049bb133111eb
  z ^^^ (z >>> 31)

def mixEndpoint (state : UInt64) (e : Endpoint) : UInt64 :=
  let state := match e.ip with
    | .v4 octets => mix state (.ofNat octets.toNat)
    | .v6 octets => mix (mix state (.ofNat (octets.extractLsb' 64 64).toNat))
        (.ofNat (octets.extractLsb' 0 64).toNat)
  mix state e.port.toUInt64

def shardHash64 (key : FlowKey) (seed : UInt64) : UInt64 :=
  let state := mix seed (match key.protocol with
    | .tcp => 6
    | .udp => 17)
  let state := if key.l2Domain ≠ 0 then mix state key.l2Domain else state
  mixEndpoint (mixEndpoint state key.a) key.b

end Capture.FlowKey

namespace Flow

open Bazalt.Lib Capture Services

/-- The shard that the packets of a flow are sent to. -/
def shardOf (seed : UInt64) (n : ℕ) (key : FlowKey) : ℕ := (key.shardHash64 seed).toNat % n

/-! ## One shard -/

/-- The prefix of the flow that the step adds: its packet has a reservation, and the shard
has room for the prefix. -/
def Worker.admitted (cfg : FlowConfig) (w : Worker) (m : Move) : Option SourcePrefix :=
  match w.stage, m.event with
  | .reserved p _, .proceed _ =>
      if w.shard.countOf (.fromPacket p) < cfg.maxFlowsPerSourcePrefix then
        some (.fromPacket p)
      else none
  | _, _ => none

namespace Shard

theorem flowsOf_closeFlow_le (s : Shard) (accepts : FlowOutput → Bool) (key : FlowKey)
    (source : SourcePrefix) : (s.closeFlow accepts key).1.flowsOf source ≤ s.flowsOf source := by
  rcases s.closeFlow_cases accepts key with ⟨-, heq⟩ | ⟨flow, hflow, heq⟩
  · rw [heq]
  · rw [heq]
    exact Nat.le.intro (Table.tally_erase (fun f ↦ decide (f.sourcePrefix = source)) hflow)

theorem flowsOf_handlePacket_le {s : Shard} {flow : FlowState} {p : ParsedPacket} (cfg : FlowConfig)
    (accepts : FlowOutput → Bool) (clock : Clock) (isNewFlow : Bool) {source : SourcePrefix} {n : ℕ}
    (h : ∀ g : FlowState, g.sourcePrefix = flow.sourcePrefix →
      flowsOf { s with flows := s.flows.insert p.key g } source = n) :
    (s.handlePacket cfg accepts clock p flow isNewFlow).1.flowsOf source ≤ n := by
  have hinserted := h _ (flow.sourcePrefix_handle accepts cfg clock p)
  unfold handlePacket
  dsimp only
  split_ifs
  · refine (flowsOf_closeFlow_le _ accepts p.key source).trans (le_of_eq ?_)
    rw [flowsOf, (entomb_tables _ p.key clock.closed).1]
    exact hinserted
  · exact hinserted.le
  · exact hinserted.le

theorem flowsOf_fire_le (s : Shard) (cfg : FlowConfig) (accepts : FlowOutput → Bool) (now : ℕ)
    (item : TimerItem) (source : SourcePrefix) :
    (s.fire cfg accepts now item).1.flowsOf source ≤ s.flowsOf source := by
  unfold fire
  cases s.flows.lookup item.key with
  | none => exact le_rfl
  | some flow =>
      dsimp only
      split_ifs
      · exact s.flowsOf_closeFlow_le accepts item.key source
      · exact le_rfl
      · exact le_rfl

end Shard

namespace Worker

variable {cfg : FlowConfig} {active : ℕ} {m : Move} {w : Worker}

theorem flowsOf_receive_le (p : ParsedPacket) (clock : Clock) (source : SourcePrefix) :
    (w.receive m p clock).worker.shard.flowsOf source ≤ w.shard.flowsOf source := by
  unfold receive
  dsimp only
  cases p.key.protocol with
  | udp => exact le_rfl
  | tcp =>
      dsimp only
      split_ifs
      · exact Shard.flowsOf_closeFlow_le _ m.accepts p.key source
      all_goals exact le_rfl

theorem flowsOf_look_le (p : ParsedPacket) (clock : Clock) (source : SourcePrefix) :
    (w.look cfg active m p clock).worker.shard.flowsOf source ≤ w.shard.flowsOf source := by
  unfold look
  cases hflow : w.shard.flows.lookup p.key with
  | some flow =>
      refine Shard.flowsOf_handlePacket_le cfg m.accepts clock false fun g hg ↦ ?_
      have htally := Table.tally_insert (fun f ↦ decide (f.sourcePrefix = source)) hflow g
      simp only [hg, Nat.add_right_cancel_iff] at htally
      exact htally
  | none =>
      dsimp only
      split_ifs <;> exact le_rfl

theorem flowsOf_admit_le (h : w.Sound) {p : ParsedPacket} {clock : Clock} {flowId : Uuid}
    (hstage : w.stage = .reserved p clock) (hevent : m.event = .proceed flowId)
    (source : SourcePrefix) : (w.openFlow cfg m p clock flowId).worker.shard.flowsOf source ≤
      w.shard.flowsOf source + (decide (w.admitted cfg m = some source)).toNat := by
  unfold openFlow
  dsimp only
  split_ifs with hfull
  · exact Nat.le_add_right _ _
  · refine Shard.flowsOf_handlePacket_le cfg m.accepts clock true fun g hg ↦ ?_
    have htally := Table.tally_insert_of_absent (fun f ↦ decide (f.sourcePrefix = source))
      (h.vacant p clock hstage) g
    refine Eq.trans htally (congrArg (fun b : Bool ↦ w.shard.flowsOf source + b.toNat) ?_)
    have hsource : g.sourcePrefix = .fromPacket p := hg
    have hroom : w.shard.countOf (.fromPacket p) < cfg.maxFlowsPerSourcePrefix := not_le.mp hfull
    simp [admitted, hstage, hevent, hsource, hroom]

theorem countOf_lt_of_admitted {source : SourcePrefix} (h : w.admitted cfg m = some source) :
    w.shard.countOf source < cfg.maxFlowsPerSourcePrefix := by
  unfold admitted at h
  split at h
  · split_ifs at h with hroom
    obtain rfl := Option.some.inj h
    exact hroom
  · cases h

theorem flowsOf_step_le (h : w.Sound) (source : SourcePrefix) :
    (w.step cfg active m).worker.shard.flowsOf source ≤
      w.shard.flowsOf source + (decide (w.admitted cfg m = some source)).toNat := by
  unfold step
  split
  case h_1 => exact (flowsOf_receive_le _ _ source).trans (Nat.le_add_right _ _)
  case h_4 => exact (flowsOf_look_le _ _ source).trans (Nat.le_add_right _ _)
  case h_5 hstage hevent => exact flowsOf_admit_le h hstage hevent source
  case h_6 now _ _ _ =>
    refine le_trans ?_ (Nat.le_add_right _ _)
    unfold expire
    cases w.shard.timers.peek.filter fun item ↦ decide (item.deadline ≤ now) with
    | some item => exact Shard.flowsOf_fire_le _ cfg m.accepts now item source
    | none => exact le_of_eq (by rw [Shard.flowsOf, (w.shard.compact_tables cfg).1]; rfl)
  case h_7 key _ _ =>
    exact (w.shard.flowsOf_closeFlow_le m.accepts key source).trans (Nat.le_add_right _ _)
  all_goals exact Nat.le_add_right _ _

end Worker

/-! ## All shards -/

namespace Shards

variable {ι : Type} [DecidableEq ι] [Fintype ι] {cfg : FlowConfig} {sys : Shards ι}

/-- The live flows of a prefix over all shards. -/
def flowsOf (sys : Shards ι) (source : SourcePrefix) : ℕ :=
  ∑ i, (sys.locals i).shard.flowsOf source

/-- The budget holds in every state that the run reaches. -/
def PrefixCapped (cfg : FlowConfig) (moves : List (ι × Move)) : Prop :=
  ∀ before later, moves = before ++ later →
    ∀ source, (after cfg before).flowsOf source ≤ cfg.maxFlowsPerSourcePrefix

/-- A flow that the step adds finds room in the budget of its prefix over all shards. -/
def FindsRoom (cfg : FlowConfig) (sys : Shards ι) (e : ι × Move) : Prop :=
  ∀ source ∈ (sys.locals e.1).admitted cfg e.2, sys.flowsOf source < cfg.maxFlowsPerSourcePrefix

instance (sys : Shards ι) (e : ι × Move) : Decidable (FindsRoom cfg sys e) :=
  inferInstanceAs (Decidable (∀ source ∈ (sys.locals e.1).admitted cfg e.2,
    sys.flowsOf source < cfg.maxFlowsPerSourcePrefix))

theorem flowsOf_step_le (h : Sound cfg sys) (e : ι × Move) (source : SourcePrefix) :
    (sys.step cfg e).flowsOf source ≤
      sys.flowsOf source + (decide ((sys.locals e.1).admitted cfg e.2 = some source)).toNat := by
  have hsum : (sys.step cfg e).flowsOf source + (sys.locals e.1).shard.flowsOf source =
      sys.flowsOf source +
        ((sys.locals e.1).step cfg sys.shared e.2).worker.shard.flowsOf source :=
    Pool.sum_locals_step (fun w : Worker ↦ w.shard.flowsOf source) e.1
  have hone : ((sys.locals e.1).step cfg sys.shared e.2).worker.shard.flowsOf source ≤
      (sys.locals e.1).shard.flowsOf source +
        (decide ((sys.locals e.1).admitted cfg e.2 = some source)).toNat :=
    Worker.flowsOf_step_le (h.workers e.1) source
  omega

/-- Every shard keeps the budget for itself, so all of them together stay within as many
budgets as there are shards. -/
theorem flowsOf_le_card_mul (moves : List (ι × Move)) (source : SourcePrefix) :
    (after cfg moves).flowsOf source ≤ Fintype.card ι * cfg.maxFlowsPerSourcePrefix := by
  have hshard : ∀ i, ((after cfg moves).locals i).shard.flowsOf source ≤
      cfg.maxFlowsPerSourcePrefix := by
    refine (invariant_runFrom_of_step (I := fun sys : Shards ι ↦ Sound cfg sys ∧ ∀ i,
      (sys.locals i).shard.flowsOf source ≤ cfg.maxFlowsPerSourcePrefix) ?_ moves
      ⟨sound_start, fun i ↦ ?_⟩).2
    · rintro sys e ⟨hs, hle⟩
      refine ⟨hs.step e, Pool.forall_locals_step (Q := fun _ (w : Worker) ↦ w.shard.flowsOf source ≤
        cfg.maxFlowsPerSourcePrefix) ?_ fun j _ ↦ hle j⟩
      have hone : ((sys.locals e.1).step cfg sys.shared e.2).worker.shard.flowsOf source ≤
          (sys.locals e.1).shard.flowsOf source +
            (decide ((sys.locals e.1).admitted cfg e.2 = some source)).toNat :=
        Worker.flowsOf_step_le (hs.workers e.1) source
      refine hone.trans ?_
      by_cases hadmitted : (sys.locals e.1).admitted cfg e.2 = some source
      · rw [← (hs.workers e.1).counted source, decide_eq_true hadmitted]
        exact Worker.countOf_lt_of_admitted hadmitted
      · rw [decide_eq_false hadmitted]
        exact hle e.1
    · exact Nat.zero_le _
  calc (after cfg moves).flowsOf source
      ≤ ∑ _i : ι, cfg.maxFlowsPerSourcePrefix := Finset.sum_le_sum fun i _ ↦ hshard i
    _ = Fintype.card ι * cfg.maxFlowsPerSourcePrefix := by simp

/-- When every flow that is admitted finds room over all shards, they keep the budget. -/
theorem prefixCapped_of_findsRoom (cfg : FlowConfig) (moves : List (ι × Move))
    (h : Along (step cfg) (FindsRoom cfg) start moves) : PrefixCapped cfg moves := by
  rintro before later rfl source
  refine (invariant_runFrom (I := fun sys : Shards ι ↦ Sound cfg sys ∧
    sys.flowsOf source ≤ cfg.maxFlowsPerSourcePrefix) ?_ ⟨sound_start, ?_⟩ (along_append.mp h).1).2
  · rintro sys e ⟨hs, hle⟩ hroom
    refine ⟨hs.step e, (flowsOf_step_le hs e source).trans ?_⟩
    by_cases hadmitted : (sys.locals e.1).admitted cfg e.2 = some source
    · rw [decide_eq_true hadmitted]
      exact hroom source hadmitted
    · rw [decide_eq_false hadmitted]
      exact hle
  · simp [flowsOf, start, Shard.flowsOf]

/-- The packets of a run come through the ingress. -/
def Routed (seed : UInt64) {n : ℕ} (moves : List (Fin n × Move)) : Prop :=
  ∀ e ∈ moves, ∀ p clock, e.2.event = .packet p clock → shardOf seed n p.key = e.1

/-- A datagram from `10.0.0.1` to the service on port 53. -/
def datagram (sourcePort : UInt16) : ParsedPacket where
  tsNs := 0
  key := ⟨⟨.v4 0x0a000001, sourcePort⟩, ⟨.v4 0x0a000102, 53⟩, .udp, 0⟩
  direction := .aToB
  seq := none
  ack := none
  flags := {}
  payload := [1]
  wireLen := 43

def dnsServices : ServiceMap := ServiceMap.ofList [{ port := 53, name := "dns" }]

/-- The round in which a shard takes a datagram: it receives it, reserves a slot, admits the
flow and finds no timer due. -/
def datagramRound {n : ℕ} (i : Fin n) (sourcePort : UInt16) (flowId : Uuid) :
    List (Fin n × Move) :=
  [Event.packet (datagram sourcePort) (.at 0), .proceed flowId, .proceed flowId,
    .proceed flowId].map fun event ↦ (i, ⟨event, dnsServices, fun _ ↦ true⟩)

/-- Two flows of one prefix that the hash sends to different shards. -/
def splitRun : List (Fin 2 × Move) := datagramRound 1 40000 1 ++ datagramRound 0 40001 2

def budgetConfig (maxFlowsPerSourcePrefix : ℕ) : FlowConfig :=
  ⟨16, maxFlowsPerSourcePrefix, 1024, 16, 10, 100, 100, 10⟩

theorem prefixCapped_splitRun : Along (step (budgetConfig 2)) (FindsRoom (budgetConfig 2)) start
      splitRun ∧ PrefixCapped (budgetConfig 2) splitRun := by
  have h : Along (step (budgetConfig 2)) (FindsRoom (budgetConfig 2)) start splitRun := by
    decide +kernel
  exact ⟨h, prefixCapped_of_findsRoom (budgetConfig 2) splitRun h⟩

theorem not_prefixCapped_splitRun :
    Routed 7 splitRun ∧ ¬ PrefixCapped (budgetConfig 1) splitRun := by
  refine ⟨?_, fun h ↦ ?_⟩
  · intro e he p clock hevent
    simp only [splitRun, datagramRound, List.map_cons, List.map_nil, List.cons_append,
      List.nil_append, List.mem_cons, List.not_mem_nil, or_false] at he
    rcases he with rfl | rfl | rfl | rfl | rfl | rfl | rfl | rfl
    all_goals
      cases hevent
      try decide +kernel
  · have hover : (after (budgetConfig 1) splitRun).flowsOf (.v4 0x0a0000) = 2 := by
      decide +kernel
    have hle := h splitRun [] (List.append_nil _).symm (.v4 0x0a0000)
    rw [hover] at hle
    exact absurd hle (by decide)

end Shards

end Flow

end Bazalt
