import Bazalt.Flow.Accounting

/-!
# Idle expiry

Every flow of a shard has a timer that fires no later than the flow can be idle for too
long; when it fires early it is set again.  So the loop over the timers at the bottom of a
round leaves no flow that is due.

Some rounds never get there: a packet that is suppressed, filtered or not admitted goes on
with the next receive at once.  Flows that are due stay in the table until another round
reaches the timers.
-/

namespace Bazalt.Flow

open Bazalt.Lib Capture Services

def FlowState.deadline (cfg : FlowConfig) (f : FlowState) : ℕ :=
  f.lastActivity + cfg.idleTimeout f.key.protocol

/-- Some flow has been idle for its timeout. -/
def Shard.Overdue (cfg : FlowConfig) (s : Shard) (now : ℕ) : Prop :=
  ∃ key flow, s.flows.lookup key = some flow ∧ flow.deadline cfg ≤ now

/-- The flow has a timer that fires in time. -/
def TimerHeap.Covers (cfg : FlowConfig) (timers : TimerHeap) (key : FlowKey) (flow : FlowState) :
    Prop :=
  ∃ item ∈ timers.items, item.key = key ∧ item.flowId = flow.id ∧
    item.deadline ≤ flow.deadline cfg

structure FlowState.Scheduled (cfg : FlowConfig) (timers : TimerHeap) (now : ℕ) (key : FlowKey)
    (flow : FlowState) : Prop where
  own : flow.key = key
  activity : flow.lastActivity ≤ now
  timer : timers.Covers cfg key flow

/-- Every flow of the shard is scheduled. -/
def Shard.Scheduled (cfg : FlowConfig) (s : Shard) (now : ℕ) : Prop :=
  ∀ key flow, s.flows.lookup key = some flow → flow.Scheduled cfg s.timers now key

namespace Shard

variable {cfg : FlowConfig} {s s' : Shard} {now now' : ℕ}

theorem Scheduled.mono (h : s.Scheduled cfg now) (hle : now ≤ now') : s.Scheduled cfg now' :=
  fun key flow hflow ↦
    ⟨(h key flow hflow).own, (h key flow hflow).activity.trans hle, (h key flow hflow).timer⟩

/-- Flows may go and timers may come. -/
theorem Scheduled.shrink (h : s.Scheduled cfg now)
    (hflows : ∀ key flow, s'.flows.lookup key = some flow → s.flows.lookup key = some flow)
    (htimers : ∀ item ∈ s.timers.items, item ∈ s'.timers.items) : s'.Scheduled cfg now := by
  intro key flow hflow
  obtain ⟨hkey, hactivity, item, hitem, hmatch⟩ := h key flow (hflows key flow hflow)
  exact ⟨hkey, hactivity, item, htimers item hitem, hmatch⟩

theorem lookup_of_lookup_erase {t : Table FlowKey FlowState} {key k : FlowKey} {flow : FlowState}
    (h : (t.erase key).lookup k = some flow) : k ≠ key ∧ t.lookup k = some flow := by
  by_cases hk : k = key
  · subst hk
    simp at h
  · exact ⟨hk, by rwa [AList.lookup_erase_ne hk] at h⟩

theorem closeFlow_frame (s : Shard) (accepts : FlowOutput → Bool) (key : FlowKey) :
    (s.closeFlow accepts key).1.timers = s.timers ∧ ∀ k flow,
      (s.closeFlow accepts key).1.flows.lookup k = some flow →
        k ≠ key ∧ s.flows.lookup k = some flow := by
  rcases s.closeFlow_cases accepts key with ⟨hnone, heq⟩ | ⟨flow, hflow, heq⟩
  · rw [heq]
    refine ⟨rfl, fun k flow hk ↦ ⟨?_, hk⟩⟩
    rintro rfl
    rw [hnone] at hk
    cases hk
  · rw [heq]
    exact ⟨rfl, fun k flow hk ↦ lookup_of_lookup_erase hk⟩

theorem Scheduled.closeFlow (h : s.Scheduled cfg now) (accepts : FlowOutput → Bool)
    (key : FlowKey) : (s.closeFlow accepts key).1.Scheduled cfg now := by
  obtain ⟨htimers, hflows⟩ := s.closeFlow_frame accepts key
  exact h.shrink (fun k flow hk ↦ (hflows k flow hk).2) (fun item hitem ↦ by rwa [htimers])

theorem mem_push {h : TimerHeap} {a b : TimerItem} :
    a ∈ (h.push b).items ↔ a = b ∨ a ∈ h.items := List.mem_orderedInsert _

theorem lookup_of_lookup_insert {t : Table FlowKey FlowState} {key k : FlowKey}
    {flow g : FlowState} (h : (t.insert key g).lookup k = some flow) :
    k = key ∧ flow = g ∨ k ≠ key ∧ t.lookup k = some flow := by
  by_cases hk : k = key
  · subst hk
    rw [AList.lookup_insert] at h
    exact .inl ⟨rfl, (Option.some.inj h).symm⟩
  · rw [AList.lookup_insert_ne hk] at h
    exact .inr ⟨hk, h⟩

theorem covers_of_subset {timers timers' : TimerHeap} {key : FlowKey} {flow : FlowState}
    (h : timers.Covers cfg key flow) (htimers : ∀ item ∈ timers.items, item ∈ timers'.items) :
    timers'.Covers cfg key flow := by
  obtain ⟨item, hitem, hmatch⟩ := h
  exact ⟨item, htimers item hitem, hmatch⟩

/-- A packet of a flow that is in the table, or of one that is entered and gets a timer. -/
theorem Scheduled.handlePacket (h : s.Scheduled cfg now) {p : ParsedPacket} {flow : FlowState}
    {isNewFlow : Bool} (hkey : flow.key = p.key)
    (hold : isNewFlow = false → s.flows.lookup p.key = some flow) (accepts : FlowOutput → Bool) :
    (s.handlePacket cfg accepts (.at now) p flow isNewFlow).1.Scheduled cfg now := by
  have halike := flow.alike_handle accepts cfg (.at now) p
  obtain ⟨cid, ckey, -, cactivity⟩ := flow.countPacket_eq p now
  have hid : (flow.handle accepts cfg (.at now) p).flow.id = flow.id := halike.id.trans cid
  have hown : (flow.handle accepts cfg (.at now) p).flow.key = p.key :=
    (halike.key.trans ckey).trans hkey
  have hactive : (flow.handle accepts cfg (.at now) p).flow.lastActivity = now :=
    halike.lastActivity.trans cactivity
  unfold Shard.handlePacket
  dsimp only
  generalize (flow.handle accepts cfg (.at now) p).flow = g at *
  split_ifs with hclose hnew
  · obtain ⟨hflows, -, htimers⟩ := entomb_tables { s with flows := s.flows.insert p.key g } p.key
      (Clock.at now).closed
    obtain ⟨htimers', hflows'⟩ := closeFlow_frame (entomb { s with
      flows := s.flows.insert p.key g } p.key (Clock.at now).closed) accepts p.key
    refine h.shrink (fun k f hk ↦ ?_) (fun item hitem ↦ ?_)
    · obtain ⟨hne, hk⟩ := hflows' k f hk
      rw [hflows] at hk
      exact (lookup_of_lookup_insert hk).elim (fun e ↦ absurd e.1 hne) And.right
    · rw [htimers', htimers]
      exact hitem
  · intro k f hk
    rcases lookup_of_lookup_insert hk with ⟨rfl, rfl⟩ | ⟨-, hk⟩
    · refine ⟨hown, hactive.le, ⟨_, mem_push.mpr (.inl rfl), rfl, rfl, ?_⟩⟩
      rw [FlowState.deadline, hactive, hown]
      exact le_rfl
    · obtain ⟨hkey, hactivity, htimer⟩ := h k f hk
      exact ⟨hkey, hactivity, covers_of_subset htimer fun item hitem ↦ mem_push.mpr (.inr hitem)⟩
  · intro k f hk
    rcases lookup_of_lookup_insert hk with ⟨rfl, rfl⟩ | ⟨-, hk⟩
    · obtain ⟨-, hactivity, item, hitem, hkeyed, hsame, hdeadline⟩ :=
        h p.key flow (hold (by simpa using hnew))
      refine ⟨hown, hactive.le, item, hitem, hkeyed, hsame.trans hid.symm, hdeadline.trans ?_⟩
      rw [FlowState.deadline, FlowState.deadline, hactive, hown, hkey]
      omega
    · exact h k f hk

/-- The first timer is taken from the heap and fires. -/
theorem Scheduled.fire (h : s.Scheduled cfg now) {item : TimerItem}
    (hitem : s.timers.peek = some item) (accepts : FlowOutput → Bool) :
    (Shard.fire { s with timers := s.timers.pop } cfg accepts now item).1.Scheduled cfg now := by
  obtain ⟨items, hitems⟩ : ∃ items, s.timers.items = item :: items := List.head?_eq_some_iff.mp hitem
  have hpop : s.timers.pop.items = items := congrArg List.tail hitems
  -- the timers of all other flows are still there
  have hothers : ∀ k f, s.flows.lookup k = some f → (k = item.key → f.id ≠ item.flowId) →
      f.Scheduled cfg s.timers.pop now k := by
    intro k f hk hne
    obtain ⟨hown, hactivity, item', hitem', hkey', hid', hdeadline'⟩ := h k f hk
    refine ⟨hown, hactivity, item', ?_, hkey', hid', hdeadline'⟩
    rw [hitems] at hitem'
    rcases List.mem_cons.mp hitem' with rfl | hitem'
    · exact absurd hid'.symm (hne hkey'.symm)
    · rw [hpop]
      exact hitem'
  unfold Shard.fire
  cases hflow : s.flows.lookup item.key with
  | none =>
      intro k f hk
      refine hothers k f hk ?_
      rintro rfl
      rw [hflow] at hk
      cases hk
  | some flow =>
      dsimp only
      split_ifs with hid hdue
      · intro k f hk
        obtain ⟨htimers, hflows⟩ :=
          closeFlow_frame { s with timers := s.timers.pop } accepts item.key
        obtain ⟨hne, hk⟩ := hflows k f hk
        obtain ⟨hown, hactivity, htimer⟩ := hothers k f hk fun e ↦ absurd e hne
        exact ⟨hown, hactivity, covers_of_subset htimer fun i hi ↦ by rwa [htimers]⟩
      · intro k f hk
        by_cases hkey : k = item.key
        · subst hkey
          obtain rfl : flow = f := Option.some.inj (hflow.symm.trans hk)
          obtain ⟨hown, hactivity, -⟩ := h item.key flow hflow
          exact ⟨hown, hactivity, _, mem_push.mpr (.inl rfl), rfl, rfl, le_rfl⟩
        · obtain ⟨hown, hactivity, htimer⟩ := hothers k f hk fun e ↦ absurd e hkey
          exact ⟨hown, hactivity, covers_of_subset htimer fun i hi ↦ mem_push.mpr (.inr hi)⟩
      · intro k f hk
        refine hothers k f hk ?_
        rintro rfl
        obtain rfl : flow = f := Option.some.inj (hflow.symm.trans hk)
        exact hid

theorem covers_foldl_schedule (es : List (Σ _ : FlowKey, FlowState)) (s : Shard) :
    (∀ e ∈ es, TimerHeap.Covers cfg (es.foldl (fun s e ↦ s.schedule
        (e.2.lastActivity + cfg.idleTimeout e.2.key.protocol) e.1 e.2.id) s).timers e.1 e.2) ∧
      ∀ item ∈ s.timers.items, item ∈ (es.foldl (fun s e ↦ s.schedule
        (e.2.lastActivity + cfg.idleTimeout e.2.key.protocol) e.1 e.2.id) s).timers.items := by
  induction es generalizing s with
  | nil => exact ⟨by simp, fun item hitem ↦ hitem⟩
  | cons e es ih =>
      obtain ⟨hcovers, hkept⟩ :=
        ih (s.schedule (e.2.lastActivity + cfg.idleTimeout e.2.key.protocol) e.1 e.2.id)
      refine ⟨fun e' he' ↦ ?_, fun item hitem ↦ hkept item (mem_push.mpr (.inr hitem))⟩
      rcases List.mem_cons.mp he' with rfl | he'
      · exact ⟨_, hkept _ (mem_push.mpr (.inl rfl)), rfl, rfl, le_rfl⟩
      · exact hcovers e' he'

theorem Scheduled.compact (h : s.Scheduled cfg now) : (s.compact cfg).Scheduled cfg now := by
  intro key flow hflow
  rw [(s.compact_tables cfg).1] at hflow
  obtain ⟨hown, hactivity, htimer⟩ := h key flow hflow
  refine ⟨hown, hactivity, ?_⟩
  unfold Shard.compact
  split_ifs
  · exact (covers_foldl_schedule s.flows.entries { s with timers := .empty }).1 ⟨key, flow⟩
      (AList.mem_lookup_iff.mp hflow)
  · exact htimer

/-- When no timer is due, no flow is. -/
theorem Scheduled.not_overdue (h : s.Scheduled cfg now)
    (hpeek : ∀ item, s.timers.peek = some item → now < item.deadline) : ¬ s.Overdue cfg now := by
  rintro ⟨key, flow, hflow, hdue⟩
  obtain ⟨-, -, item, hitem, -, -, hdeadline⟩ := h key flow hflow
  have hsorted := s.timers.sorted
  rw [TimerHeap.peek] at hpeek
  cases hitems : s.timers.items with
  | nil => simp [hitems] at hitem
  | cons first rest =>
      rw [hitems] at hsorted hitem hpeek
      have hfirst := hpeek first rfl
      rcases List.mem_cons.mp hitem with rfl | hrest
      · omega
      · have hbefore := (List.pairwise_cons.mp hsorted).1 item hrest
        unfold TimerItem.before at hbefore
        omega

theorem overdue_congr (h : s'.flows = s.flows) : s'.Overdue cfg now ↔ s.Overdue cfg now := by
  rw [Overdue, Overdue, h]

end Shard

/-! ## Rounds -/

/-- A worker and the clock reading of its last round. -/
structure Rounds where
  worker : Worker := {}
  now : ℕ := 0

/-- The reading of the clock with which the event starts a round. -/
def Rounds.reading (t : Rounds) (m : Move) : ℕ :=
  match t.worker.stage, m.event with
  | .waiting, .packet _ clock => clock.expiry
  | .waiting, .timeout now => now
  | _, _ => t.now

/-- A step of the worker, which finds the given number of active flows. -/
def Rounds.step (cfg : FlowConfig) (t : Rounds) (e : ℕ × Move) : Rounds :=
  ⟨(t.worker.step cfg e.1 e.2).worker, t.reading e.2⟩

/-- There is one reading for each round, and the clock never goes back. -/
def Rounds.steady (t : Rounds) (e : ℕ × Move) : Bool :=
  match t.worker.stage, e.2.event with
  | .waiting, .packet _ clock => decide (t.now ≤ clock.expiry) && decide (clock = .at clock.expiry)
  | .waiting, .timeout now => decide (t.now ≤ now)
  | _, _ => true

/-- The step goes on with the next receive before it has reached the timers: the packet is
suppressed, filtered, or refused for one of the two budgets. -/
def Rounds.leavesEarly (cfg : FlowConfig) (t : Rounds) (e : ℕ × Move) : Bool :=
  match t.worker.stage, e.2.event with
  | .waiting, .packet p clock => decide (p.key.protocol = .tcp) &&
      !(p.flags.syn && !p.flags.ack) && t.worker.shard.suppressed
        (t.worker.shard.tombstones.containsLive p.key clock.tombstone).2 p
  | .looking p _, .proceed _ => (t.worker.shard.flows.lookup p.key).isNone &&
      !(e.2.services.acceptsDestination p && tryAdmitFlow e.1 cfg.maxActiveFlows)
  | .reserved p _, .proceed _ =>
      decide (cfg.maxFlowsPerSourcePrefix ≤ t.worker.shard.countOf (.fromPacket p))
  | _, _ => false

/-- A round that leaves early leaves no flow that is due. -/
def Rounds.NoneOverdue (cfg : FlowConfig) (t : Rounds) (e : ℕ × Move) : Prop :=
  t.leavesEarly cfg e = true → ¬ t.worker.shard.Overdue cfg (t.reading e.2)

def Rounds.after (cfg : FlowConfig) (moves : List (ℕ × Move)) : Rounds :=
  runFrom (step cfg) {} moves

/-- After every round of the run no flow is due. -/
def ExpiresIdle (cfg : FlowConfig) (moves : List (ℕ × Move)) : Prop :=
  ∀ before later, moves = before ++ later → (Rounds.after cfg before).worker.stage = .waiting →
    ¬ (Rounds.after cfg before).worker.shard.Overdue cfg (Rounds.after cfg before).now

/-- The clock of the round that the worker is in. -/
def Stage.Runs (stage : Stage) (now : ℕ) : Prop :=
  match stage with
  | .looking _ clock => clock = .at now
  | .reserved _ clock => clock = .at now
  | .expiring n => n = now
  | _ => True

structure Rounds.Kept (cfg : FlowConfig) (t : Rounds) : Prop where
  scheduled : t.worker.shard.Scheduled cfg t.now
  clock : t.worker.stage.Runs t.now
  idle : t.worker.stage = .waiting → ¬ t.worker.shard.Overdue cfg t.now

namespace Rounds

variable {cfg : FlowConfig} {t : Rounds} {e : ℕ × Move}

/-- An early step returns to the receive with the same flows. -/
theorem leavesEarly_step (h : t.leavesEarly cfg e = true) :
    (t.step cfg e).worker.stage = .waiting ∧
      (t.step cfg e).worker.shard.flows = t.worker.shard.flows := by
  unfold leavesEarly at h
  unfold step Worker.step
  split at h
  case h_1 p clock hstage hevent =>
    simp only [Bool.and_eq_true, decide_eq_true_eq] at h
    obtain ⟨⟨htcp, -⟩, hsuppressed⟩ := h
    have hguard : t.worker.shard.flows.lookup p.key = none ∧ p.flags.syn = false := by
      unfold Shard.suppressed at hsuppressed
      simp only [Bool.and_eq_true, Bool.not_eq_true', Option.isSome_eq_false_iff,
        Option.isNone_iff_eq_none] at hsuppressed
      exact hsuppressed.1.1
    simp [hstage, hevent, Worker.receive, htcp, hguard, hsuppressed]
  case h_2 p clock _ hstage hevent =>
    simp only [Bool.and_eq_true, Option.isNone_iff_eq_none, Bool.not_eq_true'] at h
    simp [hstage, hevent, Worker.look, h.1, h.2]
  case h_3 p clock _ hstage hevent =>
    have hfull : cfg.maxFlowsPerSourcePrefix ≤
      (t.worker.shard.sourceCounts.lookup (.fromPacket p)).getD 0 := of_decide_eq_true h
    simp [hstage, hevent, Worker.openFlow, hfull]
  case h_4 => cases h

/-- A step into a stage in which the round goes on. -/
theorem kept_of_running {s : Shard} {stage : Stage} {now : ℕ} (hs : s.Scheduled cfg now)
    (hruns : stage.Runs now) (hstage : stage ≠ .waiting) : Kept cfg ⟨⟨s, stage⟩, now⟩ :=
  ⟨hs, hruns, fun h ↦ absurd h hstage⟩

theorem kept_receive (h : t.Kept cfg) {m : Move} {p : ParsedPacket} {now : ℕ}
    (hle : t.now ≤ now) (hnone : (decide (p.key.protocol = .tcp) &&
      !(p.flags.syn && !p.flags.ack) && t.worker.shard.suppressed
        (t.worker.shard.tombstones.containsLive p.key (Clock.at now).tombstone).2 p) = true →
      ¬ t.worker.shard.Overdue cfg now) :
    Kept cfg ⟨(t.worker.receive m p (.at now)).worker, now⟩ := by
  have hs := h.scheduled.mono hle
  unfold Worker.receive
  dsimp only
  cases htcp : p.key.protocol with
  | udp => exact kept_of_running hs rfl (by simp)
  | tcp =>
      dsimp only
      split_ifs with hsyn hgeneration hguard hsuppressed
      · refine kept_of_running (Shard.Scheduled.closeFlow ?_ m.accepts p.key) rfl (by simp)
        exact hs
      · exact kept_of_running hs rfl (by simp)
      · refine ⟨hs, trivial, fun _ ↦ hnone ?_⟩
        rw [hsuppressed, Bool.eq_false_iff.mpr hsyn, htcp]
        rfl
      · exact kept_of_running hs rfl (by simp)
      · exact kept_of_running hs rfl (by simp)

theorem kept_look (h : t.Kept cfg) {active : ℕ} {m : Move} {p : ParsedPacket}
    (hnone : ((t.worker.shard.flows.lookup p.key).isNone &&
      !(m.services.acceptsDestination p && tryAdmitFlow active cfg.maxActiveFlows)) = true →
      ¬ t.worker.shard.Overdue cfg t.now) :
    Kept cfg ⟨(t.worker.look cfg active m p (.at t.now)).worker, t.now⟩ := by
  unfold Worker.look
  cases hflow : t.worker.shard.flows.lookup p.key with
  | some flow =>
      have hown := (h.scheduled p.key flow hflow).own
      exact kept_of_running (h.scheduled.handlePacket hown (fun _ ↦ hflow) m.accepts) rfl (by simp)
  | none =>
      dsimp only
      split_ifs with hadm
      · exact kept_of_running h.scheduled rfl (by simp)
      · refine ⟨h.scheduled, trivial, fun _ ↦ hnone ?_⟩
        rw [hflow, Bool.eq_false_iff.mpr hadm]
        rfl

theorem kept_admit (h : t.Kept cfg) {m : Move} {p : ParsedPacket} (flowId : Uuid)
    (hnone : cfg.maxFlowsPerSourcePrefix ≤ t.worker.shard.countOf (.fromPacket p) →
      ¬ t.worker.shard.Overdue cfg t.now) :
    Kept cfg ⟨(t.worker.openFlow cfg m p (.at t.now) flowId).worker, t.now⟩ := by
  unfold Worker.openFlow
  dsimp only
  split_ifs with hfull
  · exact ⟨h.scheduled, trivial, fun _ ↦ hnone hfull⟩
  · refine kept_of_running (Shard.Scheduled.handlePacket ?_ rfl (by simp) m.accepts) rfl (by simp)
    exact h.scheduled

theorem kept_expire (h : t.Kept cfg) {m : Move} :
    Kept cfg ⟨(t.worker.expire cfg m t.now).worker, t.now⟩ := by
  unfold Worker.expire
  cases hdue : t.worker.shard.timers.peek.filter fun item ↦ decide (item.deadline ≤ t.now) with
  | some item =>
      obtain ⟨hpeek, -⟩ := Option.filter_eq_some_iff.mp hdue
      exact kept_of_running (h.scheduled.fire hpeek m.accepts) rfl (by simp)
  | none =>
      refine ⟨h.scheduled.compact, trivial, fun _ ↦ ?_⟩
      rw [Shard.overdue_congr (t.worker.shard.compact_tables cfg).1]
      refine h.scheduled.not_overdue fun item hitem ↦ ?_
      simpa [hitem, Option.filter] using hdue

theorem reading_of_running
    (hpacket : ∀ p clock, t.worker.stage = .waiting → e.2.event ≠ .packet p clock)
    (htimeout : ∀ now, t.worker.stage = .waiting → e.2.event ≠ .timeout now) :
    t.reading e.2 = t.now := by
  unfold reading
  split
  case h_1 p clock hstage hevent => exact absurd hevent (hpacket p clock hstage)
  case h_2 now hstage hevent => exact absurd hevent (htimeout now hstage)
  case h_3 => rfl

theorem Kept.step (h : t.Kept cfg) (hsteady : t.steady e = true) (hnone : t.NoneOverdue cfg e) :
    (t.step cfg e).Kept cfg := by
  have hruns := h.clock
  unfold NoneOverdue leavesEarly at hnone
  unfold steady at hsteady
  unfold Rounds.step Worker.step
  split
  case h_1 p clock hstage hevent =>
    have hreading : t.reading e.2 = clock.expiry := by rw [reading, hstage, hevent]
    rw [hreading] at hnone ⊢
    rw [hstage, hevent] at hnone hsteady
    obtain ⟨hle, hone⟩ := Bool.and_eq_true_iff.mp hsteady
    have hle := of_decide_eq_true hle
    have hone := of_decide_eq_true hone
    generalize clock.expiry = now at *
    subst hone
    exact kept_receive h hle hnone
  case h_2 now hstage hevent =>
    have hreading : t.reading e.2 = now := by rw [reading, hstage, hevent]
    rw [hstage, hevent] at hsteady
    rw [hreading]
    exact kept_of_running (h.scheduled.mono (of_decide_eq_true hsteady)) rfl (by simp)
  case h_3 hstage hevent =>
    rw [reading_of_running (by simp [hevent]) (by simp [hevent])]
    refine kept_of_running h.scheduled ?_ ?_
    all_goals split_ifs <;> simp [Stage.Runs]
  case h_4 p clock _ hstage hevent =>
    rw [reading_of_running (by simp [hstage]) (by simp [hstage])] at hnone ⊢
    rw [hstage] at hruns
    rw [hstage, hevent] at hnone
    obtain rfl : clock = .at t.now := hruns
    exact kept_look h hnone
  case h_5 p clock flowId hstage hevent =>
    rw [reading_of_running (by simp [hstage]) (by simp [hstage])] at hnone ⊢
    rw [hstage] at hruns
    rw [hstage, hevent] at hnone
    obtain rfl : clock = .at t.now := hruns
    exact kept_admit h flowId fun hfull ↦ hnone (decide_eq_true hfull)
  case h_6 now _ hstage hevent =>
    rw [reading_of_running (by simp [hstage]) (by simp [hstage])]
    rw [hstage] at hruns
    obtain rfl : now = t.now := hruns
    exact kept_expire h
  case h_7 key hstage hevent =>
    rw [reading_of_running (by simp [hstage]) (by simp [hstage])]
    unfold Worker.drain
    refine kept_of_running (h.scheduled.closeFlow e.2.accepts key) ?_ ?_
    all_goals split_ifs <;> simp [Stage.Runs]
  case h_8 hpacket htimeout _ _ _ _ _ =>
    rw [reading_of_running hpacket htimeout]
    exact h

theorem kept_start : Kept cfg {} :=
  ⟨by simp [Shard.Scheduled], trivial, fun _ ↦ by simp [Shard.Overdue]⟩

/-! ## The loop over the timers -/

def dueTimers (s : Shard) (now : ℕ) : ℕ :=
  s.timers.items.countP fun item ↦ decide (item.deadline ≤ now)

/-- A timer that fires is closed with its flow, stale, or set to a later time. -/
theorem dueTimers_fire_le (cfg : FlowConfig) (s : Shard) (accepts : FlowOutput → Bool) (now : ℕ)
    (item : TimerItem) :
    dueTimers (s.fire cfg accepts now item).1 now ≤ dueTimers s now := by
  unfold Shard.fire
  cases s.flows.lookup item.key with
  | none => exact le_rfl
  | some flow =>
      dsimp only
      split_ifs with hid hdue
      · exact le_of_eq (by rw [dueTimers, (s.closeFlow_frame accepts item.key).1]; rfl)
      · refine le_of_eq ?_
        have hperm := List.perm_orderedInsert TimerItem.before (⟨flow.lastActivity +
          cfg.idleTimeout flow.key.protocol, s.nextSerial, item.key, flow.id⟩ : TimerItem)
          s.timers.items
        exact (hperm.countP_eq _).trans (by simp [dueTimers, hdue])
      · exact le_rfl

/-- The loop takes one step for each timer that is due, and the last one. -/
theorem expiring_ends {w : Worker} {now : ℕ} (hstage : w.stage = .expiring now)
    {moves : List (ℕ × Move)} (hproceed : ∀ e ∈ moves, ∃ flowId, e.2.event = .proceed flowId)
    (hlen : dueTimers w.shard now < moves.length) : ∃ before later, moves = before ++ later ∧
      (runFrom (fun w e ↦ (Worker.step cfg e.1 e.2 w).worker) w before).stage = .waiting := by
  induction moves generalizing w with
  | nil => simp at hlen
  | cons e moves ih =>
      obtain ⟨flowId, hevent⟩ := hproceed e List.mem_cons_self
      have hstep : (w.step cfg e.1 e.2) = w.expire cfg e.2 now := by
        rw [Worker.step, hstage, hevent]
      cases hdue : w.shard.timers.peek.filter fun item ↦ decide (item.deadline ≤ now) with
      | none =>
          refine ⟨[e], moves, rfl, ?_⟩
          rw [runFrom_cons, runFrom_nil, hstep, Worker.expire, hdue]
      | some item =>
          have hexpire : (w.step cfg e.1 e.2).worker = ⟨(Shard.fire { w.shard with
              timers := w.shard.timers.pop } cfg e.2.accepts now item).1, .expiring now⟩ := by
            rw [hstep, Worker.expire, hdue]
          obtain ⟨hpeek, hitem⟩ := Option.filter_eq_some_iff.mp hdue
          obtain ⟨items, hitems⟩ : ∃ items, w.shard.timers.items = item :: items :=
            List.head?_eq_some_iff.mp hpeek
          have hless : dueTimers { w.shard with timers := w.shard.timers.pop } now <
              dueTimers w.shard now := by
            have hpop : w.shard.timers.pop.items = items := congrArg List.tail hitems
            rw [dueTimers, dueTimers, hpop, hitems, List.countP_cons, if_pos hitem]
            exact Nat.lt_succ_self _
          have hfire := dueTimers_fire_le cfg { w.shard with timers := w.shard.timers.pop }
            e.2.accepts now item
          have hrest : dueTimers (w.step cfg e.1 e.2).worker.shard now < moves.length := by
            rw [hexpire]
            exact (hfire.trans_lt hless).trans_le (Nat.le_of_lt_succ hlen)
          obtain ⟨before, later, rfl, hwaiting⟩ := @ih (w.step cfg e.1 e.2).worker
            (by rw [hexpire]) (fun e' he' ↦ hproceed e' (List.mem_cons_of_mem _ he')) hrest
          exact ⟨e :: before, later, rfl, hwaiting⟩

end Rounds

/-- For a clock that is read once in a round and never goes back, the rounds of a run leave no
flow that is due if and only if those that leave early do not. -/
theorem expiresIdle_iff_noneOverdue (cfg : FlowConfig) (moves : List (ℕ × Move))
    (hsteady : Along (Rounds.step cfg) (fun t e ↦ t.steady e = true) {} moves) :
    ExpiresIdle cfg moves ↔ Along (Rounds.step cfg) (Rounds.NoneOverdue cfg) {} moves := by
  constructor
  · intro h
    refine along_iff.mpr fun before e later hsplit hearly hover ↦ ?_
    obtain ⟨hstage, hflows⟩ := Rounds.leavesEarly_step hearly
    have hnext : Rounds.after cfg (before ++ [e]) = (Rounds.after cfg before).step cfg e :=
      runFrom_append _ _ _ _
    have hidle := h (before ++ [e]) later (by rw [hsplit, List.append_assoc]; rfl)
    rw [hnext] at hidle
    exact hidle hstage ((Shard.overdue_congr hflows).mpr hover)
  · rintro h before later rfl
    have hboth := (along_append.mp hsteady).1.and (along_append.mp h).1
    exact (invariant_runFrom (fun t e hkept hP ↦ hkept.step hP.1 hP.2) Rounds.kept_start hboth).idle

/-- A datagram from `10.0.0.1`. -/
def datagramTo (port : UInt16) : ParsedPacket where
  tsNs := 0
  key := ⟨⟨.v4 0x0a000001, 40000⟩, ⟨.v4 0x0a000102, port⟩, .udp, 0⟩
  direction := .aToB
  seq := none
  ack := none
  flags := {}
  payload := [1]
  wireLen := 43

def expiryConfig : FlowConfig := ⟨16, 16, 1024, 16, 10, 100, 100, 10⟩

/-- Events of a shard that serves port 53 and has no other flows beside it. -/
def shardMoves (events : List Event) : List (ℕ × Move) :=
  events.map fun event ↦
    (0, ⟨event, ServiceMap.ofList [{ port := 53, name := "dns" }], fun _ ↦ true⟩)

/-- A flow is created at 0, and the next round is a timeout of the receive at 200. -/
def idleRun : List (ℕ × Move) :=
  shardMoves [.packet (datagramTo 53) (.at 0), .proceed 1, .proceed 1, .proceed 1, .timeout 200,
    .proceed 1, .proceed 1]

theorem expiresIdle_idleRun : (Rounds.after expiryConfig idleRun).worker.shard.flows.size = 0 ∧
    ExpiresIdle expiryConfig idleRun := by
  have hsteady : Along (Rounds.step expiryConfig) (fun t e ↦ t.steady e = true) {} idleRun := by
    decide +kernel
  have hearly : Along (Rounds.step expiryConfig) (fun t e ↦ t.leavesEarly expiryConfig e = false)
      {} idleRun := by
    decide +kernel
  refine ⟨by decide +kernel, (expiresIdle_iff_noneOverdue expiryConfig idleRun hsteady).mpr ?_⟩
  exact hearly.imp fun t e h h' ↦ absurd (h.symm.trans h') Bool.false_ne_true

/-- A flow is created at 0, and the next round takes a datagram for another port at 200. -/
def floodRun : List (ℕ × Move) :=
  shardMoves [.packet (datagramTo 53) (.at 0), .proceed 1, .proceed 1, .proceed 1,
    .packet (datagramTo 99) (.at 200), .proceed 2]

theorem not_expiresIdle_floodRun :
    Along (Rounds.step expiryConfig) (fun t e ↦ t.steady e = true) {} floodRun ∧
      ¬ ExpiresIdle expiryConfig floodRun := by
  refine ⟨by decide +kernel, fun h ↦ ?_⟩
  have hstage : (Rounds.after expiryConfig floodRun).worker.stage = .waiting := by decide +kernel
  have hdue : ((Rounds.after expiryConfig floodRun).worker.shard.flows.lookup
      (datagramTo 53).key).any (fun flow ↦ decide (flow.deadline expiryConfig ≤
        (Rounds.after expiryConfig floodRun).now)) = true := by decide +kernel
  obtain ⟨flow, hflow, hdue⟩ := (Option.any_eq_true _ _).mp hdue
  exact h floodRun [] (List.append_nil _).symm hstage
    ⟨(datagramTo 53).key, flow, hflow, of_decide_eq_true hdue⟩

end Bazalt.Flow
