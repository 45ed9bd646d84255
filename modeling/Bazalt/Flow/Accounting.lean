import Bazalt.Flow.Shard
import Bazalt.Lib.Run

/-!
# The flow table

In every shard the count of a source prefix is the number of its flows, and the counter
that the shards share is the number of all flows and of the slots reserved for flows that
are about to be admitted.  It never passes its limit.
-/

namespace Bazalt.Flow

open Bazalt.Lib Capture Services

/-- The flows of a prefix. -/
def Shard.flowsOf (s : Shard) (source : SourcePrefix) : ℕ :=
  s.flows.tally fun flow ↦ decide (flow.sourcePrefix = source)

def Shard.countOf (s : Shard) (source : SourcePrefix) : ℕ :=
  (s.sourceCounts.lookup source).getD 0

def Shard.Counted (s : Shard) : Prop := ∀ source, s.countOf source = s.flowsOf source

/-- The entry for the packet stays vacant between the reservation and the admission. -/
structure Worker.Sound (w : Worker) : Prop where
  counted : w.shard.Counted
  vacant : ∀ p clock, w.stage = .reserved p clock → w.shard.flows.lookup p.key = none
  drained : w.stage = .stopped → w.shard.flows.size = 0

def Stage.reservation : Stage → ℕ
  | reserved _ _ => 1
  | _ => 0

/-- The slots of the shared budget that a worker holds. -/
def Worker.slots (w : Worker) : ℕ := w.shard.flows.size + w.stage.reservation

/-! ## Closing -/

theorem getD_lookup_releaseSource (counts : Table SourcePrefix ℕ) (source p : SourcePrefix) :
    ((Shard.releaseSource counts source).lookup p).getD 0 =
      (counts.lookup p).getD 0 - (decide (source = p)).toNat := by
  unfold Shard.releaseSource
  by_cases hp : source = p
  · subst hp
    cases hcount : counts.lookup source with
    | none => simp [hcount]
    | some count =>
        dsimp only
        split_ifs with hzero
        · simp [hzero]
        · simp
  · have hne : p ≠ source := fun h ↦ hp h.symm
    cases hcount : counts.lookup source with
    | none => simp [hp]
    | some count =>
        dsimp only
        split_ifs
        · simp [AList.lookup_erase_ne hne, hp]
        · simp [AList.lookup_insert_ne hne, hp]

/-- What a close does to the tables and to the shared counter. -/
theorem Shard.closeFlow_cases (s : Shard) (accepts : FlowOutput → Bool) (key : FlowKey) :
    s.flows.lookup key = none ∧ s.closeFlow accepts key = (s, .none, []) ∨
      ∃ flow, s.flows.lookup key = some flow ∧ s.closeFlow accepts key =
        ({ s with
            flows := s.flows.erase key
            sourceCounts := releaseSource s.sourceCounts flow.sourcePrefix },
          .release, flow.finish accepts) := by
  unfold closeFlow
  cases h : s.flows.lookup key with
  | none => exact .inl ⟨rfl, rfl⟩
  | some flow => exact .inr ⟨flow, rfl, rfl⟩

theorem Shard.Counted.close {s : Shard} (h : s.Counted) {key : FlowKey} {flow : FlowState}
    (hflow : s.flows.lookup key = some flow) : Shard.Counted { s with
      flows := s.flows.erase key
      sourceCounts := releaseSource s.sourceCounts flow.sourcePrefix } := by
  intro source
  have hcount := h source
  have herase := Table.tally_erase (fun f ↦ decide (f.sourcePrefix = source)) hflow
  unfold countOf flowsOf at hcount ⊢
  rw [getD_lookup_releaseSource, hcount, ← herase]
  exact Nat.add_sub_cancel _ _

theorem Shard.Counted.congr {s s' : Shard} (h : s.Counted) (hflows : s'.flows = s.flows)
    (hcounts : s'.sourceCounts = s.sourceCounts) : s'.Counted := by
  intro source
  have hcount := h source
  rw [countOf, flowsOf] at hcount ⊢
  rwa [hflows, hcounts]

/-- What a step does to the slots of its worker. -/
def Access.Moves (access : Access) (before after : ℕ) : Prop :=
  match access with
  | .none => after = before
  | .reserve => after = before + 1
  | .release => after + 1 = before

theorem Shard.closeFlow_counted {s : Shard} (h : s.Counted) (accepts : FlowOutput → Bool)
    (key : FlowKey) : (s.closeFlow accepts key).1.Counted ∧
      (s.closeFlow accepts key).2.1.Moves s.flows.size (s.closeFlow accepts key).1.flows.size ∧
      (s.closeFlow accepts key).2.1 ≠ .reserve := by
  rcases s.closeFlow_cases accepts key with ⟨-, heq⟩ | ⟨flow, hflow, heq⟩
  · rw [heq]
    exact ⟨h, rfl, by simp⟩
  · rw [heq]
    exact ⟨h.close hflow, Table.size_erase hflow, by simp⟩

/-! ## Packets -/

theorem Shard.entomb_tables (s : Shard) (key : FlowKey) (now : ℕ) :
    (s.entomb key now).flows = s.flows ∧ (s.entomb key now).sourceCounts = s.sourceCounts ∧
      (s.entomb key now).timers = s.timers := by
  unfold entomb
  cases key.protocol <;> exact ⟨rfl, rfl, rfl⟩

theorem FlowState.sourcePrefix_handle (accepts : FlowOutput → Bool) (cfg : FlowConfig)
    (clock : Clock) (p : ParsedPacket) (f : FlowState) :
    (f.handle accepts cfg clock p).flow.sourcePrefix = f.sourcePrefix :=
  (f.alike_handle accepts cfg clock p).sourcePrefix.trans (f.countPacket_eq p clock.activity).2.2.1

/-- `n` is the number of flows once the packet's flow is in the table. -/
theorem Shard.handlePacket_counted {s : Shard} {flow : FlowState} {p : ParsedPacket} {n : ℕ}
    (cfg : FlowConfig) (accepts : FlowOutput → Bool) (clock : Clock) (isNewFlow : Bool)
    (hcounted : ∀ g : FlowState, g.sourcePrefix = flow.sourcePrefix →
      Counted { s with flows := s.flows.insert p.key g })
    (hsize : ∀ g, Table.size (s.flows.insert p.key g) = n) :
    (s.handlePacket cfg accepts clock p flow isNewFlow).1.Counted ∧
      (s.handlePacket cfg accepts clock p flow isNewFlow).2.1.Moves n
        (s.handlePacket cfg accepts clock p flow isNewFlow).1.flows.size ∧
      (s.handlePacket cfg accepts clock p flow isNewFlow).2.1 ≠ .reserve := by
  have hc := hcounted _ (flow.sourcePrefix_handle accepts cfg clock p)
  unfold handlePacket
  dsimp only
  split_ifs
  · obtain ⟨hflows, hcounts, -⟩ := entomb_tables
      { s with flows := s.flows.insert p.key (flow.handle accepts cfg clock p).flow } p.key
      clock.closed
    have hclose := closeFlow_counted (hc.congr hflows hcounts) accepts p.key
    rwa [hflows, hsize] at hclose
  · exact ⟨hc.congr rfl rfl, hsize _, by simp⟩
  · exact ⟨hc, hsize _, by simp⟩

theorem Shard.fire_counted {s : Shard} (h : s.Counted) (cfg : FlowConfig)
    (accepts : FlowOutput → Bool) (now : ℕ) (item : TimerItem) :
    (s.fire cfg accepts now item).1.Counted ∧
      (s.fire cfg accepts now item).2.1.Moves s.flows.size
        (s.fire cfg accepts now item).1.flows.size ∧
      (s.fire cfg accepts now item).2.1 ≠ .reserve := by
  unfold fire
  cases s.flows.lookup item.key with
  | none => exact ⟨h, rfl, by simp⟩
  | some flow =>
      dsimp only
      split_ifs
      · exact closeFlow_counted h accepts item.key
      · exact ⟨h.congr rfl rfl, rfl, by simp⟩
      · exact ⟨h, rfl, by simp⟩

theorem Shard.foldl_schedule_tables (cfg : FlowConfig) (es : List (Σ _ : FlowKey, FlowState))
    (s : Shard) : ∃ timers serial, es.foldl (fun s e ↦
      s.schedule (e.2.lastActivity + cfg.idleTimeout e.2.key.protocol) e.1 e.2.id) s =
        { s with timers := timers, serial := serial } := by
  induction es generalizing s with
  | nil => exact ⟨s.timers, s.serial, rfl⟩
  | cons e es ih =>
      obtain ⟨timers, serial, heq⟩ :=
        ih (s.schedule (e.2.lastActivity + cfg.idleTimeout e.2.key.protocol) e.1 e.2.id)
      exact ⟨timers, serial, by rw [List.foldl_cons, heq]; rfl⟩

theorem Shard.compact_tables (s : Shard) (cfg : FlowConfig) :
    (s.compact cfg).flows = s.flows ∧ (s.compact cfg).sourceCounts = s.sourceCounts := by
  unfold compact
  split_ifs
  · obtain ⟨timers, serial, heq⟩ :=
      foldl_schedule_tables cfg s.flows.entries { s with timers := .empty }
    rw [heq]
    exact ⟨rfl, rfl⟩
  · exact ⟨rfl, rfl⟩

/-! ## Steps -/

/-- What a step of a worker comes to. -/
structure Stepped.Sound (cfg : FlowConfig) (active : ℕ) (w : Worker) (r : Stepped) : Prop where
  worker : r.worker.Sound
  slots : r.access.Moves w.slots r.worker.slots
  room : r.access = .reserve → active < cfg.maxActiveFlows

namespace Worker

variable {cfg : FlowConfig} {active : ℕ} {m : Move} {w : Worker}

/-- A step that leaves the worker without a reservation. -/
theorem stepped_sound {s : Shard} {stage : Stage} {access : Access} {out : List FlowOutput}
    (hstage : stage.reservation = 0) (hdrained : stage = .stopped → s.flows.size = 0)
    (hcounted : s.Counted) (hslots : access.Moves w.slots s.flows.size)
    (haccess : access ≠ .reserve) : Stepped.Sound cfg active w ⟨⟨s, stage⟩, access, out⟩ where
  worker := by
    refine ⟨hcounted, fun p clock h ↦ ?_, hdrained⟩
    simp only at h
    simp [h, Stage.reservation] at hstage
  slots := by
    simpa [slots, hstage] using hslots
  room h := absurd h haccess

theorem receive_sound (h : w.Sound) (hstage : w.stage = .waiting) (p : ParsedPacket)
    (clock : Clock) : Stepped.Sound cfg active w (w.receive m p clock) := by
  have hslots : w.slots = w.shard.flows.size := by simp [slots, hstage, Stage.reservation]
  unfold receive
  dsimp only
  cases p.key.protocol with
  | udp => exact stepped_sound rfl (by simp) h.counted hslots.symm (by simp)
  | tcp =>
      dsimp only
      split_ifs
      · obtain ⟨hcounted, hmoves, haccess⟩ := Shard.closeFlow_counted (s := { w.shard with
            tombstones := w.shard.tombstones.remove p.key }) (h.counted.congr rfl rfl)
          m.accepts p.key
        exact stepped_sound rfl (by simp) hcounted (by rwa [hslots]) haccess
      all_goals exact stepped_sound rfl (by simp) (h.counted.congr rfl rfl) hslots.symm (by simp)

theorem look_sound (h : w.Sound) {p : ParsedPacket} {clock : Clock}
    (hstage : w.stage = .looking p clock) :
    Stepped.Sound cfg active w (w.look cfg active m p clock) := by
  have hslots : w.slots = w.shard.flows.size := by simp [slots, hstage, Stage.reservation]
  unfold look
  cases hflow : w.shard.flows.lookup p.key with
  | some flow =>
      -- the packet's flow keeps its prefix
      have hcounted : ∀ g : FlowState, g.sourcePrefix = flow.sourcePrefix →
          Shard.Counted { w.shard with flows := w.shard.flows.insert p.key g } := by
        intro g hg source
        have hcount := h.counted source
        have htally := Table.tally_insert (fun f ↦ decide (f.sourcePrefix = source)) hflow g
        rw [Shard.countOf, Shard.flowsOf] at hcount ⊢
        simp only [hg, Nat.add_right_cancel_iff] at htally
        exact hcount.trans htally.symm
      obtain ⟨hc, hmoves, haccess⟩ := Shard.handlePacket_counted cfg m.accepts clock false hcounted
        (fun g ↦ Table.size_insert hflow g)
      exact stepped_sound rfl (by simp) hc (by rwa [hslots]) haccess
  | none =>
      dsimp only
      split_ifs with hroom
      · refine ⟨⟨h.counted, ?_, by simp⟩, ?_, fun _ ↦ ?_⟩
        · intro q c hq
          obtain ⟨rfl, -⟩ := Stage.reserved.inj hq
          exact hflow
        · simp [Access.Moves, slots, hstage, Stage.reservation]
        · simpa [tryAdmitFlow] using (Bool.and_eq_true_iff.mp hroom).2
      · exact stepped_sound rfl (by simp) h.counted hslots.symm (by simp)

theorem admit_sound (h : w.Sound) {p : ParsedPacket} {clock : Clock}
    (hstage : w.stage = .reserved p clock) (flowId : Uuid) :
    Stepped.Sound cfg active w (w.openFlow cfg m p clock flowId) := by
  have hslots : w.slots = w.shard.flows.size + 1 := by simp [slots, hstage, Stage.reservation]
  have hvacant := h.vacant p clock hstage
  unfold openFlow
  dsimp only
  split_ifs with hfull
  · refine stepped_sound rfl (by simp) ?_ hslots.symm (by simp)
    intro source
    refine Eq.trans ?_ (h.counted source)
    unfold Shard.countOf
    by_cases hs : source = .fromPacket p
    · subst hs
      simp
    · simp [AList.lookup_insert_ne hs]
  · -- the count of the prefix is raised before the flow enters the table
    have hcounted : ∀ g : FlowState, g.sourcePrefix = .fromPacket p →
        Shard.Counted { w.shard with
          sourceCounts := w.shard.sourceCounts.insert (.fromPacket p)
            ((w.shard.sourceCounts.lookup (.fromPacket p)).getD 0 + 1)
          flows := w.shard.flows.insert p.key g } := by
      intro g hg source
      have hcount := h.counted source
      have htally :=
        Table.tally_insert_of_absent (fun f ↦ decide (f.sourcePrefix = source)) hvacant g
      unfold Shard.countOf Shard.flowsOf at hcount ⊢
      by_cases hs : source = .fromPacket p
      · subst hs
        simpa [htally, hg] using hcount
      · have hne : ¬ SourcePrefix.fromPacket p = source := fun e ↦ hs e.symm
        simpa [htally, hg, hne, AList.lookup_insert_ne hs] using hcount
    have hhandled := @Shard.handlePacket_counted { w.shard with
        sourceCounts := w.shard.sourceCounts.insert (.fromPacket p)
          ((w.shard.sourceCounts.lookup (.fromPacket p)).getD 0 + 1) }
      (.new p flowId clock.created) p _ cfg m.accepts clock true hcounted
      (fun g ↦ Table.size_insert_of_absent hvacant g)
    obtain ⟨hc, hmoves, haccess⟩ := hhandled
    exact stepped_sound rfl (by simp) hc (by rwa [hslots]) haccess

theorem expire_sound (h : w.Sound) {now : ℕ} (hstage : w.stage = .expiring now) :
    Stepped.Sound cfg active w (w.expire cfg m now) := by
  have hslots : w.slots = w.shard.flows.size := by simp [slots, hstage, Stage.reservation]
  unfold expire
  cases w.shard.timers.peek.filter fun item ↦ decide (item.deadline ≤ now) with
  | some item =>
      obtain ⟨hc, hmoves, haccess⟩ := Shard.fire_counted (s := { w.shard with
        timers := w.shard.timers.pop }) (h.counted.congr rfl rfl) cfg m.accepts now item
      exact stepped_sound rfl (by simp) hc (by rwa [hslots]) haccess
  | none =>
      obtain ⟨hflows, hcounts⟩ := w.shard.compact_tables cfg
      exact stepped_sound rfl (by simp) (h.counted.congr hflows hcounts)
        (by simp [hslots, hflows, Access.Moves]) (by simp)

theorem drain_sound (h : w.Sound) (hstage : w.stage = .draining) (key : FlowKey) :
    Stepped.Sound cfg active w (w.drain m key) := by
  have hslots : w.slots = w.shard.flows.size := by simp [slots, hstage, Stage.reservation]
  obtain ⟨hc, hmoves, haccess⟩ := Shard.closeFlow_counted h.counted m.accepts key
  unfold drain
  refine stepped_sound ?_ ?_ hc (by rwa [hslots]) haccess
  · split_ifs <;> rfl
  · simp

theorem step_sound (h : w.Sound) : Stepped.Sound cfg active w (w.step cfg active m) := by
  have hstay : Stepped.Sound cfg active w ⟨w, .none, []⟩ := ⟨h, rfl, by simp⟩
  have hleave : ∀ stage : Stage, w.stage.reservation = 0 → stage.reservation = 0 →
      (stage = .stopped → w.shard.flows.size = 0) →
      Stepped.Sound cfg active w ⟨{ w with stage := stage }, .none, []⟩ := fun stage h₁ h₂ h₃ ↦
    stepped_sound h₂ h₃ h.counted (by simp [slots, h₁, Access.Moves]) (by simp)
  unfold step
  split
  case h_1 hstage _ => exact receive_sound h hstage _ _
  case h_2 hstage _ => exact hleave _ (by simp [hstage, Stage.reservation]) rfl (by simp)
  case h_3 hstage _ =>
    refine hleave _ (by simp [hstage, Stage.reservation]) ?_ (by simp)
    split_ifs <;> rfl
  case h_4 hstage _ => exact look_sound h hstage
  case h_5 hstage _ => exact admit_sound h hstage _
  case h_6 hstage _ => exact expire_sound h hstage
  case h_7 hstage _ => exact drain_sound h hstage _
  case h_8 => exact hstay

end Worker

/-! ## All shards -/

/-- The shards and the counter of active flows that they share. -/
abbrev Shards (ι : Type) := Pool ι ℕ Worker

namespace Shards

variable {ι : Type} [DecidableEq ι]

def start : Shards ι := ⟨0, fun _ ↦ {}⟩

def next (cfg : FlowConfig) (m : Move) (active : ℕ) (w : Worker) : ℕ × Worker :=
  ((w.step cfg active m).access.apply active, (w.step cfg active m).worker)

/-- A shard takes its next step. -/
def step (cfg : FlowConfig) (sys : Shards ι) (e : ι × Move) : Shards ι :=
  Pool.step (next cfg e.2) sys e.1

def after (cfg : FlowConfig) (moves : List (ι × Move)) : Shards ι :=
  runFrom (step cfg) start moves

variable [Fintype ι]

structure Accounted (cfg : FlowConfig) (sys : Shards ι) : Prop where
  sources : ∀ i source, (sys.locals i).shard.countOf source = (sys.locals i).shard.flowsOf source
  active : ∑ i, ((sys.locals i).shard.flows.size + (sys.locals i).stage.reservation) = sys.shared
  bounded : sys.shared ≤ cfg.maxActiveFlows
  drained : (∀ i, (sys.locals i).stage = .stopped) → sys.shared = 0 ∧
    ∀ i, (sys.locals i).shard.flows.size = 0 ∧
      ∀ source, (sys.locals i).shard.countOf source = 0

/-- The invariant behind it. -/
structure Sound (cfg : FlowConfig) (sys : Shards ι) : Prop where
  workers : ∀ i, (sys.locals i).Sound
  active : ∑ i, (sys.locals i).slots = sys.shared
  bounded : sys.shared ≤ cfg.maxActiveFlows

variable {cfg : FlowConfig} {sys : Shards ι}

omit [DecidableEq ι] in
theorem sound_start : Sound cfg (start : Shards ι) where
  workers _ := ⟨fun _ ↦ rfl, by simp [start], by simp [start]⟩
  active := by simp [start, Worker.slots, Stage.reservation]
  bounded := Nat.zero_le _

/-- The counter moves with the slots of the worker that takes the step. -/
theorem apply_of_moves {access : Access} {active total slots slots' bound : ℕ}
    (hmoves : access.Moves slots slots') (hroom : access = .reserve → active < bound)
    (hslots : slots ≤ active) (htotal : total + slots = active + slots') (hbound : active ≤ bound) :
    total = access.apply active ∧ access.apply active ≤ bound := by
  cases access with
  | none =>
      simp only [Access.Moves] at hmoves
      simp only [Access.apply]
      omega
  | reserve =>
      have hlt := hroom rfl
      simp only [Access.Moves] at hmoves
      simp only [Access.apply]
      omega
  | release =>
      simp only [Access.Moves] at hmoves
      have hpos : active ≠ 0 := by omega
      simp only [Access.apply, if_neg hpos]
      omega

theorem Sound.step (h : Sound cfg sys) (e : ι × Move) : Sound cfg (sys.step cfg e) := by
  obtain ⟨hworker, hslots, hroom⟩ : Stepped.Sound cfg sys.shared (sys.locals e.1)
    ((sys.locals e.1).step cfg sys.shared e.2) := Worker.step_sound (h.workers e.1)
  have hsum : ∑ j, ((sys.step cfg e).locals j).slots + (sys.locals e.1).slots =
      ∑ j, (sys.locals j).slots + ((sys.locals e.1).step cfg sys.shared e.2).worker.slots :=
    Pool.sum_locals_step Worker.slots e.1
  have hone : (sys.locals e.1).slots ≤ ∑ j, (sys.locals j).slots :=
    Finset.single_le_sum (fun j _ ↦ Nat.zero_le (sys.locals j).slots) (Finset.mem_univ e.1)
  rw [h.active] at hsum hone
  obtain ⟨hactive, hbounded⟩ := apply_of_moves hslots hroom hone hsum h.bounded
  exact ⟨Pool.forall_locals_step hworker fun j _ ↦ h.workers j, hactive, hbounded⟩

theorem sound_after (moves : List (ι × Move)) : Sound cfg (after cfg moves) :=
  invariant_runFrom_of_step (fun _ e hs ↦ hs.step e) moves sound_start

/-- Whatever packets and timeouts the shards handle, in whatever order. -/
theorem flow_table_accounting (cfg : FlowConfig) (moves : List (ι × Move)) :
    Accounted cfg (after cfg moves) := by
  have h : Sound cfg (after cfg moves) := sound_after moves
  refine ⟨fun i ↦ (h.workers i).counted, h.active, h.bounded, fun hstopped ↦ ?_⟩
  have hflows : ∀ i, ((after cfg moves).locals i).shard.flows.size = 0 := fun i ↦
    (h.workers i).drained (hstopped i)
  refine ⟨?_, fun i ↦ ⟨hflows i, fun source ↦ ?_⟩⟩
  · rw [← h.active]
    refine Finset.sum_eq_zero fun i _ ↦ ?_
    rw [Worker.slots, hflows i, hstopped i]
    rfl
  · have hle := Table.tally_le_size (fun f : FlowState ↦ decide (f.sourcePrefix = source))
      ((after cfg moves).locals i).shard.flows
    rw [(h.workers i).counted source]
    exact Nat.le_zero.mp (hle.trans_eq (hflows i))

end Shards

end Bazalt.Flow
