import Bazalt.Flow.Expiry
import Bazalt.Flow.Outputs

/-!
# One timer for each flow

A flow gets its timer when it is created and keeps one until it is closed: a timer that fires
early is taken from the heap and set again, one whose flow is gone is dropped, and a compaction
sets one for each flow that is left.  Timers of closed flows stay behind, at most as many as the
compaction at the end of a round lets stand.
-/

namespace Bazalt.Flow

open Bazalt.Lib Capture Services

namespace TimerHeap

/-- The number of timers that carry the identifier. -/
def carrying (timers : TimerHeap) (id : Uuid) : ℕ :=
  timers.items.countP fun item ↦ decide (item.flowId = id)

theorem carrying_push (timers : TimerHeap) (item : TimerItem) (id : Uuid) :
    (timers.push item).carrying id = timers.carrying id + if item.flowId = id then 1 else 0 := by
  have hperm := List.perm_orderedInsert TimerItem.before item timers.items
  unfold carrying push
  rw [hperm.countP_eq, List.countP_cons]
  simp

theorem carrying_pop {timers : TimerHeap} {item : TimerItem} (hpeek : timers.peek = some item)
    (id : Uuid) :
    timers.carrying id = timers.pop.carrying id + if item.flowId = id then 1 else 0 := by
  obtain ⟨items, hitems⟩ := List.head?_eq_some_iff.mp hpeek
  have hpop : timers.pop.items = items := congrArg List.tail hitems
  unfold carrying
  rw [hpop, hitems, List.countP_cons]
  simp

theorem carrying_eq_zero {timers : TimerHeap} {id : Uuid} :
    timers.carrying id = 0 ↔ ∀ item ∈ timers.items, item.flowId ≠ id := by
  simp [carrying, List.countP_eq_zero]

/-- The only timer that carries an identifier. -/
theorem eq_of_carrying_eq_one {timers : TimerHeap} {id : Uuid} (h : timers.carrying id = 1)
    {a b : TimerItem} (ha : a ∈ timers.items) (hb : b ∈ timers.items) (haid : a.flowId = id)
    (hbid : b.flowId = id) : a = b := by
  rw [carrying, List.countP_eq_length_filter] at h
  obtain ⟨c, hc⟩ := List.length_eq_one_iff.mp h
  have hmem : ∀ {d : TimerItem}, d ∈ timers.items → d.flowId = id → d = c := by
    intro d hd hdid
    have : d ∈ timers.items.filter fun item ↦ decide (item.flowId = id) :=
      List.mem_filter.mpr ⟨hd, by simpa using hdid⟩
    rw [hc] at this
    exact List.mem_singleton.mp this
  rw [hmem ha haid, hmem hb hbid]

end TimerHeap

namespace Shard

variable {cfg : FlowConfig} {s s' : Shard} {now : ℕ} {created : List Uuid}

/-- Every flow has a timer that fires in time and no other, and all timers carry identifiers
that flows were created with. -/
structure Timed (cfg : FlowConfig) (s : Shard) (now : ℕ) (created : List Uuid) : Prop where
  scheduled : s.Scheduled cfg now
  single : ∀ key flow, s.flows.lookup key = some flow → s.timers.carrying flow.id = 1
  known : ∀ item ∈ s.timers.items, item.flowId ∈ created

/-- The timer of a flow has its key. -/
theorem Timed.item_key (h : s.Timed cfg now created) {key : FlowKey} {flow : FlowState}
    (hflow : s.flows.lookup key = some flow) {item : TimerItem} (hitem : item ∈ s.timers.items)
    (hid : item.flowId = flow.id) : item.key = key := by
  obtain ⟨-, -, item', hitem', hkey', hid', -⟩ := h.scheduled key flow hflow
  rw [TimerHeap.eq_of_carrying_eq_one (h.single key flow hflow) hitem hitem' hid hid']
  exact hkey'

theorem Timed.flow_known (h : s.Timed cfg now created) {key : FlowKey} {flow : FlowState}
    (hflow : s.flows.lookup key = some flow) : flow.id ∈ created := by
  obtain ⟨-, -, item, hitem, -, hid, -⟩ := h.scheduled key flow hflow
  exact hid ▸ h.known item hitem

theorem Timed.mono (h : s.Timed cfg now created) {now' : ℕ} (hle : now ≤ now') :
    s.Timed cfg now' created :=
  ⟨h.scheduled.mono hle, h.single, h.known⟩

/-- Flows may go. -/
theorem Timed.shrink (h : s.Timed cfg now created)
    (hflows : ∀ key flow, s'.flows.lookup key = some flow → s.flows.lookup key = some flow)
    (htimers : s'.timers = s.timers) : s'.Timed cfg now created := by
  refine ⟨h.scheduled.shrink hflows (fun item hitem ↦ htimers ▸ hitem), fun key flow hflow ↦ ?_, ?_⟩
  · rw [htimers]
    exact h.single key flow (hflows key flow hflow)
  · rw [htimers]
    exact h.known

theorem Timed.closeFlow (h : s.Timed cfg now created) (accepts : FlowOutput → Bool)
    (key : FlowKey) : (s.closeFlow accepts key).1.Timed cfg now created := by
  obtain ⟨htimers, hflows⟩ := closeFlow_frame s accepts key
  exact h.shrink (fun k flow hk ↦ (hflows k flow hk).2) htimers

/-- What a packet does to flows and timers: its flow is closed, entered with a timer, or
updated. -/
theorem handlePacket_cases (s : Shard) (cfg : FlowConfig) (accepts : FlowOutput → Bool)
    (clock : Clock) (p : ParsedPacket) (flow : FlowState) (isNewFlow : Bool) :
    let s' := (s.handlePacket cfg accepts clock p flow isNewFlow).1
    s'.timers = s.timers ∧ (∀ k f, s'.flows.lookup k = some f →
        k ≠ p.key ∧ s.flows.lookup k = some f) ∨
      s'.flows = s.flows.insert p.key (flow.handle accepts cfg clock p).flow ∧
        (isNewFlow = true ∧ (∃ deadline, s'.timers = s.timers.push ⟨deadline, s.nextSerial, p.key,
            (flow.handle accepts cfg clock p).flow.id⟩) ∨
          isNewFlow = false ∧ s'.timers = s.timers) := by
  unfold Shard.handlePacket
  dsimp only
  generalize (flow.handle accepts cfg clock p).flow = g
  split_ifs with hclose hnew
  · obtain ⟨hflows, -, htimers⟩ := entomb_tables { s with flows := s.flows.insert p.key g } p.key
      clock.closed
    obtain ⟨htimers', hflows'⟩ := closeFlow_frame (entomb { s with
      flows := s.flows.insert p.key g } p.key clock.closed) accepts p.key
    refine .inl ⟨htimers'.trans htimers, fun k f hk ↦ ?_⟩
    obtain ⟨hne, hk⟩ := hflows' k f hk
    rw [hflows] at hk
    exact ⟨hne, (lookup_of_lookup_insert hk).elim (fun e ↦ absurd e.1 hne) And.right⟩
  · exact .inr ⟨rfl, .inl ⟨hnew, _, rfl⟩⟩
  · exact .inr ⟨rfl, .inr ⟨by simpa using hnew, rfl⟩⟩

theorem handle_id (flow : FlowState) (cfg : FlowConfig) (accepts : FlowOutput → Bool)
    (clock : Clock) (p : ParsedPacket) : (flow.handle accepts cfg clock p).flow.id = flow.id :=
  (flow.alike_handle accepts cfg clock p).id.trans (flow.countPacket_eq p clock.activity).1

/-- A packet of a flow that is in the table. -/
theorem Timed.handlePacket_old (h : s.Timed cfg now created) {p : ParsedPacket} {flow : FlowState}
    (hflow : s.flows.lookup p.key = some flow) (accepts : FlowOutput → Bool) :
    (s.handlePacket cfg accepts (.at now) p flow false).1.Timed cfg now created := by
  have hscheduled : (s.handlePacket cfg accepts (.at now) p flow false).1.Scheduled cfg now :=
    h.scheduled.handlePacket (h.scheduled p.key flow hflow).own (fun _ ↦ hflow) accepts
  have hcases := s.handlePacket_cases cfg accepts (.at now) p flow false
  have hid := handle_id flow cfg accepts (.at now) p
  simp only at hcases
  generalize (s.handlePacket cfg accepts (.at now) p flow false).1 = s' at hscheduled hcases ⊢
  rcases hcases with ⟨htimers, hflows⟩ | ⟨hflows, ⟨hnew, -⟩ | ⟨-, htimers⟩⟩
  · exact h.shrink (fun k f hk ↦ (hflows k f hk).2) htimers
  · cases hnew
  · refine ⟨hscheduled, fun k f hk ↦ ?_, htimers ▸ h.known⟩
    rw [htimers]
    rw [hflows] at hk
    rcases lookup_of_lookup_insert hk with ⟨rfl, rfl⟩ | ⟨-, hk⟩
    · rw [hid]
      exact h.single p.key flow hflow
    · exact h.single k f hk

/-- The first packet of a flow, which has a fresh identifier. -/
theorem Timed.handlePacket_new (h : s.Timed cfg now created) {p : ParsedPacket} {id : Uuid}
    (hfresh : id ∉ created) (accepts : FlowOutput → Bool) :
    (s.handlePacket cfg accepts (.at now) p (.new p id now) true).1.Timed cfg now
      (created ++ [id]) := by
  have hscheduled : (s.handlePacket cfg accepts (.at now) p (.new p id now) true).1.Scheduled cfg
      now := h.scheduled.handlePacket rfl (by simp) accepts
  have hcases := s.handlePacket_cases cfg accepts (.at now) p (.new p id now) true
  have hid : ((FlowState.new p id now).handle accepts cfg (.at now) p).flow.id = id :=
    handle_id (.new p id now) cfg accepts (.at now) p
  simp only at hcases
  generalize (s.handlePacket cfg accepts (.at now) p (.new p id now) true).1 = s'
    at hscheduled hcases ⊢
  have hunused : s.timers.carrying id = 0 :=
    TimerHeap.carrying_eq_zero.mpr fun item hitem heq ↦ hfresh (heq ▸ h.known item hitem)
  rcases hcases with ⟨htimers, hflows⟩ | ⟨hflows, ⟨-, deadline, htimers⟩ | ⟨hold, -⟩⟩
  · have hshrunk := h.shrink (fun k f hk ↦ (hflows k f hk).2) htimers
    exact ⟨hscheduled, hshrunk.single, fun item hitem ↦
      List.mem_append_left _ (hshrunk.known item hitem)⟩
  · refine ⟨hscheduled, fun k f hk ↦ ?_, fun item hitem ↦ ?_⟩
    · rw [htimers, TimerHeap.carrying_push]
      rw [hflows] at hk
      rcases lookup_of_lookup_insert hk with ⟨rfl, rfl⟩ | ⟨-, hold⟩
      · rw [hid, hunused, if_pos rfl]
      · rw [h.single k f hold, if_neg]
        rw [hid]
        intro (hsame : id = f.id)
        exact hfresh (hsame ▸ h.flow_known hold)
    · rw [htimers] at hitem
      rcases mem_push.mp hitem with rfl | hitem
      · simp [hid]
      · exact List.mem_append_left _ (h.known item hitem)
  · cases hold

/-- The first timer is taken from the heap and fires. -/
theorem Timed.fire (h : s.Timed cfg now created) {item : TimerItem}
    (hpeek : s.timers.peek = some item) (accepts : FlowOutput → Bool) :
    (Shard.fire { s with timers := s.timers.pop } cfg accepts now item).1.Timed cfg now created := by
  have hscheduled := h.scheduled.fire hpeek accepts
  have hitem : item ∈ s.timers.items := List.mem_of_head? hpeek
  have hpopped : ∀ i ∈ s.timers.pop.items, i ∈ s.timers.items := fun i hi ↦ List.mem_of_mem_tail hi
  -- the timers of all other flows are still there
  have hothers : ∀ k f, s.flows.lookup k = some f → k ≠ item.key →
      s.timers.pop.carrying f.id = 1 := by
    intro k f hk hne
    have hpop := TimerHeap.carrying_pop hpeek f.id
    rw [h.single k f hk, if_neg fun hid ↦ hne (h.item_key hk hitem hid).symm] at hpop
    exact hpop.symm
  unfold Shard.fire at hscheduled ⊢
  cases hflow : s.flows.lookup item.key with
  | none =>
      simp only [hflow] at hscheduled ⊢
      refine ⟨hscheduled, fun k f hk ↦ hothers k f hk ?_, fun i hi ↦ h.known i (hpopped i hi)⟩
      rintro rfl
      rw [hflow] at hk
      cases hk
  | some flow =>
      simp only [hflow] at hscheduled ⊢
      split_ifs at hscheduled ⊢ with hid hdue
      · obtain ⟨htimers, hflows⟩ := closeFlow_frame { s with timers := s.timers.pop } accepts item.key
        refine ⟨hscheduled, fun k f hk ↦ ?_, fun i hi ↦ ?_⟩
        · obtain ⟨hne, hk⟩ := hflows k f hk
          rw [htimers]
          exact hothers k f hk hne
        · rw [htimers] at hi
          exact h.known i (hpopped i hi)
      · refine ⟨hscheduled, fun k f hk ↦ ?_, fun i hi ↦ ?_⟩
        · refine (TimerHeap.carrying_push _ _ f.id).trans ?_
          by_cases hkey : k = item.key
          · subst hkey
            obtain rfl : flow = f := Option.some.inj (hflow.symm.trans hk)
            have hpop := TimerHeap.carrying_pop hpeek flow.id
            rw [h.single _ flow hflow, if_pos hid.symm] at hpop
            simp only [if_true]
            omega
          · rw [hothers k f hk hkey, if_neg]
            intro hsame
            obtain ⟨-, -, i, hi, hkey', hid', -⟩ := h.scheduled _ flow hflow
            exact hkey ((h.item_key hk hi (hid'.trans hsame)).symm.trans hkey')
        · rcases mem_push.mp hi with rfl | hi
          · exact h.flow_known hflow
          · exact h.known i (hpopped i hi)
      · refine ⟨hscheduled, fun k f hk ↦ ?_, fun i hi ↦ h.known i (hpopped i hi)⟩
        by_cases hkey : k = item.key
        · subst hkey
          obtain rfl : flow = f := Option.some.inj (hflow.symm.trans hk)
          have hpop := TimerHeap.carrying_pop hpeek flow.id
          rw [h.single _ flow hflow, if_neg fun he ↦ hid he.symm] at hpop
          exact hpop.symm
        · exact hothers k f hk hkey

theorem carrying_foldl_schedule (es : List (Σ _ : FlowKey, FlowState)) (s : Shard) (id : Uuid) :
    (es.foldl (fun s e ↦ s.schedule (e.2.lastActivity + cfg.idleTimeout e.2.key.protocol) e.1
      e.2.id) s).timers.carrying id =
        s.timers.carrying id + es.countP fun e ↦ decide (e.2.id = id) := by
  induction es generalizing s with
  | nil => rfl
  | cons e es ih =>
      rw [List.foldl_cons, ih, Shard.schedule, TimerHeap.carrying_push, List.countP_cons]
      simp only [decide_eq_true_eq]
      omega

theorem len_foldl_schedule (es : List (Σ _ : FlowKey, FlowState)) (s : Shard) :
    (es.foldl (fun s e ↦ s.schedule (e.2.lastActivity + cfg.idleTimeout e.2.key.protocol) e.1
      e.2.id) s).timers.len = s.timers.len + es.length := by
  induction es generalizing s with
  | nil => rfl
  | cons e es ih =>
      rw [List.foldl_cons, ih]
      simp only [Shard.schedule, TimerHeap.len, TimerHeap.push, List.orderedInsert_length,
        List.length_cons]
      omega

theorem known_foldl_schedule (es : List (Σ _ : FlowKey, FlowState)) (s : Shard)
    (hes : ∀ e ∈ es, e.2.id ∈ created) (hs : ∀ item ∈ s.timers.items, item.flowId ∈ created) :
    ∀ item ∈ (es.foldl (fun s e ↦ s.schedule
      (e.2.lastActivity + cfg.idleTimeout e.2.key.protocol) e.1 e.2.id) s).timers.items,
        item.flowId ∈ created := by
  induction es generalizing s with
  | nil => exact hs
  | cons e es ih =>
      refine ih _ (fun e' he' ↦ hes e' (List.mem_cons_of_mem _ he')) fun item hitem ↦ ?_
      rcases mem_push.mp hitem with rfl | hitem
      · exact hes e List.mem_cons_self
      · exact hs item hitem

/-- Flows of one shard differ in their identifiers. -/
theorem Timed.countP_id (h : s.Timed cfg now created) {key : FlowKey} {flow : FlowState}
    (hflow : s.flows.lookup key = some flow) :
    s.flows.entries.countP (fun e ↦ decide (e.2.id = flow.id)) = 1 := by
  have hperm := Table.entries_perm hflow
  rw [hperm.countP_eq, List.countP_cons, List.countP_eq_zero.mpr]
  · simp
  · rintro ⟨k, f⟩ he hid
    have hlookup : (s.flows.erase key).lookup k = some f := AList.mem_lookup_iff.mpr he
    obtain ⟨hne, hk⟩ := lookup_of_lookup_erase hlookup
    obtain ⟨-, -, item, hitem, hkey, hid', -⟩ := h.scheduled key flow hflow
    have hsame : f.id = flow.id := of_decide_eq_true hid
    exact hne ((h.item_key hk hitem (hid'.trans hsame.symm)).symm.trans hkey)

theorem Timed.compact (h : s.Timed cfg now created) : (s.compact cfg).Timed cfg now created := by
  refine ⟨h.scheduled.compact, fun key flow hflow ↦ ?_, ?_⟩
  · rw [(s.compact_tables cfg).1] at hflow
    unfold Shard.compact
    split_ifs
    · rw [carrying_foldl_schedule, h.countP_id hflow]
      rfl
    · exact h.single key flow hflow
  · unfold Shard.compact
    split_ifs
    · refine known_foldl_schedule _ _ (fun e he ↦ ?_) (fun item hitem ↦ by cases hitem)
      exact h.flow_known (AList.mem_lookup_iff.mpr he)
    · exact h.known

/-- The heap is small, for the number of flows. -/
def HeapBounded (s : Shard) : Prop := s.timers.len ≤ max 4096 (2 * s.flows.size + 1024)

theorem heapBounded_compact (s : Shard) (cfg : FlowConfig) : (s.compact cfg).HeapBounded := by
  unfold HeapBounded
  rw [(s.compact_tables cfg).1]
  unfold Shard.compact
  split_ifs with hlarge
  · rw [len_foldl_schedule]
    have hempty : TimerHeap.empty.len = 0 := rfl
    have hsize : s.flows.entries.length = s.flows.size := rfl
    simp only [hempty, hsize]
    omega
  · have hsat := satAdd_le_add (min (s.flows.size * 2) u64Max) 1024
    omega

end Shard

/-! ## Steps -/

/-- What a step does to the flows and timers of its shard, and the identifier that it gives. -/
inductive Worker.Changes (cfg : FlowConfig) (accepts : FlowOutput → Bool) (w : Worker) :
    Worker → Option Uuid → Prop
  | stay {s : Shard} {stage : Stage} : s.flows = w.shard.flows → s.timers = w.shard.timers →
      Changes cfg accepts w ⟨s, stage⟩ none
  | close {s : Shard} {stage : Stage} (key : FlowKey) : s.flows = w.shard.flows →
      s.timers = w.shard.timers → Changes cfg accepts w ⟨(s.closeFlow accepts key).1, stage⟩ none
  | old {p : ParsedPacket} {clock : Clock} {flow : FlowState} : w.stage = .looking p clock →
      w.shard.flows.lookup p.key = some flow →
      Changes cfg accepts w
        ⟨(w.shard.handlePacket cfg accepts clock p flow false).1, .expiring clock.expiry⟩ none
  | new {p : ParsedPacket} {clock : Clock} {s : Shard} (id : Uuid) : w.stage = .reserved p clock →
      s.flows = w.shard.flows → s.timers = w.shard.timers →
      Changes cfg accepts w ⟨(s.handlePacket cfg accepts clock p (.new p id clock.created) true).1,
        .expiring clock.expiry⟩ (some id)
  | fire {now : ℕ} {item : TimerItem} : w.stage = .expiring now →
      w.shard.timers.peek = some item →
      Changes cfg accepts w ⟨(Shard.fire { w.shard with timers := w.shard.timers.pop } cfg accepts
        now item).1, .expiring now⟩ none
  | compact {now : ℕ} : w.stage = .expiring now →
      Changes cfg accepts w ⟨w.shard.compact cfg, .waiting⟩ none

theorem Worker.receive_changes (cfg : FlowConfig) (m : Move) (w : Worker) (p : ParsedPacket)
    (clock : Clock) : w.Changes cfg m.accepts (w.receive m p clock).worker none := by
  unfold Worker.receive
  dsimp only
  split
  · exact .stay rfl rfl
  · split_ifs
    · exact .close p.key rfl rfl
    · exact .stay rfl rfl
    · exact .stay rfl rfl
    · exact .stay rfl rfl
    · exact .stay rfl rfl

theorem Worker.step_changes (cfg : FlowConfig) (active : ℕ) (m : Move) (w : Worker) :
    w.Changes cfg m.accepts (w.step cfg active m).worker (w.created cfg m) := by
  unfold Worker.step
  split
  case h_1 p clock hstage hevent =>
    rw [Outputs.created_of_ne (by simp [hstage])]
    exact w.receive_changes cfg m p clock
  case h_2 now hstage hevent =>
    rw [Outputs.created_of_ne (by simp [hstage])]
    exact .stay rfl rfl
  case h_3 hstage hevent =>
    rw [Outputs.created_of_ne (by simp [hstage])]
    exact .stay rfl rfl
  case h_4 p clock _ hstage hevent =>
    rw [Outputs.created_of_ne (by simp [hstage])]
    unfold Worker.look
    split
    · rename_i flow hflow
      exact .old hstage hflow
    · split_ifs
      · exact .stay rfl rfl
      · exact .stay rfl rfl
  case h_5 p clock flowId hstage hevent =>
    unfold Worker.openFlow
    dsimp only
    by_cases hfull : cfg.maxFlowsPerSourcePrefix ≤ w.shard.countOf (.fromPacket p)
    · have hnone : w.created cfg m = none := by
        simp [Worker.created, hstage, hevent, hfull]
      rw [Shard.countOf] at hfull
      rw [if_pos hfull, hnone]
      exact .stay rfl rfl
    · have hsome : w.created cfg m = some flowId := by
        simp [Worker.created, hstage, hevent, not_le.mp hfull]
      rw [Shard.countOf] at hfull
      rw [if_neg hfull, hsome]
      exact .new flowId hstage rfl rfl
  case h_6 now _ hstage hevent =>
    rw [Outputs.created_of_ne (by simp [hstage])]
    unfold Worker.expire
    cases hdue : w.shard.timers.peek.filter fun item ↦ decide (item.deadline ≤ now) with
    | some item => exact .fire hstage (Option.filter_eq_some_iff.mp hdue).1
    | none => exact .compact hstage
  case h_7 key hstage hevent =>
    rw [Outputs.created_of_ne (by simp [hstage])]
    exact .close key rfl rfl
  case h_8 hne _ _ =>
    rw [Outputs.created_of_ne fun p clock hstage id hevent ↦ hne p clock id hstage hevent]
    exact .stay rfl rfl

/-- A round that comes to the timers ends with a compaction. -/
theorem Worker.step_ends {cfg : FlowConfig} {active now : ℕ} {m : Move} {w : Worker}
    (hreached : w.stage = .expiring now) (hended : (w.step cfg active m).worker.stage = .waiting) :
    (w.step cfg active m).worker.shard = w.shard.compact cfg := by
  unfold Worker.step at hended ⊢
  split at hended
  case h_6 now' _ hstage hevent =>
    unfold Worker.expire at hended ⊢
    split at hended
    · cases hended
    · rfl
  case h_8 => exact absurd (hreached.symm.trans hended) (by simp)
  all_goals
    rename_i hstage _
    exact absurd (hreached.symm.trans hstage) (by simp)

/-! ## Runs -/

/-- The rounds of a shard and the identifiers that its flows have got. -/
structure TimedRounds where
  rounds : Rounds := {}
  created : List Uuid := []

namespace TimedRounds

variable {cfg : FlowConfig} {t : TimedRounds} {e : ℕ × Move}

def step (cfg : FlowConfig) (t : TimedRounds) (e : ℕ × Move) : TimedRounds where
  rounds := t.rounds.step cfg e
  created := t.created ++ (t.rounds.worker.created cfg e.2).toList

def after (cfg : FlowConfig) (moves : List (ℕ × Move)) : TimedRounds := runFrom (step cfg) {} moves

/-- There is one clock reading for each round, the clock never goes back, and a flow that is
created gets a new identifier. -/
def Steady (cfg : FlowConfig) (t : TimedRounds) (e : ℕ × Move) : Prop :=
  t.rounds.steady e = true ∧ ∀ id ∈ t.rounds.worker.created cfg e.2, id ∉ t.created

instance (cfg : FlowConfig) (t : TimedRounds) (e : ℕ × Move) : Decidable (Steady cfg t e) :=
  decidable_of_iff (t.rounds.steady e = true ∧
      ((t.rounds.worker.created cfg e.2).all fun id ↦ decide (id ∉ t.created)) = true) <| by
    simp [Steady, Option.all_eq_true]

structure Sound (cfg : FlowConfig) (t : TimedRounds) : Prop where
  timed : t.rounds.worker.shard.Timed cfg t.rounds.now t.created
  clock : t.rounds.worker.stage.Runs t.rounds.now

theorem le_reading (h : t.rounds.steady e = true) : t.rounds.now ≤ t.rounds.reading e.2 := by
  unfold Rounds.steady at h
  unfold Rounds.reading
  split at h
  · exact of_decide_eq_true (Bool.and_eq_true_iff.mp h).1
  · exact of_decide_eq_true h
  · exact le_rfl

theorem receive_stage (w : Worker) (m : Move) (p : ParsedPacket) (clock : Clock) :
    (w.receive m p clock).worker.stage = .waiting ∨
      (w.receive m p clock).worker.stage = .looking p clock := by
  unfold Worker.receive
  dsimp only
  split
  · exact .inr rfl
  · split_ifs
    · exact .inr rfl
    · exact .inr rfl
    · exact .inl rfl
    · exact .inr rfl
    · exact .inr rfl

/-- The clock of a round stays that of its first step. -/
theorem runs_step (h : t.rounds.worker.stage.Runs t.rounds.now) (hsteady : t.rounds.steady e = true) :
    (t.rounds.step cfg e).worker.stage.Runs (t.rounds.step cfg e).now := by
  unfold Rounds.steady at hsteady
  unfold Rounds.step Worker.step
  split
  case h_1 p clock hstage hevent =>
    rw [hstage, hevent] at hsteady
    have hone := of_decide_eq_true (Bool.and_eq_true_iff.mp hsteady).2
    have hreading : t.rounds.reading e.2 = clock.expiry := by rw [Rounds.reading, hstage, hevent]
    rw [hreading]
    rcases receive_stage t.rounds.worker e.2 p clock with heq | heq
    · rw [heq]
      trivial
    · rw [heq]
      exact hone
  case h_2 now hstage hevent =>
    have hreading : t.rounds.reading e.2 = now := by rw [Rounds.reading, hstage, hevent]
    rw [hreading]
    rfl
  case h_3 hstage hevent =>
    dsimp only
    split_ifs <;> trivial
  case h_4 p clock _ hstage hevent =>
    rw [Rounds.reading_of_running (e := e) (by simp [hstage]) (by simp [hstage])]
    rw [hstage] at h
    unfold Worker.look
    split
    · obtain rfl : clock = .at t.rounds.now := h
      rfl
    · split_ifs
      · exact h
      · trivial
  case h_5 p clock flowId hstage hevent =>
    rw [Rounds.reading_of_running (e := e) (by simp [hstage]) (by simp [hstage])]
    rw [hstage] at h
    unfold Worker.openFlow
    dsimp only
    split_ifs
    · trivial
    · obtain rfl : clock = .at t.rounds.now := h
      rfl
  case h_6 now _ hstage hevent =>
    rw [Rounds.reading_of_running (e := e) (by simp [hstage]) (by simp [hstage])]
    rw [hstage] at h
    unfold Worker.expire
    split
    · exact h
    · trivial
  case h_7 key hstage hevent =>
    unfold Worker.drain
    dsimp only
    split_ifs <;> trivial
  case h_8 hpacket htimeout _ _ _ _ _ =>
    rw [Rounds.reading_of_running hpacket htimeout]
    exact h

/-- The step lemma. -/
theorem Sound.step (h : t.Sound cfg) (hsteady : Steady cfg t e) : (t.step cfg e).Sound cfg := by
  refine ⟨?_, runs_step h.clock hsteady.1⟩
  have hmono := h.timed.mono (le_reading hsteady.1)
  have hfresh := hsteady.2
  have hclock := h.clock
  have hrunning : ∀ {stage : Stage}, t.rounds.worker.stage = stage → stage ≠ .waiting →
      t.rounds.reading e.2 = t.rounds.now := by
    intro stage hstage hne
    exact Rounds.reading_of_running (fun _ _ hw ↦ absurd (hstage.symm.trans hw) hne)
      (fun _ hw ↦ absurd (hstage.symm.trans hw) hne)
  have hchanges := t.rounds.worker.step_changes cfg e.1 e.2
  change Shard.Timed cfg (t.rounds.worker.step cfg e.1 e.2).worker.shard (t.rounds.reading e.2)
    (t.created ++ (t.rounds.worker.created cfg e.2).toList)
  generalize (t.rounds.worker.step cfg e.1 e.2).worker = w' at hchanges ⊢
  generalize t.rounds.worker.created cfg e.2 = new at hchanges hfresh ⊢
  have hold : t.created ++ (none : Option Uuid).toList = t.created := by simp
  cases hchanges with
  | stay hflows htimers =>
      rw [hold]
      exact hmono.shrink (fun k f hk ↦ hflows ▸ hk) htimers
  | close key hflows htimers =>
      rw [hold]
      exact (hmono.shrink (fun k f hk ↦ hflows ▸ hk) htimers).closeFlow e.2.accepts key
  | @old p clock flow hstage hflow =>
      rw [hstage] at hclock
      obtain rfl : clock = .at t.rounds.now := hclock
      rw [hold, hrunning hstage (by simp)]
      exact h.timed.handlePacket_old hflow e.2.accepts
  | @new p clock s id hstage hflows htimers =>
      rw [hstage] at hclock
      obtain rfl : clock = .at t.rounds.now := hclock
      rw [hrunning hstage (by simp)]
      exact (h.timed.shrink (fun k f hk ↦ hflows ▸ hk) htimers).handlePacket_new
        (hfresh id rfl) e.2.accepts
  | @fire now item hstage hpeek =>
      rw [hstage] at hclock
      obtain rfl : now = t.rounds.now := hclock
      rw [hold, hrunning hstage (by simp)]
      exact h.timed.fire hpeek e.2.accepts
  | @compact now hstage =>
      rw [hold]
      exact hmono.compact

theorem sound_start : Sound cfg {} :=
  ⟨⟨by simp [Shard.Scheduled], by simp, fun item hitem ↦ by cases hitem⟩, trivial⟩

theorem sound_after {moves : List (ℕ × Move)} (h : Along (step cfg) (Steady cfg) {} moves) :
    (after cfg moves).Sound cfg :=
  invariant_runFrom (fun _ _ hs hsteady ↦ hs.step hsteady) sound_start h

end TimedRounds

/-- Every flow has exactly one timer that carries its identifier, this timer fires no later than
the flow can be idle for its timeout, and the heap is small. -/
structure Shard.TimersOk (cfg : FlowConfig) (s : Shard) : Prop where
  single : ∀ key flow, s.flows.lookup key = some flow → s.timers.carrying flow.id = 1 ∧
    ∃ item ∈ s.timers.items, item.flowId = flow.id ∧
      item.deadline ≤ flow.lastActivity + cfg.idleTimeout flow.key.protocol
  bounded : s.timers.len ≤ max 4096 (2 * s.flows.size + 1024)

/-- The timers are in order at the end of every round that comes to them. -/
def TimersKept (cfg : FlowConfig) (moves : List (ℕ × Move)) : Prop :=
  ∀ before e later now, moves = before ++ e :: later →
    (TimedRounds.after cfg before).rounds.worker.stage = .expiring now →
    (TimedRounds.after cfg (before ++ [e])).rounds.worker.stage = .waiting →
    (TimedRounds.after cfg (before ++ [e])).rounds.worker.shard.TimersOk cfg

theorem timersKept (cfg : FlowConfig) (moves : List (ℕ × Move))
    (hsteady : Along (TimedRounds.step cfg) (TimedRounds.Steady cfg) {} moves) :
    TimersKept cfg moves := by
  rintro before e later now rfl hreached hended
  have hsplit : before ++ e :: later = before ++ [e] ++ later := by simp
  have hsound := TimedRounds.sound_after (along_append.mp (hsplit ▸ hsteady)).1
  refine ⟨fun key flow hflow ↦ ⟨hsound.timed.single key flow hflow, ?_⟩, ?_⟩
  · obtain ⟨-, -, item, hitem, -, hid, hdeadline⟩ := hsound.timed.scheduled key flow hflow
    exact ⟨item, hitem, hid, hdeadline⟩
  · have hnext : TimedRounds.after cfg (before ++ [e]) =
        (TimedRounds.after cfg before).step cfg e := runFrom_append _ _ _ _
    rw [hnext] at hended ⊢
    have hcompact := Worker.step_ends hreached hended
    change (Worker.step cfg e.1 e.2 _).worker.shard.HeapBounded
    rw [hcompact]
    exact Shard.heapBounded_compact _ cfg

/-- A flow is created at 0, sends again at 60 and is alone in the heap at 110, when its first
timer fires. -/
def rescheduledRun : List (ℕ × Move) :=
  shardMoves [.packet (datagramTo 53) (.at 0), .proceed 1, .proceed 1, .proceed 1,
    .packet (datagramTo 53) (.at 60), .proceed 2, .proceed 2, .timeout 110, .proceed 3, .proceed 3]

theorem timersKept_rescheduledRun :
    (TimedRounds.after expiryConfig rescheduledRun).rounds.worker.shard.timers.items.map
        (fun item ↦ (item.flowId, item.deadline)) = [(1, 160)] ∧
      TimersKept expiryConfig rescheduledRun :=
  ⟨by decide +kernel, timersKept expiryConfig rescheduledRun (by decide +kernel)⟩

end Bazalt.Flow
