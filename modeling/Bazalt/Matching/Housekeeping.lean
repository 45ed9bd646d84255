import Bazalt.Lib.Keyed
import Bazalt.Matching.Worker

/-!
# What a matcher worker remembers

A worker keeps the tails of the streams of its flows, and beside them which tails a flow has
and when it was last seen.  A flow that is closed loses its tails, and so does a flow that has
not been seen for two minutes when the worker looks for such flows, which it does once in 4096
records.

The notice of a close can be lost, and then the age is all that limits what is kept.  For a
flow that is never that old none of it can be noticed: its records are scanned as if the worker
had no other flows and never dropped anything.
-/

namespace Bazalt.Matching

open Bazalt.Lib

/-- What a worker is sent, with the readings of the clock. -/
inductive MatcherEvent where
  | content (work : Work) (seen now : ℕ)
  | flowClosed (id : Uuid)

def MatcherEvent.flowId : MatcherEvent → Uuid
  | content work _ _ => work.record.flowId
  | flowClosed id => id

namespace MatcherWorker

/-- The worker, and its scans with the flow of the record. -/
structure History where
  worker : MatcherWorker
  scans : List (Uuid × Scan) := []

variable (E : Engines)

def History.step (h : History) : MatcherEvent → History
  | .content work seen now =>
      let r := h.worker.content E work seen now
      ⟨r.1, h.scans ++ [(work.record.flowId, r.2)]⟩
  | .flowClosed id => { h with worker := h.worker.flowClosed id }

def History.after (overlapLimit : ℕ) (bounds : Bounds) (events : List MatcherEvent) : History :=
  runFrom (History.step E) ⟨{ overlapLimit, bounds }, []⟩ events

/-- A flow with a matcher of its own, which drops nothing before the close. -/
def flowNext (overlapLimit : ℕ) (bounds : Bounds) (tails : Tails) : MatcherEvent → Tails × List Scan
  | .content work _ _ =>
      let r := scanWithTail E work.snapshot overlapLimit bounds false work.generation tails
        work.record
      (r.1, [r.2])
  | .flowClosed _ => (fun _ ↦ none, [])

def eventsOf (id : Uuid) (events : List MatcherEvent) : List MatcherEvent :=
  events.filter fun e ↦ decide (e.flowId = id)

/-- The flow is not dropped for its age. -/
def Awake (id : Uuid) (h : History) : MatcherEvent → Prop
  | .content work seen now =>
      (h.worker.note work.record.flowId seen).processedRecords % 4096 = 0 →
        id ∉ (h.worker.note work.record.flowId seen).stale now
  | .flowClosed _ => True

instance (id : Uuid) (h : History) : DecidablePred (Awake id h)
  | .content _ _ _ => inferInstanceAs (Decidable (_ → _ ∉ _))
  | .flowClosed _ => .isTrue trivial

/-- The two readings of the clock for a record are not two minutes apart. -/
def Prompt : MatcherEvent → Prop
  | .content _ seen now => now - seen < 120000000000
  | .flowClosed _ => True

instance : DecidablePred Prompt
  | .content _ _ _ => inferInstanceAs (Decidable (_ < _))
  | .flowClosed _ => .isTrue trivial

end MatcherWorker

/-! ## The tails of one flow -/

def Tails.only (id : Uuid) (tails : Tails) : Tails := fun key ↦
  if key.flowId = id then tails key else none

section

variable {E : Engines} {set : CompiledPatternSet} {overlapLimit : ℕ} {b : Bounds}
  {historical : Bool} {generation : ℕ} {tails : Tails} {record : ContentRecord} {id : Uuid}

/-- A record is scanned with the tails of its flow. -/
theorem scanWithTail_only (hid : record.flowId = id) :
    (scanWithTail E set overlapLimit b historical generation tails record).1.only id =
        (scanWithTail E set overlapLimit b historical generation (tails.only id) record).1 ∧
      (scanWithTail E set overlapLimit b historical generation tails record).2 =
        (scanWithTail E set overlapLimit b historical generation (tails.only id) record).2 := by
  have hprefix : tails.prefixFor record generation =
      (tails.only id).prefixFor record generation :=
    prefixFor_congr (if_pos (show (streamKey record).flowId = id from hid)).symm
  obtain ⟨htail, hscan⟩ := scanWithTail_congr (E := E) (b := b) hprefix
  refine ⟨funext fun key ↦ ?_, hscan⟩
  unfold Tails.only
  by_cases hkey : key = streamKey record
  · subst hkey
    rw [if_pos (show (streamKey record).flowId = id from hid)]
    exact htail
  · rw [scanWithTail_of_ne hkey, scanWithTail_of_ne hkey]

theorem scanWithTail_only_of_ne (hid : record.flowId ≠ id) :
    (scanWithTail E set overlapLimit b historical generation tails record).1.only id =
      tails.only id := by
  funext key
  unfold Tails.only
  split_ifs with hkey
  · refine scanWithTail_of_ne ?_
    rintro rfl
    exact hid hkey
  · rfl

end

namespace MatcherWorker

variable {E : Engines} {m : MatcherWorker} {id : Uuid} {work : Work} {seen now : ℕ}

/-! ## The books -/

/-- The tails that a flow is said to have. -/
def keysOf (m : MatcherWorker) (id : Uuid) : List StreamKey := (m.flowTailKeys.lookup id).getD []

/-- Every tail is on the list of its flow, and a list has only keys of its flow. -/
structure Tracked (m : MatcherWorker) : Prop where
  tracked : ∀ key, m.tails key ≠ none → key ∈ m.keysOf key.flowId
  own : ∀ id, ∀ key ∈ m.keysOf id, key.flowId = id
  nodup : ∀ id, (m.keysOf id).Nodup

theorem keysOf_erase (m : MatcherWorker) (closed : Uuid) : (m.flowClosed closed).keysOf id =
    if id = closed then [] else m.keysOf id := by
  unfold keysOf flowClosed
  dsimp only
  split_ifs with hid
  · rw [hid, AList.lookup_erase]
    rfl
  · rw [AList.lookup_erase_ne hid]

theorem Tracked.flowClosed (h : m.Tracked) (closed : Uuid) : (m.flowClosed closed).Tracked := by
  constructor
  · intro key hkey
    have hkey' : m.tails key ≠ none ∧ key ∉ m.keysOf closed := by
      dsimp only [MatcherWorker.flowClosed] at hkey
      split_ifs at hkey with hmem
      · exact absurd rfl hkey
      · exact ⟨hkey, hmem⟩
    rw [keysOf_erase, if_neg]
    · exact h.tracked key hkey'.1
    · rintro rfl
      exact hkey'.2 (h.tracked key hkey'.1)
  · intro id key hkey
    rw [keysOf_erase] at hkey
    split_ifs at hkey
    · exact absurd hkey List.not_mem_nil
    · exact h.own id key hkey
  · intro id
    rw [keysOf_erase]
    split_ifs
    · exact List.nodup_nil
    · exact h.nodup id

/-- A closed flow has no tails, and the others keep theirs. -/
theorem Tracked.only_flowClosed (h : m.Tracked) (closed : Uuid) :
    (m.flowClosed closed).tails.only id =
      if id = closed then fun _ ↦ none else m.tails.only id := by
  funext key
  dsimp only [Tails.only, MatcherWorker.flowClosed]
  split_ifs with hkey hmem hclosed hclosed
  · rfl
  · exact absurd ((h.own closed key hmem).symm.trans hkey).symm hclosed
  · by_contra hsome
    refine hmem ?_
    have htracked := h.tracked key hsome
    rwa [hkey, hclosed] at htracked
  · exact (if_pos hkey).symm
  · rfl
  · exact (if_neg hkey).symm

/-- What every close keeps, the look for old flows keeps. -/
theorem expire_rule {P : MatcherWorker → Prop} (h : P m) (hclosed : ∀ m id, P m → P (m.flowClosed id))
    (now : ℕ) : P (m.expire now) := by
  unfold MatcherWorker.expire
  split_ifs
  · exact List.foldlRecOn (m.stale now) MatcherWorker.flowClosed h fun m hm id _ ↦ hclosed m id hm
  · exact h

theorem Tracked.expire (h : m.Tracked) (now : ℕ) : (m.expire now).Tracked :=
  expire_rule h (fun _ closed h ↦ h.flowClosed closed) now

theorem Tracked.only_expire (h : m.Tracked)
    (hawake : m.processedRecords % 4096 = 0 → id ∉ m.stale now) :
    (m.expire now).tails.only id = m.tails.only id := by
  unfold MatcherWorker.expire
  split_ifs with hdue
  · have hid := hawake hdue
    generalize m.stale now = ids at hid ⊢
    clear hawake hdue
    induction ids generalizing m with
    | nil => rfl
    | cons closed ids ih =>
        obtain ⟨hne, hrest⟩ := not_or.mp (List.mem_cons.not.mp hid)
        rw [List.foldl_cons, ih (h.flowClosed closed) hrest, h.only_flowClosed, if_neg hne]
  · rfl

theorem Tracked.note (h : m.Tracked) (flowId : Uuid) (seen : ℕ) : (m.note flowId seen).Tracked :=
  ⟨h.tracked, h.own, h.nodup⟩

@[simp] theorem tails_track (m : MatcherWorker) (key : StreamKey) :
    (m.track key).tails = m.tails := by
  unfold track
  dsimp only
  split_ifs <;> rfl

theorem keysOf_track (m : MatcherWorker) (key : StreamKey) : (m.track key).keysOf id =
    if id = key.flowId ∧ key ∉ m.keysOf id then m.keysOf id ++ [key] else m.keysOf id := by
  unfold track
  dsimp only
  split_ifs with hmem hnew hnew
  · obtain ⟨rfl, habsent⟩ := hnew
    exact absurd hmem habsent
  · rfl
  · obtain ⟨rfl, -⟩ := hnew
    simp [keysOf]
  · have hid : id ≠ key.flowId := by
      rintro rfl
      exact hnew ⟨rfl, hmem⟩
    unfold keysOf
    rw [AList.lookup_insert_ne hid]

theorem mem_keysOf_track (m : MatcherWorker) (key : StreamKey) :
    key ∈ (m.track key).keysOf key.flowId := by
  rw [keysOf_track]
  by_cases hmem : key ∈ m.keysOf key.flowId
  · rwa [if_neg fun h ↦ h.2 hmem]
  · rw [if_pos ⟨rfl, hmem⟩]
    exact List.mem_append_right _ List.mem_cons_self

theorem keysOf_subset_track (m : MatcherWorker) (key : StreamKey) :
    m.keysOf id ⊆ (m.track key).keysOf id := by
  rw [keysOf_track]
  split_ifs
  · exact List.subset_append_left _ _
  · exact List.Subset.refl _

/-- The new tails of a record, with the books as they are or with the record's stream on the list
of its flow. -/
theorem Tracked.update (h : m.Tracked) (tails : Tails) (key : StreamKey)
    (hothers : ∀ k, k ≠ key → tails k = m.tails k)
    (hkey : tails key ≠ none → key ∈ m.keysOf key.flowId) : Tracked { m with tails } := by
  refine ⟨fun k hk ↦ ?_, h.own, h.nodup⟩
  by_cases hcase : k = key
  · subst hcase
    exact hkey hk
  · exact h.tracked k ((hothers k hcase).symm.trans_ne hk)

theorem Tracked.track (h : m.Tracked) (key : StreamKey) : (m.track key).Tracked := by
  refine ⟨fun k hk ↦ ?_, fun id k hk ↦ ?_, fun id ↦ ?_⟩
  · rw [tails_track] at hk
    exact keysOf_subset_track m key (h.tracked k hk)
  · rw [keysOf_track] at hk
    split_ifs at hk with hnew
    · rcases List.mem_append.mp hk with hk | hk
      · exact h.own id k hk
      · rw [List.mem_singleton.mp hk, hnew.1]
    · exact h.own id k hk
  · rw [keysOf_track]
    split_ifs with hnew
    · exact List.nodup_append'.mpr ⟨h.nodup id, List.nodup_singleton key,
        List.disjoint_singleton.mpr hnew.2⟩
    · exact h.nodup id

/-- A record leaves a tail only where it keeps one. -/
theorem keeps_of_tail {tails : Tails} {overlapLimit : ℕ} {b : Bounds}
    (h : (scanWithTail E work.snapshot overlapLimit b false work.generation tails work.record).1
      (streamKey work.record) ≠ none) :
    (work.snapshot.isInterested work.record &&
      decide (work.snapshot.requiredOverlap work.record overlapLimit ≠ 0)) = true := by
  unfold scanWithTail at h
  split_ifs at h with hinterested
  · dsimp only at h
    rw [Function.update_self] at h
    split_ifs at h with hkeep
    · exact absurd rfl h
    · simpa [hinterested] using hkeep
  · exact absurd (Function.update_self _ _ _) h

/-- The step lemma for a record. -/
theorem Tracked.content (h : m.Tracked) (E : Engines) (work : Work) (seen now : ℕ) :
    (m.content E work seen now).1.Tracked := by
  have hexpired := (h.note work.record.flowId seen).expire now
  unfold MatcherWorker.content
  generalize (m.note work.record.flowId seen).expire now = m' at hexpired
  dsimp only
  have hothers : ∀ k, k ≠ streamKey work.record →
      (scanWithTail E work.snapshot m'.overlapLimit m'.bounds false work.generation m'.tails
        work.record).1 k = m'.tails k := fun k hk ↦ scanWithTail_of_ne hk
  split_ifs with hnew
  · have htracked := (hexpired.track (streamKey work.record)).update
      (scanWithTail E work.snapshot m'.overlapLimit m'.bounds false work.generation m'.tails
        work.record).1 (streamKey work.record)
      (fun k hk ↦ by rw [tails_track]; exact hothers k hk)
      (fun _ ↦ mem_keysOf_track m' _)
    unfold MatcherWorker.track at htracked ⊢
    dsimp only at htracked ⊢
    split_ifs at htracked ⊢ <;> exact htracked
  · refine hexpired.update _ _ hothers fun hsome ↦ hexpired.tracked _ fun hnone ↦ hnew ?_
    rw [keeps_of_tail hsome, hnone]
    rfl

/-! ## A flow by itself -/

theorem limits_expire (m : MatcherWorker) (now : ℕ) :
    (m.expire now).overlapLimit = m.overlapLimit ∧ (m.expire now).bounds = m.bounds :=
  expire_rule (P := fun m' ↦ m'.overlapLimit = m.overlapLimit ∧ m'.bounds = m.bounds)
    ⟨rfl, rfl⟩ (fun _ _ h ↦ h) now

theorem limits_content (E : Engines) (m : MatcherWorker) (work : Work) (seen now : ℕ) :
    (m.content E work seen now).1.overlapLimit = m.overlapLimit ∧
      (m.content E work seen now).1.bounds = m.bounds := by
  have hlimits := limits_expire (m.note work.record.flowId seen) now
  unfold MatcherWorker.content MatcherWorker.track
  dsimp only
  split_ifs <;> exact hlimits

/-- What a record does, up to the books. -/
theorem tails_content (E : Engines) (m : MatcherWorker) (work : Work) (seen now : ℕ) :
    let m' := (m.note work.record.flowId seen).expire now
    let r := scanWithTail E work.snapshot m.overlapLimit m.bounds false work.generation m'.tails
      work.record
    (m.content E work seen now).1.tails = r.1 ∧ (m.content E work seen now).2 = r.2 := by
  obtain ⟨hlimit, hbounds⟩ := limits_expire (m.note work.record.flowId seen) now
  have hlimit' : ((m.note work.record.flowId seen).expire now).overlapLimit = m.overlapLimit :=
    hlimit
  have hbounds' : ((m.note work.record.flowId seen).expire now).bounds = m.bounds := hbounds
  unfold MatcherWorker.content
  dsimp only
  rw [hlimit', hbounds']
  split_ifs
  · unfold MatcherWorker.track
    dsimp only
    split_ifs <;> exact ⟨rfl, rfl⟩
  · exact ⟨rfl, rfl⟩

theorem mem_stale : id ∈ m.stale now ↔
    ∃ seen, m.flowLastSeen.lookup id = some seen ∧ 120000000000 ≤ now - seen := by
  simp only [stale, List.mem_map, List.mem_filter, decide_eq_true_eq]
  constructor
  · rintro ⟨e, ⟨he, hold⟩, rfl⟩
    exact ⟨e.2, AList.mem_lookup_iff.mpr he, hold⟩
  · rintro ⟨seen, hseen, hold⟩
    exact ⟨⟨id, seen⟩, ⟨AList.mem_lookup_iff.mp hseen, hold⟩, rfl⟩

/-- The flow of a record has just been seen. -/
theorem notMem_stale_note (m : MatcherWorker) (flowId : Uuid)
    (hprompt : now - seen < 120000000000) : flowId ∉ (m.note flowId seen).stale now := by
  intro hstale
  obtain ⟨seen', hseen', hold⟩ := mem_stale.mp hstale
  rw [show (m.note flowId seen).flowLastSeen.lookup flowId = some seen from
    AList.lookup_insert _] at hseen'
  obtain rfl := Option.some.inj hseen'
  exact absurd hprompt (not_lt.mpr hold)

/-- The flows that are dropped are gone from the books, and the others stay. -/
theorem books_foldl (ids : List Uuid) (m : MatcherWorker) :
    (ids.foldl flowClosed m).keysOf id = (if id ∈ ids then [] else m.keysOf id) ∧
      (ids.foldl flowClosed m).flowLastSeen.lookup id =
        if id ∈ ids then none else m.flowLastSeen.lookup id := by
  induction ids generalizing m with
  | nil => exact ⟨rfl, rfl⟩
  | cons closed ids ih =>
      obtain ⟨hkeys, hseen⟩ := ih (m.flowClosed closed)
      rw [List.foldl_cons, hkeys, hseen, keysOf_erase]
      dsimp only [MatcherWorker.flowClosed]
      by_cases hid : id = closed
      · subst hid
        simp [AList.lookup_erase]
      · simp [hid, AList.lookup_erase_ne hid]

/-- The flow of the record itself is not dropped. -/
theorem lookup_expire_note (m : MatcherWorker) (flowId : Uuid) (hprompt : now - seen < 120000000000) :
    ((m.note flowId seen).expire now).flowLastSeen.lookup flowId = some seen := by
  have hnote : (m.note flowId seen).flowLastSeen.lookup flowId = some seen :=
    AList.lookup_insert _
  unfold MatcherWorker.expire
  split_ifs
  · rw [(books_foldl _ _).2, if_neg (notMem_stale_note m flowId hprompt), hnote]
  · exact hnote

/-- Beside the dropped flows only the stream of the record can come to the books. -/
theorem books_content (E : Engines) (m : MatcherWorker) (work : Work) (seen now : ℕ) :
    let m' := (m.note work.record.flowId seen).expire now
    (m.content E work seen now).1.flowLastSeen = m'.flowLastSeen ∧
      (m.content E work seen now).1.processedRecords = m'.processedRecords ∧
      ∀ id, (m.content E work seen now).1.keysOf id = m'.keysOf id ∨ id = work.record.flowId := by
  intro m'
  have htrack : ∀ id, (m'.track (streamKey work.record)).keysOf id = m'.keysOf id ∨
      id = work.record.flowId := by
    intro id
    rw [keysOf_track]
    split_ifs with hnew
    · exact .inr hnew.1
    · exact .inl rfl
  unfold MatcherWorker.content
  dsimp only
  split_ifs
  · unfold MatcherWorker.track at htrack ⊢
    dsimp only at htrack ⊢
    split_ifs at htrack ⊢ <;> exact ⟨rfl, rfl, htrack⟩
  · exact ⟨rfl, rfl, fun _ ↦ .inl rfl⟩

theorem processedRecords_expire (m : MatcherWorker) (now : ℕ) :
    (m.expire now).processedRecords = m.processedRecords :=
  expire_rule (P := fun m' ↦ m'.processedRecords = m.processedRecords) rfl (fun _ _ h ↦ h) now

theorem Tracked.step {h : History} (htracked : h.worker.Tracked) (e : MatcherEvent) :
    (h.step E e).worker.Tracked := by
  cases e with
  | content work seen now => exact htracked.content E work seen now
  | flowClosed closed => exact htracked.flowClosed closed

theorem limits_step (E : Engines) (h : History) (e : MatcherEvent) :
    (h.step E e).worker.overlapLimit = h.worker.overlapLimit ∧
      (h.step E e).worker.bounds = h.worker.bounds := by
  cases e with
  | content work seen now => exact limits_content E h.worker work seen now
  | flowClosed closed => exact ⟨rfl, rfl⟩

/-- The flow's own events do to its tails what they do without other flows. -/
theorem Tracked.only_step {h : History} (htracked : h.worker.Tracked) {e : MatcherEvent}
    (hawake : Awake id h e) (hid : e.flowId = id) :
    let r := flowNext E h.worker.overlapLimit h.worker.bounds (h.worker.tails.only id) e
    (h.step E e).worker.tails.only id = r.1 ∧
      Keyed.outputsOf id (h.step E e).scans = Keyed.outputsOf id h.scans ++ r.2 := by
  subst hid
  cases e with
  | content work seen now =>
      obtain ⟨htails, hscan⟩ := tails_content E h.worker work seen now
      have hexpired := (htracked.note work.record.flowId seen).only_expire hawake
      obtain ⟨hown, hsame⟩ := scanWithTail_only (E := E) (b := h.worker.bounds)
        (rfl : work.record.flowId = work.record.flowId)
      dsimp only [History.step, MatcherEvent.flowId, flowNext] at hexpired ⊢
      rw [Keyed.outputsOf_append, htails, hscan, hown, hsame, hexpired]
      exact ⟨rfl, congrArg _ (Keyed.outputsOf_map_self work.record.flowId [_])⟩
  | flowClosed closed =>
      refine ⟨?_, (List.append_nil _).symm⟩
      exact (htracked.only_flowClosed closed).trans (if_pos rfl)

/-- The events of others do nothing. -/
theorem Tracked.only_step_of_ne {h : History} (htracked : h.worker.Tracked) {e : MatcherEvent}
    (hawake : Awake id h e) (hid : e.flowId ≠ id) :
    (h.step E e).worker.tails.only id = h.worker.tails.only id ∧
      Keyed.outputsOf id (h.step E e).scans = Keyed.outputsOf id h.scans := by
  cases e with
  | content work seen now =>
      obtain ⟨htails, hscan⟩ := tails_content E h.worker work seen now
      have hexpired := (htracked.note work.record.flowId seen).only_expire hawake
      dsimp only [History.step]
      rw [Keyed.outputsOf_append, htails, scanWithTail_only_of_ne hid, hexpired]
      refine ⟨rfl, ?_⟩
      have hother := Keyed.outputsOf_map_of_ne (Ne.symm hid)
        [(h.worker.content E work seen now).2]
      exact (congrArg _ hother).trans (List.append_nil _)
  | flowClosed closed =>
      refine ⟨?_, rfl⟩
      exact (htracked.only_flowClosed closed).trans (if_neg (Ne.symm hid))

/-- The run lemma, from any state. -/
theorem Tracked.only_runFrom {events : List MatcherEvent} {h : History}
    (htracked : h.worker.Tracked) (hawake : Along (History.step E) (Awake id) h events) :
    (runFrom (History.step E) h events).worker.tails.only id =
        (runLocal (flowNext E h.worker.overlapLimit h.worker.bounds) (h.worker.tails.only id)
          (eventsOf id events)).1 ∧
      Keyed.outputsOf id (runFrom (History.step E) h events).scans =
        Keyed.outputsOf id h.scans ++
          (runLocal (flowNext E h.worker.overlapLimit h.worker.bounds) (h.worker.tails.only id)
            (eventsOf id events)).2 := by
  induction events generalizing h with
  | nil => exact ⟨rfl, (List.append_nil _).symm⟩
  | cons e events ih =>
      have hrest := ih (htracked.step e) hawake.2
      obtain ⟨hlimit, hbounds⟩ := limits_step E h e
      rw [hlimit, hbounds] at hrest
      rw [runFrom_cons]
      by_cases hid : e.flowId = id
      · obtain ⟨htails, hscans⟩ := htracked.only_step hawake.1 hid
        have hevents : eventsOf id (e :: events) = e :: eventsOf id events :=
          List.filter_cons_of_pos (by simpa using hid)
        rw [hrest.1, hrest.2, htails, hscans, hevents, runLocal_cons, List.append_assoc]
        exact ⟨rfl, rfl⟩
      · obtain ⟨htails, hscans⟩ := htracked.only_step_of_ne (E := E) hawake.1 hid
        have hevents : eventsOf id (e :: events) = eventsOf id events :=
          List.filter_cons_of_neg (by simpa using hid)
        rw [hrest.1, hrest.2, htails, hscans, hevents]
        exact ⟨rfl, rfl⟩

theorem tracked_start (overlapLimit : ℕ) (bounds : Bounds) :
    Tracked { overlapLimit, bounds } where
  tracked _ h := absurd rfl h
  own _ _ h := absurd h List.not_mem_nil
  nodup _ := List.nodup_nil

/-- However many flows there are, whichever of them are dropped for their age, and whichever
notices of a close are lost: the records of a flow that is never two minutes old when the worker
looks are scanned as if the flow had a matcher of its own. -/
theorem flow_alone (E : Engines) (overlapLimit : ℕ) (bounds : Bounds)
    (events : List MatcherEvent) (id : Uuid)
    (hawake : Along (History.step E) (Awake id) ⟨{ overlapLimit, bounds }, []⟩ events) :
    let r := runLocal (flowNext E overlapLimit bounds) (fun _ ↦ none) (eventsOf id events)
    (History.after E overlapLimit bounds events).worker.tails.only id = r.1 ∧
      Keyed.outputsOf id (History.after E overlapLimit bounds events).scans = r.2 := by
  have hrun := (tracked_start overlapLimit bounds).only_runFrom hawake
  have hnone : Tails.only id (fun _ ↦ none) = fun _ ↦ none := funext fun _ ↦ ite_self _
  dsimp only at hrun
  rwa [hnone] at hrun

theorem awake_of_prompt {h : History} {e : MatcherEvent} (hprompt : Prompt e) :
    Awake e.flowId h e := by
  cases e with
  | content work seen now => exact fun _ ↦ notMem_stale_note _ _ hprompt
  | flowClosed closed => trivial

/-- Every record is counted. -/
theorem processedRecords_runFrom {events : List MatcherEvent}
    (hcontent : ∀ e ∈ events, ∃ work seen now, e = .content work seen now) {h : History}
    (hfew : h.worker.processedRecords + events.length < 2 ^ 64) :
    (runFrom (History.step E) h events).worker.processedRecords =
      h.worker.processedRecords + events.length := by
  induction events generalizing h with
  | nil => rfl
  | cons e events ih =>
      obtain ⟨work, seen, now, rfl⟩ := hcontent e List.mem_cons_self
      rw [List.length_cons] at hfew
      have hone : (h.step E (.content work seen now)).worker.processedRecords =
          h.worker.processedRecords + 1 := by
        refine ((books_content E h.worker work seen now).2.1.trans
          (processedRecords_expire _ now)).trans ?_
        exact Nat.mod_eq_of_lt (by omega)
      rw [runFrom_cons, ih (fun e he ↦ hcontent e (List.mem_cons_of_mem _ he)) (by omega), hone,
        List.length_cons]
      omega

/-- The record of a flow that is not seen again. -/
def seenOnce : MatcherEvent := .content ⟨{ rawRecord 1 0 [97] with flowId := 8 }, flagSet, 1⟩ 0 1

/-- The records of another flow, with the start of a pattern in the last of them. -/
def seenLater : List MatcherEvent :=
  (List.range 4093).map (fun i ↦ .content ⟨rawRecord (i + 2) i [97], flagSet, 1⟩
      100000000000 100000000001) ++
    [.content ⟨rawRecord 4095 4093 [102, 108], flagSet, 1⟩ 120000000000 120000000001]

theorem mem_seenLater {e : MatcherEvent} (h : e ∈ seenLater) :
    ∃ work seen, e = .content work seen (seen + 1) ∧ work.record.flowId = 7 := by
  simp only [seenLater, List.mem_append, List.mem_map, List.mem_singleton] at h
  rcases h with ⟨i, -, rfl⟩ | rfl <;> exact ⟨_, _, rfl, rfl⟩

theorem length_seenLater : seenLater.length = 4094 := by
  simp [seenLater]

-- So many records are not to be evaluated.
attribute [irreducible] seenLater

/-- The pattern ends in the record at which the worker looks for old flows. -/
def atTheLook : MatcherEvent :=
  .content ⟨rawRecord 4096 4095 [97, 103], flagSet, 1⟩ 120000000002 120000000003

def twoFlows : List MatcherEvent := seenOnce :: (seenLater ++ [atTheLook])

theorem mem_later {e : MatcherEvent} (h : e ∈ seenLater ++ [atTheLook]) :
    ∃ work seen, e = .content work seen (seen + 1) ∧ work.record.flowId = 7 := by
  rcases List.mem_append.mp h with h | h
  · exact mem_seenLater h
  · exact ⟨_, _, List.mem_singleton.mp h, rfl⟩

theorem along_later {h : History} : Along (History.step E)
    (fun _ e ↦ e.flowId = 7 ∧ Prompt e) h (seenLater ++ [atTheLook]) := by
  refine along_iff.mpr fun before e later hsplit ↦ ?_
  have hmem : e ∈ seenLater ++ [atTheLook] := by
    rw [hsplit]
    exact List.mem_append_right _ List.mem_cons_self
  obtain ⟨work, seen, rfl, hid⟩ := mem_later hmem
  refine ⟨hid, ?_⟩
  change seen + 1 - seen < 120000000000
  omega

theorem mem_twoFlows {e : MatcherEvent} (h : e ∈ twoFlows) :
    ∃ work seen, e = .content work seen (seen + 1) := by
  rcases List.mem_cons.mp h with rfl | h
  · exact ⟨_, _, rfl⟩
  · obtain ⟨work, seen, rfl, -⟩ := mem_later h
    exact ⟨work, seen, rfl⟩

theorem prompt_twoFlows : ∀ e ∈ twoFlows, Prompt e := by
  intro e he
  obtain ⟨work, seen, rfl⟩ := mem_twoFlows he
  change seen + 1 - seen < 120000000000
  omega

theorem processedRecords_twoFlows (E : Engines) :
    (History.after E 64 {} twoFlows).worker.processedRecords = 4096 := by
  have hlen : twoFlows.length = 4096 := by
    rw [twoFlows, List.length_cons, List.length_append, length_seenLater, List.length_singleton]
  have hcontent : ∀ e ∈ twoFlows, ∃ work seen now, e = .content work seen now := by
    intro e he
    obtain ⟨work, seen, rfl⟩ := mem_twoFlows he
    exact ⟨work, seen, seen + 1, rfl⟩
  have hcount := processedRecords_runFrom (E := E) hcontent
    (h := ⟨{ overlapLimit := 64, bounds := {} }, []⟩) (by rw [hlen]; decide)
  rw [hlen] at hcount
  exact hcount

theorem flow_alone_twoFlows :
    (History.after referenceEngines 64 {} twoFlows).worker.processedRecords % 4096 = 0 ∧
      Along (History.step referenceEngines) (Awake 7) ⟨{ overlapLimit := 64, bounds := {} }, []⟩
        twoFlows ∧
      Keyed.outputsOf 7 (History.after referenceEngines 64 {} twoFlows).scans =
        (runLocal (flowNext referenceEngines 64 {}) (fun _ ↦ none) (eventsOf 7 twoFlows)).2 := by
  have hawake : Along (History.step referenceEngines) (Awake 7)
      ⟨{ overlapLimit := 64, bounds := {} }, []⟩ twoFlows := by
    refine ⟨fun hdue ↦ ?_, along_later.imp fun h e hlater ↦ hlater.1 ▸ awake_of_prompt hlater.2⟩
    change (0 + 1) % 2 ^ 64 % 4096 = 0 at hdue
    omega
  refine ⟨by rw [processedRecords_twoFlows], hawake, ?_⟩
  exact (flow_alone referenceEngines 64 {} twoFlows 7 hawake).2

/-! ## What is kept -/

/-- The flows with tails have been seen, and `now` is not two minutes later. -/
def Recent (m : MatcherWorker) (now : ℕ) : Prop :=
  ∀ id, m.keysOf id ≠ [] → ∃ seen, m.flowLastSeen.lookup id = some seen ∧
    now - seen < 120000000000

/-- The flows with tails have been seen. -/
def Seen (m : MatcherWorker) : Prop :=
  ∀ id, m.keysOf id ≠ [] → (m.flowLastSeen.lookup id).isSome = true

theorem Recent.toSeen (h : m.Recent now) : m.Seen := by
  intro id hid
  obtain ⟨seen, hseen, -⟩ := h id hid
  rw [hseen]
  rfl

/-- After a look for old flows there are none. -/
theorem Seen.expire_of_due (h : m.Seen) (hdue : m.processedRecords % 4096 = 0) :
    (m.expire now).Recent now := by
  intro id hid
  unfold MatcherWorker.expire at hid ⊢
  rw [if_pos hdue] at hid ⊢
  obtain ⟨hkeys, hseen⟩ := books_foldl (m.stale now) m
  rw [hkeys] at hid
  rw [hseen]
  split_ifs at hid with hstale
  · exact absurd rfl hid
  · obtain ⟨seen, hlookup⟩ := Option.isSome_iff_exists.mp (h id hid)
    refine ⟨seen, by rw [if_neg hstale, hlookup], ?_⟩
    by_contra hold
    exact hstale (mem_stale.mpr ⟨seen, hlookup, not_lt.mp hold⟩)

theorem Seen.expire (h : m.Seen) (now : ℕ) : (m.expire now).Seen := by
  by_cases hdue : m.processedRecords % 4096 = 0
  · exact (h.expire_of_due hdue).toSeen
  · unfold MatcherWorker.expire
    rwa [if_neg hdue]

theorem Seen.flowClosed (h : m.Seen) (closed : Uuid) : (m.flowClosed closed).Seen := by
  intro id hid
  rw [keysOf_erase] at hid
  split_ifs at hid with hclosed
  · exact absurd rfl hid
  · exact (congrArg Option.isSome (AList.lookup_erase_ne hclosed)).trans (h id hid)

theorem Seen.note (h : m.Seen) (flowId : Uuid) (seen : ℕ) : (m.note flowId seen).Seen := by
  intro id hid
  dsimp only [MatcherWorker.note]
  by_cases hflow : id = flowId
  · subst hflow
    rw [AList.lookup_insert]
    rfl
  · rw [AList.lookup_insert_ne hflow]
    exact h id hid

theorem Seen.content (h : m.Seen) (E : Engines) (work : Work)
    (hprompt : now - seen < 120000000000) :
    (m.content E work seen now).1.Seen ∧
      ((m.content E work seen now).1.processedRecords % 4096 = 0 →
        (m.content E work seen now).1.Recent now) := by
  obtain ⟨hseen, hprocessed, hkeys⟩ := books_content E m work seen now
  have hself := lookup_expire_note m work.record.flowId hprompt
  have hnoted := h.note work.record.flowId seen
  constructor
  · intro id hid
    rw [hseen]
    rcases hkeys id with hsame | rfl
    · exact hnoted.expire now id (hsame ▸ hid)
    · rw [hself]
      rfl
  · intro hdue id hid
    rw [hprocessed, processedRecords_expire] at hdue
    rw [hseen]
    rcases hkeys id with hsame | rfl
    · exact hnoted.expire_of_due hdue id (hsame ▸ hid)
    · exact ⟨seen, hself, hprompt⟩

/-- The streams that a flow can have. -/
def streamsOf (id : Uuid) : List StreamKey :=
  [Direction.aToB, .bToA].flatMap fun direction ↦
    [ContentView.tcpRaw, .httpRequestHeaders, .httpRequestBody, .httpRequestDecodedBody,
      .httpResponseHeaders, .httpResponseBody, .httpResponseDecodedBody].map fun view ↦
        ⟨id, direction, view⟩

theorem Tracked.length_keysOf (h : m.Tracked) (id : Uuid) : (m.keysOf id).length ≤ 14 := by
  have hsub : m.keysOf id ⊆ streamsOf id := by
    rintro ⟨flowId, direction, view⟩ hkey
    obtain rfl : flowId = id := h.own id _ hkey
    cases direction <;> cases view <;> simp [streamsOf]
  exact ((h.nodup id).subperm hsub).length_le

/-- Whatever records and closes come, as long as the clock is read promptly: every tail is in the
books of a flow that has been seen, a flow has no more tails than it has streams, none once it is
closed, and after a look for old flows there are only tails of flows seen in the last two
minutes. -/
theorem tails_kept_after (E : Engines) (overlapLimit : ℕ) (bounds : Bounds)
    (events : List MatcherEvent) (hprompt : ∀ e ∈ events, Prompt e) :
    let m := (History.after E overlapLimit bounds events).worker
    m.Tracked ∧ m.Seen ∧ (∀ id, (m.keysOf id).length ≤ 14) ∧
      (∀ before id, events = before ++ [.flowClosed id] →
        m.tails.only id = (fun _ ↦ none) ∧ m.keysOf id = []) ∧
      ∀ before work seen now, events = before ++ [.content work seen now] →
        m.processedRecords % 4096 = 0 → m.Recent now := by
  have hrun : ∀ events, (∀ e ∈ events, Prompt e) →
      (History.after E overlapLimit bounds events).worker.Tracked ∧
        (History.after E overlapLimit bounds events).worker.Seen := by
    intro events
    induction events using List.reverseRecOn with
    | nil => exact fun _ ↦ ⟨tracked_start overlapLimit bounds, fun _ h ↦ absurd rfl h⟩
    | append_singleton events e ih =>
        intro hprompt
        obtain ⟨htracked, hseen⟩ := ih fun e he ↦ hprompt e (List.mem_append_left _ he)
        have hlast := hprompt e (List.mem_append_right _ List.mem_cons_self)
        rw [History.after, runFrom_append]
        refine ⟨htracked.step e, ?_⟩
        cases e with
        | content work seen now => exact (hseen.content E work hlast).1
        | flowClosed closed => exact hseen.flowClosed closed
  obtain ⟨htracked, hseen⟩ := hrun events hprompt
  refine ⟨htracked, hseen, htracked.length_keysOf, ?_, ?_⟩
  · rintro before id rfl
    obtain ⟨hbefore, -⟩ := hrun before fun e he ↦ hprompt e (List.mem_append_left _ he)
    rw [History.after, runFrom_append]
    refine ⟨(hbefore.only_flowClosed id).trans (if_pos rfl), ?_⟩
    exact (keysOf_erase _ id).trans (if_pos rfl)
  · rintro before work seen now rfl hdue
    obtain ⟨-, hbefore⟩ := hrun before fun e he ↦ hprompt e (List.mem_append_left _ he)
    have hlast := hprompt (.content work seen now) (List.mem_append_right _ List.mem_cons_self)
    rw [History.after, runFrom_append] at hdue ⊢
    exact (hbefore.content E work hlast).2 hdue

/-- The books of a flow that is not seen again do not change before it is dropped. -/
theorem lookup_step_of_ne (E : Engines) (h : History) {e : MatcherEvent} (hid : e.flowId ≠ id) :
    ∀ seen ∈ (h.step E e).worker.flowLastSeen.lookup id,
      seen ∈ h.worker.flowLastSeen.lookup id := by
  cases e with
  | flowClosed closed =>
      intro seen hseen
      rwa [← AList.lookup_erase_ne (Ne.symm hid)]
  | content work seen now =>
      intro seen' hseen'
      have hbooks := (books_content E h.worker work seen now).1
      change seen' ∈ (h.worker.content E work seen now).1.flowLastSeen.lookup id at hseen'
      rw [hbooks] at hseen'
      have hnote : (h.worker.note work.record.flowId seen).flowLastSeen.lookup id =
          h.worker.flowLastSeen.lookup id := AList.lookup_insert_ne (Ne.symm hid)
      rw [← hnote]
      unfold MatcherWorker.expire at hseen'
      split_ifs at hseen'
      · rw [(books_foldl _ _).2] at hseen'
        split_ifs at hseen'
        · cases hseen'
        · exact hseen'
      · exact hseen'

/-- The flow that is not seen again has a tail until the worker looks for old flows. -/
theorem tails_kept_after_twoFlows : (∀ e ∈ twoFlows, Prompt e) ∧
    (History.after referenceEngines 64 {} [seenOnce]).worker.keysOf 8 ≠ [] ∧
    (History.after referenceEngines 64 {} twoFlows).worker.keysOf 8 = [] := by
  obtain ⟨-, -, -, -, hlook⟩ := tails_kept_after referenceEngines 64 {} twoFlows prompt_twoFlows
  have hdue : (History.after referenceEngines 64 {} twoFlows).worker.processedRecords % 4096 =
      0 := by
    rw [processedRecords_twoFlows]
  have hrecent := hlook (seenOnce :: seenLater) _ _ _ rfl hdue
  refine ⟨prompt_twoFlows, by decide +kernel, ?_⟩
  by_contra hkeys
  obtain ⟨seen, hseen, hlate⟩ := hrecent 8 hkeys
  have hone : ∀ seen ∈
      (History.after referenceEngines 64 {} [seenOnce]).worker.flowLastSeen.lookup 8, seen = 0 := by
    decide +kernel
  have hlast := invariant_runFrom (I := fun h : History ↦
      ∀ seen ∈ h.worker.flowLastSeen.lookup 8, seen = 0)
    (fun h e hzero hlater seen hseen ↦
      hzero seen (lookup_step_of_ne referenceEngines h (by rw [hlater.1]; decide) seen hseen))
    hone along_later
  rw [History.after, twoFlows, ← List.singleton_append, runFrom_append] at hseen
  obtain rfl := hlast seen hseen
  exact absurd hlate (by decide)

end MatcherWorker

end Bazalt.Matching
