import Bazalt.Flow.Shard
import Bazalt.Lib.Run

/-!
# Tombstones

A closed flow leaves a tombstone for two seconds.  The map says which keys have one, the queue in
which order they expire.  A key that is removed or set again leaves an entry in the queue that no
longer matches the map; it goes away when its time comes, or when the map is full.
-/

namespace Bazalt.Flow

open Bazalt.Lib Capture

namespace TcpTombstones

inductive Call where
  | insert (key : FlowKey) (now : ℕ)
  | remove (key : FlowKey)
  | containsLive (key : FlowKey) (now : ℕ)
  deriving DecidableEq, Repr

def Call.time? : Call → Option ℕ
  | .insert _ now => some now
  | .remove _ => none
  | .containsLive _ now => some now

def step (t : TcpTombstones) : Call → TcpTombstones
  | .insert key now => t.insert key now
  | .remove key => t.remove key
  | .containsLive key now => (t.containsLive key now).1

def after (calls : List Call) : TcpTombstones := runFrom step {} calls

/-- The clock does not go back. -/
def Timely (calls : List Call) : Prop := (calls.filterMap Call.time?).Pairwise (· ≤ ·)

instance (calls : List Call) : Decidable (Timely calls) :=
  inferInstanceAs (Decidable (List.Pairwise _ _))

/-- The tombstones in the middle of an insert: the new one is there, and those that are due are
gone. -/
def entered (t : TcpTombstones) (key : FlowKey) (now : ℕ) : TcpTombstones :=
  expire ⟨t.byKey.insert key (now + tcpTombstoneTtl),
    t.order ++ [(now + tcpTombstoneTtl, key)]⟩ now

theorem insert_eq (t : TcpTombstones) (key : FlowKey) (now : ℕ) :
    t.insert key now = shrinkLoop (t.entered key now).order (t.entered key now).byKey := rfl

/-- The call takes the tombstone of the key away because there are too many. -/
def Evicts (t : TcpTombstones) (call : Call) (key : FlowKey) : Prop :=
  match call with
  | .insert k now => ((t.entered k now).byKey.lookup key).isSome = true ∧
      (t.insert k now).byKey.lookup key = none
  | _ => False

/-- The key was last inserted at `t`, and neither removed nor evicted since. -/
def Stands (key : FlowKey) (t : ℕ) (calls : List Call) : Prop :=
  ∃ before later, calls = before ++ .insert key t :: later ∧
    (∀ call ∈ later, call ≠ .remove key ∧ ∀ t', call ≠ .insert key t') ∧
    ∀ done call todo, .insert key t :: later = done ++ call :: todo →
      ¬ (after (before ++ done)).Evicts call key

/-- An evicted key is one of those that would expire first. -/
def EvictsFirst (calls : List Call) : Prop :=
  ∀ before k now later, calls = before ++ .insert k now :: later → ∀ key,
    (after before).Evicts (.insert k now) key →
      ∃ d, ((after before).entered k now).byKey.lookup key = some d ∧
        ∀ key' d', ((after before).entered k now).byKey.lookup key' = some d' → d ≤ d'

/-! ## One operation -/

theorem lookup_forget (byKey : Table FlowKey ℕ) (d : ℕ) (key k : FlowKey) :
    (forget byKey d key).lookup k =
      if k = key ∧ byKey.lookup key = some d then none else byKey.lookup k := by
  unfold forget
  by_cases hmatch : byKey.lookup key = some d
  · rw [if_pos hmatch]
    by_cases hk : k = key
    · rw [hk, if_pos ⟨rfl, hmatch⟩]
      exact AList.lookup_erase _ _
    · rw [if_neg fun h ↦ hk h.1]
      exact AList.lookup_erase_ne hk
  · rw [if_neg hmatch, if_neg fun h ↦ hmatch h.2]

/-- Every tombstone has an entry in the queue, which is in the order of the deadlines. -/
structure Queued (t : TcpTombstones) : Prop where
  listed : ∀ key d, t.byKey.lookup key = some d → (d, key) ∈ t.order
  sorted : t.order.Pairwise fun e e' ↦ e.1 ≤ e'.1

theorem Queued.tail {d : ℕ} {key : FlowKey} {order : List (ℕ × FlowKey)} {byKey : Table FlowKey ℕ}
    (h : Queued ⟨byKey, (d, key) :: order⟩) : Queued ⟨forget byKey d key, order⟩ := by
  refine ⟨fun k d' hk ↦ ?_, (List.pairwise_cons.mp h.sorted).2⟩
  simp only [lookup_forget] at hk
  split_ifs at hk with hgone
  rcases List.mem_cons.mp (h.listed k d' hk) with heq | hmem
  · obtain ⟨rfl, rfl⟩ := Prod.mk.inj heq
    exact absurd ⟨rfl, hk⟩ hgone
  · exact hmem

/-- Expiring leaves what is not due yet. -/
theorem expireLoop_spec (now : ℕ) {order : List (ℕ × FlowKey)} :
    ∀ {byKey : Table FlowKey ℕ}, Queued ⟨byKey, order⟩ →
      (expireLoop now order byKey).Queued ∧
      (expireLoop now order byKey).order = order.filter (fun e ↦ decide (now < e.1)) ∧
      ∀ k, (expireLoop now order byKey).byKey.lookup k =
        (byKey.lookup k).filter fun d ↦ decide (now < d) := by
  induction order with
  | nil =>
      intro byKey h
      refine ⟨h, rfl, fun k ↦ ?_⟩
      cases hk : byKey.lookup k with
      | none => exact hk
      | some d => exact absurd (h.listed k d hk) List.not_mem_nil
  | cons e order ih =>
      intro byKey h
      obtain ⟨d, key⟩ := e
      unfold expireLoop
      split_ifs with hdue
      · obtain ⟨hqueued, horder, hlookup⟩ := ih h.tail
        refine ⟨hqueued, ?_, fun k ↦ ?_⟩
        · rw [horder, List.filter_cons_of_neg (by simpa using hdue)]
        · rw [hlookup, lookup_forget]
          split_ifs with hgone
          · rw [hgone.1, hgone.2, Option.filter_some_neg (by simpa using hdue)]
            rfl
          · rfl
      · have hlive : ∀ e ∈ (d, key) :: order, now < e.1 := by
          intro e he
          rcases List.mem_cons.mp he with rfl | he
          · exact not_le.mp hdue
          · exact (not_le.mp hdue).trans_le ((List.pairwise_cons.mp h.sorted).1 e he)
        refine ⟨h, ?_, fun k ↦ ?_⟩
        · exact (List.filter_eq_self.mpr fun e he ↦ decide_eq_true (hlive e he)).symm
        · cases hk : byKey.lookup k with
          | none => rfl
          | some d' =>
              have hd' : now < d' := hlive _ (h.listed k d' hk)
              exact (if_pos (decide_eq_true hd')).symm

theorem Queued.expire_spec {t : TcpTombstones} (h : t.Queued) (now : ℕ) :
    (t.expire now).Queued ∧ (t.expire now).order = t.order.filter (fun e ↦ decide (now < e.1)) ∧
      ∀ k, (t.expire now).byKey.lookup k = (t.byKey.lookup k).filter fun d ↦ decide (now < d) :=
  expireLoop_spec now h

theorem size_forget {byKey : Table FlowKey ℕ} {d : ℕ} {key : FlowKey} {q : ℕ → Bool}
    (h : q d = false) : Table.tally q (forget byKey d key) = Table.tally q byKey := by
  unfold forget
  split_ifs with hmatch
  · have herase := Table.tally_erase q hmatch
    rw [h] at herase
    exact herase
  · rfl

/-- How many tombstones are not due yet. -/
theorem size_expireLoop {now : ℕ} {order : List (ℕ × FlowKey)} :
    ∀ {byKey : Table FlowKey ℕ}, Queued ⟨byKey, order⟩ →
      (expireLoop now order byKey).byKey.size = Table.tally (fun d ↦ decide (now < d)) byKey := by
  induction order with
  | nil =>
      intro byKey h
      exact (Table.tally_eq_size fun k d hk ↦ absurd (h.listed k d hk) List.not_mem_nil).symm
  | cons e order ih =>
      intro byKey h
      obtain ⟨d, key⟩ := e
      unfold expireLoop
      split_ifs with hdue
      · rw [ih h.tail]
        exact size_forget (by simpa using hdue)
      · refine (Table.tally_eq_size fun k d' hk ↦ decide_eq_true ?_).symm
        rcases List.mem_cons.mp (h.listed k d' hk) with heq | hmem
        · rw [(Prod.mk.inj heq).1]
          exact not_le.mp hdue
        · exact (not_le.mp hdue).trans_le ((List.pairwise_cons.mp h.sorted).1 _ hmem)

theorem shrinkLoop_of_le {order : List (ℕ × FlowKey)} {byKey : Table FlowKey ℕ}
    (h : byKey.size ≤ tcpTombstoneMax) : shrinkLoop order byKey = ⟨byKey, order⟩ := by
  cases order with
  | nil => rfl
  | cons e order => exact if_neg (not_lt.mpr h)

/-- With one tombstone too many, the first entry that matches the map is taken away, and the entries
before it. -/
theorem shrinkLoop_of_full {order : List (ℕ × FlowKey)} {byKey : Table FlowKey ℕ}
    (h : Queued ⟨byKey, order⟩) (hsize : byKey.size = tcpTombstoneMax + 1) :
    ∃ stale d key rest, order = stale ++ (d, key) :: rest ∧ byKey.lookup key = some d ∧
      (∀ e ∈ stale, byKey.lookup e.2 ≠ some e.1) ∧
        shrinkLoop order byKey = ⟨byKey.erase key, rest⟩ := by
  induction order with
  | nil =>
      obtain ⟨k, d, hk⟩ := Table.exists_lookup_of_size_pos (t := byKey) (by omega)
      exact absurd (h.listed k d hk) List.not_mem_nil
  | cons e order ih =>
      obtain ⟨d, key⟩ := e
      have hfull : tcpTombstoneMax < byKey.size := by omega
      by_cases hmatch : byKey.lookup key = some d
      · refine ⟨[], d, key, order, rfl, hmatch, by simp, ?_⟩
        have herase := Table.size_erase hmatch
        rw [shrinkLoop, if_pos hfull, forget, if_pos hmatch]
        exact shrinkLoop_of_le (by omega)
      · have hstale : forget byKey d key = byKey := if_neg hmatch
        have htail := h.tail
        rw [hstale] at htail
        obtain ⟨stale, d', key', rest, rfl, hlookup, hstales, hshrink⟩ := ih htail
        refine ⟨(d, key) :: stale, d', key', rest, rfl, hlookup, fun e he ↦ ?_, ?_⟩
        · rcases List.mem_cons.mp he with rfl | he
          · exact hmatch
          · exact hstales e he
        · rw [shrinkLoop, if_pos hfull, hstale, hshrink]

/-- The key that is evicted has the smallest deadline. -/
theorem Queued.le_of_first {byKey : Table FlowKey ℕ} {stale rest : List (ℕ × FlowKey)} {d : ℕ}
    {key : FlowKey} (h : Queued ⟨byKey, stale ++ (d, key) :: rest⟩)
    (hstale : ∀ e ∈ stale, byKey.lookup e.2 ≠ some e.1) {key' : FlowKey} {d' : ℕ}
    (hkey : byKey.lookup key' = some d') : d ≤ d' := by
  rcases List.mem_append.mp (h.listed key' d' hkey) with hmem | hmem
  · exact absurd hkey (hstale _ hmem)
  · rcases List.mem_cons.mp hmem with heq | hmem
    · exact (Prod.mk.inj heq).1.ge
    · exact (List.pairwise_cons.mp (List.pairwise_append.mp h.sorted).2.1).1 _ hmem

/-! ## Runs -/

/-- The tombstones at some time: they are queued, no deadline is further away than a new one would
be, and there are not too many. -/
structure Kept (t : TcpTombstones) (clock : ℕ) : Prop where
  queued : t.Queued
  near : ∀ e ∈ t.order, e.1 ≤ clock + tcpTombstoneTtl
  size_le : t.byKey.size ≤ tcpTombstoneMax

/-- The time of the last call that has one. -/
def clock (calls : List Call) : ℕ := (calls.filterMap Call.time?).getLast?.getD 0

theorem clock_snoc (calls : List Call) (call : Call) :
    clock (calls ++ [call]) = call.time?.getD (clock calls) := by
  unfold clock
  cases htime : call.time? <;> simp [htime]

theorem Timely.of_append {calls more : List Call} (h : Timely (calls ++ more)) : Timely calls := by
  unfold Timely at h
  rw [List.filterMap_append] at h
  exact (List.pairwise_append.mp h).1

theorem Timely.clock_le {calls : List Call} {call : Call} (h : Timely (calls ++ [call])) :
    ∀ now ∈ call.time?, clock calls ≤ now := by
  intro now hnow
  unfold Timely at h
  rw [List.filterMap_append] at h
  have hlate := (List.pairwise_append.mp h).2.2
  unfold clock
  cases hlast : (calls.filterMap Call.time?).getLast? with
  | none => exact Nat.zero_le now
  | some t =>
      refine hlate t (List.mem_of_getLast? hlast) now ?_
      exact List.mem_filterMap.mpr ⟨call, List.mem_singleton_self call, hnow⟩

theorem after_snoc (calls : List Call) (call : Call) :
    after (calls ++ [call]) = (after calls).step call := by
  rw [after, runFrom_append]
  rfl

section

variable {t : TcpTombstones} {now now' : ℕ}

/-- What an insert puts in, before it looks at the size. -/
theorem Kept.entered_spec (h : t.Kept now) (hle : now ≤ now') (key : FlowKey) :
    (t.entered key now').Queued ∧
      (t.entered key now').order = t.order.filter (fun e ↦ decide (now' < e.1)) ++
        [(now' + tcpTombstoneTtl, key)] ∧
      (∀ k, (t.entered key now').byKey.lookup k = if k = key then some (now' + tcpTombstoneTtl)
        else (t.byKey.lookup k).filter fun d ↦ decide (now' < d)) ∧
      (t.entered key now').byKey.size = Table.tally (fun d ↦ decide (now' < d))
        (t.byKey.insert key (now' + tcpTombstoneTtl)) := by
  have hnew : now' < now' + tcpTombstoneTtl := Nat.lt_add_of_pos_right (by decide)
  have hqueued : Queued ⟨t.byKey.insert key (now' + tcpTombstoneTtl),
      t.order ++ [(now' + tcpTombstoneTtl, key)]⟩ := by
    refine ⟨fun k d hk ↦ ?_, List.pairwise_append.mpr ⟨h.queued.sorted,
      List.pairwise_singleton _ _, fun e he e' he' ↦ ?_⟩⟩
    · by_cases hkey : k = key
      · rw [hkey, AList.lookup_insert] at hk
        rw [hkey, ← Option.some.inj hk]
        exact List.mem_append_right _ (List.mem_singleton_self _)
      · rw [AList.lookup_insert_ne hkey] at hk
        exact List.mem_append_left _ (h.queued.listed k d hk)
    · rw [List.mem_singleton.mp he']
      exact (h.near e he).trans (Nat.add_le_add_right hle _)
  obtain ⟨hexpired, horder, hlookup⟩ := expireLoop_spec now' hqueued
  refine ⟨hexpired, ?_, fun k ↦ ?_, size_expireLoop hqueued⟩
  · rw [entered, expire, horder, List.filter_append]
    simp [hnew]
  · rw [entered, expire, hlookup]
    split_ifs with hkey
    · rw [hkey, AList.lookup_insert]
      exact if_pos (decide_eq_true hnew)
    · rw [AList.lookup_insert_ne hkey]

theorem Kept.size_entered (h : t.Kept now) (hle : now ≤ now') (key : FlowKey) :
    (t.entered key now').byKey.size ≤ tcpTombstoneMax + 1 := by
  have hsize := h.size_le
  have htally := Table.tally_le_size (fun d ↦ decide (now' < d)) t.byKey
  rw [(h.entered_spec hle key).2.2.2]
  cases hkey : t.byKey.lookup key with
  | none =>
      rw [Table.tally_insert_of_absent _ hkey]
      have := Bool.toNat_le (decide (now' < now' + tcpTombstoneTtl))
      omega
  | some d =>
      have hsame := Table.tally_insert (fun d ↦ decide (now' < d)) hkey (now' + tcpTombstoneTtl)
      have := Bool.toNat_le (decide (now' < now' + tcpTombstoneTtl))
      omega

/-- An insert leaves what it has put in, or takes away the first tombstone that is left. -/
theorem Kept.insert_cases (h : t.Kept now) (hle : now ≤ now') (key : FlowKey) :
    (t.entered key now').byKey.size ≤ tcpTombstoneMax ∧ t.insert key now' = t.entered key now' ∨
      (t.entered key now').byKey.size = tcpTombstoneMax + 1 ∧
        ∃ stale d k rest, (t.entered key now').order = stale ++ (d, k) :: rest ∧
          (t.entered key now').byKey.lookup k = some d ∧
          (∀ e ∈ stale, (t.entered key now').byKey.lookup e.2 ≠ some e.1) ∧
          t.insert key now' = ⟨(t.entered key now').byKey.erase k, rest⟩ := by
  have hsize := h.size_entered hle key
  rw [insert_eq]
  by_cases hfull : (t.entered key now').byKey.size ≤ tcpTombstoneMax
  · exact .inl ⟨hfull, shrinkLoop_of_le hfull⟩
  · have hone : (t.entered key now').byKey.size = tcpTombstoneMax + 1 := by omega
    exact .inr ⟨hone, shrinkLoop_of_full (h.entered_spec hle key).1 hone⟩

/-- What is left when the first tombstone is taken away. -/
theorem Queued.of_first {byKey : Table FlowKey ℕ} {stale rest : List (ℕ × FlowKey)} {d : ℕ}
    {key : FlowKey} (h : Queued ⟨byKey, stale ++ (d, key) :: rest⟩)
    (hstale : ∀ e ∈ stale, byKey.lookup e.2 ≠ some e.1) : Queued ⟨byKey.erase key, rest⟩ := by
  refine ⟨fun k d' hk ↦ ?_, ?_⟩
  · have hne : k ≠ key := by
      rintro rfl
      simp at hk
    rw [AList.lookup_erase_ne hne] at hk
    rcases List.mem_append.mp (h.listed k d' hk) with hmem | hmem
    · exact absurd hk (hstale _ hmem)
    · rcases List.mem_cons.mp hmem with heq | hmem
      · exact absurd (Prod.mk.inj heq).2 hne
      · exact hmem
  · exact (List.pairwise_cons.mp (List.pairwise_append.mp h.sorted).2.1).2

theorem Kept.insert (h : t.Kept now) (hle : now ≤ now') (key : FlowKey) :
    (t.insert key now').Kept now' := by
  obtain ⟨hqueued, horder, -, -⟩ := h.entered_spec hle key
  have hnear : ∀ e ∈ (t.entered key now').order, e.1 ≤ now' + tcpTombstoneTtl := by
    intro e he
    rw [horder] at he
    rcases List.mem_append.mp he with he | he
    · exact (h.near e (List.mem_filter.mp he).1).trans (Nat.add_le_add_right hle _)
    · rw [List.mem_singleton.mp he]
  rcases h.insert_cases hle key with
    ⟨hsize, heq⟩ | ⟨hsize, stale, d, k, rest, hsplit, hk, hstale, heq⟩
  · rw [heq]
    exact ⟨hqueued, hnear, hsize⟩
  · have hfirst : Queued ⟨(t.entered key now').byKey, stale ++ (d, k) :: rest⟩ := hsplit ▸ hqueued
    have herase := Table.size_erase hk
    rw [heq]
    refine ⟨hfirst.of_first hstale, fun e he ↦ hnear e ?_, ?_⟩
    · rw [hsplit]
      exact List.mem_append_right _ (List.mem_cons_of_mem _ he)
    · change Table.size ((t.entered key now').byKey.erase k) ≤ tcpTombstoneMax
      omega

/-- The step lemma. -/
theorem Kept.step (h : t.Kept now) {call : Call} (hle : ∀ now' ∈ call.time?, now ≤ now') :
    (t.step call).Kept (call.time?.getD now) := by
  cases call with
  | insert key now' => exact h.insert (hle now' rfl) key
  | remove key =>
      refine ⟨⟨fun k d hk ↦ h.queued.listed k d ?_, h.queued.sorted⟩, h.near,
        (Table.size_erase_le t.byKey key).trans h.size_le⟩
      change (t.byKey.erase key).lookup k = some d at hk
      have hne : k ≠ key := by
        rintro rfl
        simp at hk
      rwa [AList.lookup_erase_ne hne] at hk
  | containsLive key now' =>
      obtain ⟨hqueued, horder, -⟩ := h.queued.expire_spec now'
      have hsize : (t.expire now').byKey.size ≤ tcpTombstoneMax := by
        rw [expire, size_expireLoop h.queued]
        exact (Table.tally_le_size _ _).trans h.size_le
      refine ⟨hqueued, fun e he ↦ ?_, hsize⟩
      change e ∈ (t.expire now').order at he
      rw [horder] at he
      exact (h.near e (List.mem_filter.mp he).1).trans (Nat.add_le_add_right (hle now' rfl) _)

end

/-- The run lemma. -/
theorem kept_after {calls : List Call} (h : Timely calls) : (after calls).Kept (clock calls) := by
  induction calls using List.reverseRecOn with
  | nil => exact ⟨⟨by simp [after], .nil⟩, by simp [after], Nat.zero_le _⟩
  | append_singleton calls call ih =>
      rw [after_snoc, clock_snoc]
      exact (ih h.of_append).step h.clock_le

/-! ## What a tombstone says -/

theorem stands_snoc {calls : List Call} {call : Call} {key : FlowKey} {t : ℕ} :
    Stands key t (calls ++ [call]) ↔ ¬ (after calls).Evicts call key ∧
      (call = .insert key t ∨ Stands key t calls ∧ call ≠ .remove key ∧
        ∀ t', call ≠ .insert key t') := by
  constructor
  · rintro ⟨before, later, hsplit, hkeeps, hevicts⟩
    cases later using List.reverseRecOn with
    | nil =>
        obtain ⟨rfl, hcall⟩ := List.append_inj' hsplit rfl
        obtain rfl : call = .insert key t := by simpa using hcall
        refine ⟨?_, .inl rfl⟩
        have hfirst := hevicts [] _ [] rfl
        rwa [List.append_nil] at hfirst
    | append_singleton later last =>
        rw [← List.cons_append, ← List.append_assoc] at hsplit
        obtain ⟨rfl, hcall⟩ := List.append_inj' hsplit rfl
        obtain rfl : call = last := by simpa using hcall
        obtain ⟨hremove, hinsert⟩ := hkeeps call (by simp)
        refine ⟨hevicts (.insert key t :: later) call [] rfl, .inr ⟨⟨before, later, rfl,
          fun c hc ↦ hkeeps c (List.mem_append_left _ hc), fun done c todo hdone ↦ ?_⟩,
          hremove, hinsert⟩⟩
        refine hevicts done c (todo ++ [call]) ?_
        rw [← List.cons_append, hdone]
        simp
  · rintro ⟨hlast, rfl | ⟨⟨before, later, rfl, hkeeps, hevicts⟩, hremove, hinsert⟩⟩
    · refine ⟨calls, [], rfl, by simp, fun done c todo hdone ↦ ?_⟩
      cases done with
      | nil =>
          obtain rfl := (List.cons.inj hdone).1
          rwa [List.append_nil]
      | cons c' done => simp at hdone
    · refine ⟨before, later ++ [call], by simp, fun c hc ↦ ?_, fun done c todo hdone ↦ ?_⟩
      · rcases List.mem_append.mp hc with hc | hc
        · exact hkeeps c hc
        · rw [List.mem_singleton.mp hc]
          exact ⟨hremove, hinsert⟩
      · cases todo using List.reverseRecOn with
        | nil =>
            rw [← List.cons_append] at hdone
            obtain ⟨rfl, hc⟩ := List.append_inj' hdone rfl
            obtain rfl : call = c := by simpa using hc
            exact hlast
        | append_singleton todo last =>
            rw [← List.cons_append, ← List.cons_append, ← List.append_assoc] at hdone
            exact hevicts done c todo (List.append_inj' hdone rfl).1

section

variable {t : TcpTombstones} {now now' : ℕ}

theorem Kept.lookup_insert (h : t.Kept now) (hle : now ≤ now') (key k : FlowKey) :
    (t.insert key now').byKey.lookup k = (t.entered key now').byKey.lookup k ∨
      (t.insert key now').byKey.lookup k = none ∧ t.Evicts (.insert key now') k := by
  rcases h.insert_cases hle key with ⟨-, heq⟩ | ⟨-, stale, d, k', rest, -, hk', -, heq⟩
  · exact .inl (by rw [heq])
  · by_cases hk : k = k'
    · subst hk
      have hnone : (t.insert key now').byKey.lookup k = none := by
        rw [heq]
        exact AList.lookup_erase _ _
      exact .inr ⟨hnone, by rw [hk']; rfl, hnone⟩
    · left
      rw [heq]
      exact AList.lookup_erase_ne hk

/-- The map and the history agree on the tombstones that are not due. -/
def Matches (t : TcpTombstones) (calls : List Call) (now : ℕ) : Prop :=
  ∀ key, (∀ d, t.byKey.lookup key = some d → ∃ t₀, Stands key t₀ calls ∧ d = t₀ + tcpTombstoneTtl) ∧
    ∀ t₀, Stands key t₀ calls → t.byKey.lookup key = some (t₀ + tcpTombstoneTtl) ∨
      t.byKey.lookup key = none ∧ t₀ + tcpTombstoneTtl ≤ now

theorem Matches.insert {calls : List Call} (h : (after calls).Matches calls now)
    (hkept : (after calls).Kept now) (hle : now ≤ now') (key : FlowKey) :
    (after (calls ++ [.insert key now'])).Matches (calls ++ [.insert key now']) now' := by
  intro k
  obtain ⟨-, -, hentered, -⟩ := hkept.entered_spec hle key
  have hlookup := hkept.lookup_insert hle key k
  rw [hentered] at hlookup
  rw [after_snoc]
  refine ⟨fun d hd ↦ ?_, fun t₀ hstands ↦ ?_⟩
  · change ((after calls).insert key now').byKey.lookup k = some d at hd
    have hkeeps : ¬ (after calls).Evicts (.insert key now') k := fun ⟨_, hnone⟩ ↦ by
      cases hnone.symm.trans hd
    have hold := hlookup.resolve_right fun hgone ↦ hkeeps hgone.2
    rw [hold] at hd
    split_ifs at hd with hk
    · subst hk
      exact ⟨now', stands_snoc.mpr ⟨hkeeps, .inl rfl⟩, (Option.some.inj hd).symm⟩
    · obtain ⟨hsome, -⟩ := Option.filter_eq_some_iff.mp hd
      obtain ⟨t₀, hstands, rfl⟩ := (h k).1 d hsome
      refine ⟨t₀, stands_snoc.mpr ⟨hkeeps, .inr ⟨hstands, by simp, fun t' heq ↦ ?_⟩⟩, rfl⟩
      exact hk (Call.insert.inj heq).1.symm
  · obtain ⟨hkeeps, hlast⟩ := stands_snoc.mp hstands
    change ((after calls).insert key now').byKey.lookup k = _ ∨
      ((after calls).insert key now').byKey.lookup k = none ∧ _
    rw [hlookup.resolve_right fun hgone ↦ hkeeps hgone.2]
    rcases hlast with heq | ⟨hbefore, -, hne⟩
    · obtain ⟨rfl, rfl⟩ := Call.insert.inj heq
      exact .inl (if_pos rfl)
    · have hk : k ≠ key := fun hk ↦ hne now' (by rw [hk])
      rw [if_neg hk]
      rcases (h k).2 t₀ hbefore with hsome | ⟨hnone, hdue⟩
      · rw [hsome]
        by_cases hlive : now' < t₀ + tcpTombstoneTtl
        · exact .inl (if_pos (decide_eq_true hlive))
        · exact .inr ⟨if_neg (by simpa using hlive), not_lt.mp hlive⟩
      · exact .inr ⟨by rw [hnone]; rfl, hdue.trans hle⟩

theorem Matches.remove {calls : List Call} (h : (after calls).Matches calls now) (key : FlowKey) :
    (after (calls ++ [.remove key])).Matches (calls ++ [.remove key]) now := by
  intro k
  rw [after_snoc]
  change (∀ d, ((after calls).byKey.erase key).lookup k = some d → _) ∧
    ∀ t₀, _ → ((after calls).byKey.erase key).lookup k = _ ∨
      ((after calls).byKey.erase key).lookup k = none ∧ _
  by_cases hk : k = key
  · subst hk
    refine ⟨fun d hd ↦ by simp at hd, fun t₀ hstands ↦ ?_⟩
    rcases (stands_snoc.mp hstands).2 with heq | ⟨-, hne, -⟩
    · cases heq
    · exact absurd rfl hne
  · rw [AList.lookup_erase_ne hk]
    refine ⟨fun d hd ↦ ?_, fun t₀ hstands ↦ ?_⟩
    · obtain ⟨t₀, hstands, hd⟩ := (h k).1 d hd
      refine ⟨t₀, stands_snoc.mpr ⟨id, .inr ⟨hstands, fun heq ↦ ?_, by simp⟩⟩, hd⟩
      exact hk (Call.remove.inj heq).symm
    · rcases (stands_snoc.mp hstands).2 with heq | ⟨hbefore, -, -⟩
      · cases heq
      · exact (h k).2 t₀ hbefore

theorem Matches.containsLive {calls : List Call} (h : (after calls).Matches calls now)
    (hkept : (after calls).Kept now) (hle : now ≤ now') (key : FlowKey) :
    (after (calls ++ [.containsLive key now'])).Matches (calls ++ [.containsLive key now']) now' := by
  intro k
  obtain ⟨-, -, hlookup⟩ := hkept.queued.expire_spec now'
  rw [after_snoc]
  change (∀ d, ((after calls).expire now').byKey.lookup k = some d → _) ∧
    ∀ t₀, _ → ((after calls).expire now').byKey.lookup k = _ ∨
      ((after calls).expire now').byKey.lookup k = none ∧ _
  rw [hlookup]
  refine ⟨fun d hd ↦ ?_, fun t₀ hstands ↦ ?_⟩
  · obtain ⟨t₀, hstands, hd⟩ := (h k).1 d (Option.filter_eq_some_iff.mp hd).1
    exact ⟨t₀, stands_snoc.mpr ⟨id, .inr ⟨hstands, by simp, by simp⟩⟩, hd⟩
  · rcases (stands_snoc.mp hstands).2 with heq | ⟨hbefore, -, -⟩
    · cases heq
    · rcases (h k).2 t₀ hbefore with hsome | ⟨hnone, hdue⟩
      · rw [hsome]
        by_cases hlive : now' < t₀ + tcpTombstoneTtl
        · exact .inl (if_pos (decide_eq_true hlive))
        · exact .inr ⟨if_neg (by simpa using hlive), not_lt.mp hlive⟩
      · exact .inr ⟨by rw [hnone]; rfl, hdue.trans hle⟩

end

theorem matches_after {calls : List Call} (h : Timely calls) :
    (after calls).Matches calls (clock calls) := by
  induction calls using List.reverseRecOn with
  | nil =>
      refine fun key ↦ ⟨fun d hd ↦ ?_, fun t₀ ⟨before, later, hsplit, _⟩ ↦ ?_⟩
      · simp [after] at hd
      · simp at hsplit
  | append_singleton calls call ih =>
      have hmatches := ih h.of_append
      have hkept := kept_after h.of_append
      have hle := h.clock_le
      rw [clock_snoc]
      cases call with
      | insert key now => exact hmatches.insert hkept (hle now rfl) key
      | remove key => exact hmatches.remove key
      | containsLive key now => exact hmatches.containsLive hkept (hle now rfl) key

theorem containsLive_spec {calls : List Call} (h : Timely calls) {key : FlowKey} {now : ℕ}
    (hnow : clock calls ≤ now) : ((after calls).containsLive key now).2 = true ↔
      ∃ t, Stands key t calls ∧ now < t + tcpTombstoneTtl := by
  obtain ⟨-, -, hlookup⟩ := (kept_after h).queued.expire_spec now
  have hmatches := matches_after h key
  have hlive : ((after calls).containsLive key now).2 = true ↔
      ∃ d, (after calls).byKey.lookup key = some d ∧ now < d := by
    change Option.any (fun d ↦ decide (now < d)) (((after calls).expire now).byKey.lookup key) =
      true ↔ _
    rw [hlookup]
    cases (after calls).byKey.lookup key with
    | none => simp
    | some d =>
        by_cases hd : now < d
        · simp [Option.filter, hd]
        · simp [Option.filter, hd]
  rw [hlive]
  constructor
  · rintro ⟨d, hd, hlt⟩
    obtain ⟨t, hstands, rfl⟩ := hmatches.1 d hd
    exact ⟨t, hstands, hlt⟩
  · rintro ⟨t, hstands, hlt⟩
    rcases hmatches.2 t hstands with hsome | ⟨-, hdue⟩
    · exact ⟨_, hsome, hlt⟩
    · exact absurd (hdue.trans hnow) (not_le.mpr hlt)

theorem evictsFirst_of_timely {calls : List Call} (h : Timely calls) : EvictsFirst calls := by
  rintro before k now later rfl key ⟨hsome, hnone⟩
  have hsnoc : before ++ .insert k now :: later = before ++ [.insert k now] ++ later := by simp
  rw [hsnoc] at h
  have hkept := kept_after h.of_append.of_append
  have hle : clock before ≤ now := h.of_append.clock_le now rfl
  obtain ⟨hqueued, -⟩ := hkept.entered_spec hle k
  rcases hkept.insert_cases hle k with ⟨-, heq⟩ | ⟨-, stale, d, key', rest, hsplit, hk, hstale, heq⟩
  · rw [heq] at hnone
    rw [hnone] at hsome
    cases hsome
  · rw [heq] at hnone
    have hkey : key = key' := by
      by_contra hne
      rw [AList.lookup_erase_ne hne] at hnone
      rw [hnone] at hsome
      cases hsome
    have hfirst : Queued ⟨((after before).entered k now).byKey, stale ++ (d, key') :: rest⟩ :=
      hsplit ▸ hqueued
    refine ⟨d, by rw [hkey]; exact hk, fun k' d' hk' ↦ hfirst.le_of_first hstale hk'⟩

theorem tombstones_mean_what_they_say (calls : List Call) (h : Timely calls) :
    (∀ key now, clock calls ≤ now → (((after calls).containsLive key now).2 = true ↔
      ∃ t, Stands key t calls ∧ now < t + tcpTombstoneTtl)) ∧
    (after calls).byKey.size ≤ tcpTombstoneMax ∧ EvictsFirst calls :=
  ⟨fun _ _ hnow ↦ containsLive_spec h hnow, (kept_after h).size_le, evictsFirst_of_timely h⟩

/-- A connection that is closed, opened again and closed. -/
def reusedKey : FlowKey := ⟨⟨.v4 0x0a000001, 40000⟩, ⟨.v4 0x0a000002, 80⟩, .tcp, 0⟩

def reusedRun : List Call :=
  [.insert reusedKey 0, .containsLive reusedKey 1, .remove reusedKey, .insert reusedKey 1500000000,
    .containsLive reusedKey 2000000000]

theorem tombstones_mean_what_they_say_reusedRun : Timely reusedRun ∧
    (after reusedRun).order.length = 1 ∧
      (((after reusedRun).containsLive reusedKey 3499999999).2 = true ↔
        ∃ t, Stands reusedKey t reusedRun ∧ 3499999999 < t + tcpTombstoneTtl) := by
  have htimely : Timely reusedRun := by decide
  exact ⟨htimely, by decide +kernel,
    (tombstones_mean_what_they_say reusedRun htimely).1 reusedKey 3499999999 (by decide)⟩

/-! ## The length of the queue -/

/-- The queue is at most twice as long as the map can be. -/
def Bounded (t : TcpTombstones) : Prop := t.order.length ≤ 2 * tcpTombstoneMax

/-- How many entries of the queue are not due. -/
def waiting (t : TcpTombstones) (now : ℕ) : ℕ :=
  (t.order.filter fun e ↦ decide (now < e.1)).length

/-- So many other keys are live that a new one takes another one's place. -/
def Crowded (t : TcpTombstones) (key : FlowKey) (now : ℕ) : Prop :=
  Table.tally (fun d ↦ decide (now < d)) t.byKey = tcpTombstoneMax ∧
    ∀ d ∈ t.byKey.lookup key, d ≤ now

instance (t : TcpTombstones) (key : FlowKey) (now : ℕ) : Decidable (t.Crowded key now) :=
  inferInstanceAs (Decidable (_ ∧ _))

/-- An insert finds room in the queue, or a crowd of live keys. -/
def FindsRoom (t : TcpTombstones) : Call → Prop
  | .insert key now => t.waiting now < 2 * tcpTombstoneMax ∨ t.Crowded key now
  | _ => True

instance (t : TcpTombstones) (call : Call) : Decidable (t.FindsRoom call) := by
  cases call <;> unfold FindsRoom <;> infer_instance

section

variable {t : TcpTombstones} {now now' : ℕ}

theorem Kept.crowded_iff (h : t.Kept now) (hle : now ≤ now') (key : FlowKey) :
    t.Crowded key now' ↔ (t.entered key now').byKey.size = tcpTombstoneMax + 1 := by
  have hnew : decide (now' < now' + tcpTombstoneTtl) = true :=
    decide_eq_true (Nat.lt_add_of_pos_right (by decide))
  have htally := (Table.tally_le_size (fun d ↦ decide (now' < d)) t.byKey).trans h.size_le
  rw [(h.entered_spec hle key).2.2.2, Crowded]
  cases hkey : t.byKey.lookup key with
  | none =>
      rw [Table.tally_insert_of_absent _ hkey, hnew]
      simp
  | some d =>
      have hsame := Table.tally_insert (fun d ↦ decide (now' < d)) hkey (now' + tcpTombstoneTtl)
      simp only [hnew, Bool.toNat_true] at hsame
      by_cases hd : now' < d
      · simp only [decide_eq_true hd, Bool.toNat_true] at hsame
        simp only [Option.mem_def, Option.some.injEq, forall_eq']
        omega
      · simp only [decide_eq_false hd, Bool.toNat_false] at hsame
        simp only [Option.mem_def, Option.some.injEq, forall_eq']
        omega

/-- The step lemma. -/
theorem Kept.bounded_step (h : t.Kept now) {call : Call} (hle : ∀ now' ∈ call.time?, now ≤ now')
    (hbounded : t.Bounded) : (t.step call).Bounded ↔ t.FindsRoom call := by
  cases call with
  | insert key now' =>
      have hle := hle now' rfl
      have hwaiting : t.waiting now' ≤ t.order.length := List.length_filter_le _ _
      have hlength : (t.entered key now').order.length = t.waiting now' + 1 := by
        rw [(h.entered_spec hle key).2.1, List.length_append]
        rfl
      unfold Bounded at hbounded ⊢
      change (t.insert key now').order.length ≤ _ ↔ _ ∨ _
      rw [h.crowded_iff hle key]
      rcases h.insert_cases hle key with ⟨hsize, heq⟩ | ⟨hsize, stale, d, k, rest, hsplit, -, -, heq⟩
      · rw [heq, hlength]
        omega
      · rw [hsplit, List.length_append, List.length_cons] at hlength
        rw [heq]
        simp only [hsize, or_true, iff_true]
        omega
  | remove key => exact iff_of_true hbounded trivial
  | containsLive key now' =>
      refine iff_of_true ?_ trivial
      change (t.expire now').order.length ≤ _
      rw [(h.queued.expire_spec now').2.1]
      exact (List.length_filter_le _ _).trans hbounded

end

/-- The queue stays bounded in a run exactly when every insert finds room. -/
theorem queue_bounded_iff (calls : List Call) (h : Timely calls) :
    (∀ before later, calls = before ++ later → (after before).Bounded) ↔
      Along step FindsRoom {} calls := by
  induction calls using List.reverseRecOn with
  | nil =>
      refine iff_of_true (fun before later hsplit ↦ ?_) trivial
      obtain ⟨rfl, -⟩ := List.append_eq_nil_iff.mp hsplit.symm
      exact Nat.zero_le _
  | append_singleton calls call ih =>
      have hbefore := ih h.of_append
      have hkept := kept_after h.of_append
      have hstep : (after calls).Bounded →
          ((after (calls ++ [call])).Bounded ↔ (after calls).FindsRoom call) := by
        rw [after_snoc]
        exact hkept.bounded_step h.clock_le
      rw [along_append, ← hbefore]
      constructor
      · intro hall
        have hcalls : ∀ before later, calls = before ++ later → (after before).Bounded := by
          rintro before later rfl
          exact hall before (later ++ [call]) (by simp)
        refine ⟨hcalls, (hstep (hcalls calls [] (by simp))).mp (hall _ [] (by simp)), trivial⟩
      · rintro ⟨hcalls, hroom, -⟩ before later hsplit
        cases later using List.reverseRecOn with
        | nil =>
            rw [List.append_nil] at hsplit
            rw [← hsplit]
            exact (hstep (hcalls calls [] (by simp))).mpr hroom
        | append_singleton later last =>
            rw [← List.append_assoc] at hsplit
            exact hcalls before later (List.append_inj' hsplit rfl).1

theorem queue_bounded_iff_reusedRun : Timely reusedRun ∧
    ∀ before later, reusedRun = before ++ later → (after before).Bounded := by
  have htimely : Timely reusedRun := by decide
  exact ⟨htimely, (queue_bounded_iff reusedRun htimely).mpr (by decide +kernel)⟩

/-- One connection is closed and opened again, many times at once. -/
def churn : ℕ → List Call
  | 0 => []
  | n + 1 => churn n ++ [.insert reusedKey 0, .remove reusedKey]

theorem times_churn (n : ℕ) : (churn n).filterMap Call.time? = List.replicate n 0 := by
  induction n with
  | zero => rfl
  | succ n ih =>
      rw [churn, List.filterMap_append, ih, List.replicate_succ']
      rfl

theorem timely_churn (n : ℕ) : Timely (churn n) := by
  rw [Timely, times_churn]
  exact List.pairwise_replicate.mpr (.inr le_rfl)

theorem after_churn (n : ℕ) : (after (churn n)).byKey.size = 0 ∧
    (after (churn n)).order = List.replicate n (tcpTombstoneTtl, reusedKey) := by
  induction n with
  | zero => exact ⟨rfl, rfl⟩
  | succ n ih =>
      obtain ⟨hsize, horder⟩ := ih
      have hkept := kept_after (timely_churn n)
      have hle : clock (churn n) ≤ 0 := by
        rw [clock, times_churn, List.getLast?_replicate]
        split_ifs <;> exact le_rfl
      obtain ⟨-, hentered, hlookup, hcount⟩ := hkept.entered_spec hle reusedKey
      have hone : ((after (churn n)).entered reusedKey 0).byKey.size = 1 := by
        have hnone : (after (churn n)).byKey.lookup reusedKey = none := by
          by_contra hsome
          obtain ⟨d, hd⟩ := Option.ne_none_iff_exists'.mp hsome
          have := Table.size_erase hd
          omega
        have htally := Table.tally_le_size (fun d ↦ decide (0 < d)) (after (churn n)).byKey
        rw [hcount, Table.tally_insert_of_absent _ hnone]
        simp only [hsize, nonpos_iff_eq_zero] at htally
        rw [htally]
        rfl
      have hsmall : ((after (churn n)).entered reusedKey 0).byKey.size ≤ tcpTombstoneMax := by
        rw [hone]
        decide
      have hinsert : (after (churn n)).insert reusedKey 0 =
          (after (churn n)).entered reusedKey 0 := shrinkLoop_of_le hsmall
      have hafter : after (churn (n + 1)) =
          ((after (churn n)).entered reusedKey 0).remove reusedKey := by
        rw [churn, after, runFrom_append, ← after, ← hinsert]
        rfl
      rw [hafter]
      constructor
      · have herase := Table.size_erase ((hlookup reusedKey).trans (if_pos rfl))
        rw [hone] at herase
        exact Nat.succ.inj herase
      · change ((after (churn n)).entered reusedKey 0).order = _
        rw [hentered, horder, List.filter_replicate_of_pos (by decide), List.replicate_succ']
        rfl

theorem not_queue_bounded_churn : Timely (churn (2 * tcpTombstoneMax + 1)) ∧
    ¬ (after (churn (2 * tcpTombstoneMax + 1))).Bounded := by
  refine ⟨timely_churn _, fun h ↦ ?_⟩
  rw [Bounded, (after_churn _).2, List.length_replicate] at h
  omega

end TcpTombstones

end Bazalt.Flow
