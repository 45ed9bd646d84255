import Bazalt.Topology.Tracker

/-!
# What the tracker counts is what was observed

A packet is counted in the local map of the observer that saw it, then in the shared map or
in the overflow bucket.  As long as no source expires and no counter is at its limit, the
counters add up to what was observed, wherever the packets are counted by now.
-/

namespace Bazalt.Topology

open Lib

/-- The two numbers that are counted. -/
inductive Kind where
  | packets
  | bytes
  deriving DecidableEq, Repr

def PendingCounters.total (k : Kind) (c : PendingCounters) : ℕ :=
  match k with
  | .packets => c.packets
  | .bytes => c.bytes

def SourceState.total (k : Kind) (s : SourceState) : ℕ :=
  match k with
  | .packets => s.packetsTotal
  | .bytes => s.bytesTotal

/-- What one packet adds. -/
def Kind.amount (k : Kind) (wireLen : ℕ) : ℕ :=
  match k with
  | .packets => 1
  | .bytes => wireLen

theorem lt_of_satAdd_lt {a b : ℕ} (h : satAdd a b < u64Max) : satAdd a b = a + b :=
  satAdd_of_le (by rw [satAdd] at h; omega)

@[simp] theorem SourceState.total_merge (k : Kind) (s : SourceState) (c : PendingCounters)
    (second now : ℕ) : (s.merge c second now).total k = satAdd (s.total k) (c.total k) := by
  cases k <;> rfl

@[simp] theorem SourceState.total_new (k : Kind) (now : ℕ) : (SourceState.new now).total k = 0 := by
  cases k <;> rfl

@[simp] theorem PendingCounters.total_default (k : Kind) : ({} : PendingCounters).total k = 0 := by
  cases k <;> rfl

@[simp] theorem PendingCounters.total_packet (k : Kind) (c : PendingCounters) (tsNs wireLen : ℕ) :
    (c.packet tsNs wireLen).total k = satAdd (c.total k) (k.amount wireLen) := by
  cases k <;> rfl

/-! ## The shared state -/

namespace TopologyState

/-- What the tracked sources and the overflow bucket count. -/
def total (k : Kind) (s : TopologyState) : ℕ :=
  s.sources.total (SourceState.total k) + (s.overflow.map (SourceState.total k)).getD 0

/-- No counter is at its limit. -/
structure Below (s : TopologyState) : Prop where
  sources : ∀ ip source, s.sources.lookup ip = some source → ∀ k, source.total k < u64Max
  overflow : ∀ o ∈ s.overflow, ∀ k, o.total k < u64Max

end TopologyState

section

variable {t : TopologyTracker}

/-- The counters of a source arrive in full, if they arrive below the limit. -/
theorem total_mergeOne {second now : ℕ} {s : TopologyState} {e : Σ _ : Ipv4Addr, PendingCounters}
    (h : (t.mergeOne second now s e).Below) :
    s.Below ∧ (∀ k, e.2.total k < u64Max) ∧
      ∀ k, (t.mergeOne second now s e).total k = s.total k + e.2.total k := by
  unfold TopologyTracker.mergeOne at h ⊢
  cases hlookup : s.sources.lookup e.1 with
  | some source =>
      rw [hlookup] at h
      dsimp only at h ⊢
      have hnew : ∀ k, satAdd (source.total k) (e.2.total k) < u64Max := fun k ↦ by
        have hsource := h.sources e.1 _ (AList.lookup_insert _) k
        rwa [SourceState.total_merge] at hsource
      refine ⟨⟨fun ip other hother k ↦ ?_, h.overflow⟩, fun k ↦ ?_, fun k ↦ ?_⟩
      · by_cases hip : ip = e.1
        · subst hip
          obtain rfl := Option.some.inj (hlookup.symm.trans hother)
          have hexact := lt_of_satAdd_lt (hnew k)
          have hlt := hnew k
          omega
        · exact h.sources ip other (by rwa [AList.lookup_insert_ne hip]) k
      · have hexact := lt_of_satAdd_lt (hnew k)
        have hlt := hnew k
        omega
      · have hexact := lt_of_satAdd_lt (hnew k)
        have hsum := Table.total_insert (SourceState.total k) hlookup (source.merge e.2 second now)
        rw [SourceState.total_merge, hexact] at hsum
        simp only [TopologyState.total]
        omega
  | none =>
      rw [hlookup] at h
      dsimp only at h ⊢
      split_ifs at h ⊢ with hroom
      · have hnew : ∀ k, satAdd 0 (e.2.total k) < u64Max := fun k ↦ by
          have hsource := h.sources e.1 _ (AList.lookup_insert _) k
          rwa [SourceState.total_merge, SourceState.total_new] at hsource
        refine ⟨⟨fun ip other hother k ↦ ?_, h.overflow⟩, fun k ↦ ?_, fun k ↦ ?_⟩
        · by_cases hip : ip = e.1
          · subst hip
            cases hlookup.symm.trans hother
          · exact h.sources ip other (by rwa [AList.lookup_insert_ne hip]) k
        · have hexact := lt_of_satAdd_lt (hnew k)
          have hlt := hnew k
          omega
        · have hexact := lt_of_satAdd_lt (hnew k)
          simp only [TopologyState.total, Table.total_insert_of_absent _ hlookup,
            SourceState.total_merge, SourceState.total_new]
          omega
      · have hnew : ∀ k, satAdd ((s.overflow.getD (.new now)).total k) (e.2.total k) < u64Max :=
          fun k ↦ by
            have hoverflow := h.overflow _ rfl k
            rwa [SourceState.total_merge] at hoverflow
        have hbefore : ∀ k, (s.overflow.getD (.new now)).total k =
            (s.overflow.map (SourceState.total k)).getD 0 := fun k ↦ by
          cases s.overflow with
          | none => simp
          | some o => rfl
        refine ⟨⟨h.sources, fun o ho k ↦ ?_⟩, fun k ↦ ?_, fun k ↦ ?_⟩
        · have hlt := hnew k
          rw [lt_of_satAdd_lt hlt, hbefore, Option.mem_def.mp ho] at hlt
          simp only [Option.map_some, Option.getD_some] at hlt
          omega
        · have hlt := hnew k
          rw [lt_of_satAdd_lt hlt] at hlt
          omega
        · have hexact := lt_of_satAdd_lt (hnew k)
          rw [hbefore] at hexact
          simp only [TopologyState.total, Option.map_some, Option.getD_some,
            SourceState.total_merge, hbefore]
          omega

theorem total_foldl_mergeOne {second now : ℕ} {es : List (Σ _ : Ipv4Addr, PendingCounters)} :
    ∀ {s : TopologyState}, (es.foldl (t.mergeOne second now) s).Below →
      s.Below ∧ (∀ e ∈ es, ∀ k, e.2.total k < u64Max) ∧
        ∀ k, (es.foldl (t.mergeOne second now) s).total k =
          s.total k + (es.map fun e ↦ e.2.total k).sum := by
  induction es with
  | nil => exact fun h ↦ ⟨h, by simp, fun k ↦ rfl⟩
  | cons e es ih =>
      intro s h
      obtain ⟨hstep, hall, hsum⟩ := ih h
      obtain ⟨hbelow, hfirst, hone⟩ := total_mergeOne hstep
      refine ⟨hbelow, List.forall_mem_cons.mpr ⟨hfirst, hall⟩, fun k ↦ ?_⟩
      rw [List.foldl_cons, hsum, hone, List.map_cons, List.sum_cons, Nat.add_assoc]

/-- Merging moves what the local map counts, unless a source expires. -/
theorem total_mergeBatch {order : Shuffle (Σ _ : Ipv4Addr, PendingCounters)} {now second : ℕ}
    {s : TopologyState} {pending : Pending}
    (hkept : pending.entries.isEmpty = false → (t.collect now s).sources = s.sources)
    (h : (t.mergeBatch order now second s pending).Below) :
    s.Below ∧ (∀ e ∈ pending.entries, ∀ k, e.2.total k < u64Max) ∧
      ∀ k, (t.mergeBatch order now second s pending).total k =
        s.total k + pending.total (PendingCounters.total k) := by
  unfold TopologyTracker.mergeBatch at h ⊢
  split_ifs at h ⊢ with hempty
  · have hnil := List.isEmpty_iff.mp hempty
    refine ⟨h, by simp [hnil], fun k ↦ by simp [Table.total, hnil]⟩
  · have hoverflow : (t.collect now s).overflow = s.overflow := by
      unfold TopologyTracker.collect
      split_ifs <;> rfl
    have hsources := hkept (by simpa using hempty)
    obtain ⟨hbelow, hall, hsum⟩ := total_foldl_mergeOne h
    refine ⟨⟨?_, ?_⟩, fun e he ↦ hall e ((order.perm _).mem_iff.mpr he), fun k ↦ ?_⟩
    · rw [← hsources]
      exact hbelow.sources
    · rw [← hoverflow]
      exact hbelow.overflow
    · rw [hsum, ((order.perm _).map _).sum_eq, TopologyState.total, hsources, hoverflow]
      rfl

end

/-! ## Observers -/

namespace LocalTopologyObserver

variable {o : LocalTopologyObserver}

def total (k : Kind) (o : LocalTopologyObserver) : ℕ := o.pending.total (PendingCounters.total k)

def Below (o : LocalTopologyObserver) : Prop := ∀ e ∈ o.pending.entries, ∀ k, e.2.total k < u64Max

theorem below_iff_lookup :
    o.Below ↔ ∀ ip c, o.pending.lookup ip = some c → ∀ k, c.total k < u64Max :=
  Table.forall_entries_iff (P := fun _ c ↦ ∀ k, PendingCounters.total k c < u64Max)

/-- A packet is counted, if its counters stay below the limit. -/
theorem total_count {tsNs wireLen : ℕ} {ip : Ipv4Addr} (h : (o.count tsNs wireLen ip).Below) :
    o.Below ∧ ∀ k, (o.count tsNs wireLen ip).total k = o.total k + k.amount wireLen := by
  have hnew : ∀ k, satAdd (((o.pending.lookup ip).getD {}).total k) (k.amount wireLen) < u64Max :=
    fun k ↦ by
      have hlt := below_iff_lookup.mp h ip _ (AList.lookup_insert _) k
      rwa [PendingCounters.total_packet] at hlt
  have hothers : ∀ ip' c', ip' ≠ ip → o.pending.lookup ip' = some c' → ∀ k, c'.total k < u64Max := by
    intro ip' c' hip hc' k
    refine below_iff_lookup.mp h ip' c' ?_ k
    rwa [count, AList.lookup_insert_ne hip]
  cases hlookup : o.pending.lookup ip with
  | some c =>
      rw [hlookup, Option.getD_some] at hnew
      refine ⟨below_iff_lookup.mpr fun ip' c' hc' k ↦ ?_, fun k ↦ ?_⟩
      · by_cases hip : ip' = ip
        · subst hip
          obtain rfl := Option.some.inj (hlookup.symm.trans hc')
          have hlt := hnew k
          rw [lt_of_satAdd_lt hlt] at hlt
          omega
        · exact hothers ip' c' hip hc' k
      · have hsum :=
          Table.total_insert (PendingCounters.total k) hlookup (c.packet tsNs wireLen)
        rw [PendingCounters.total_packet, lt_of_satAdd_lt (hnew k)] at hsum
        simp only [total, count, hlookup, Option.getD_some]
        omega
  | none =>
      rw [hlookup, Option.getD_none] at hnew
      refine ⟨below_iff_lookup.mpr fun ip' c' hc' k ↦ ?_, fun k ↦ ?_⟩
      · by_cases hip : ip' = ip
        · subst hip
          cases hlookup.symm.trans hc'
        · exact hothers ip' c' hip hc' k
      · have hexact := lt_of_satAdd_lt (hnew k)
        rw [PendingCounters.total_default] at hexact
        simp only [total, count, hlookup, Option.getD_none,
          Table.total_insert_of_absent _ hlookup, PendingCounters.total_packet,
          PendingCounters.total_default]
        omega

end LocalTopologyObserver

/-! ## Runs -/

/-- The packet of an event. -/
def TopologyEvent.amount {ι : Type} (k : Kind) : TopologyEvent ι → ℕ
  | .observe _ _ wireLen _ _ _ => k.amount wireLen
  | _ => 0

/-- A merge takes no expired source away. -/
def TopologyTracker.Keeps (t : TopologyTracker) (now : ℕ) (s : TopologyState) : Prop :=
  (t.collect now s).sources = s.sources

namespace Tracked

variable {ι : Type}

/-- A call takes no expired source away. -/
def NoneExpires (t : TopologyTracker) (w : Tracked ι) : TopologyEvent ι → Prop
  | .observe i tsNs wireLen ip _ clock =>
      (decide (maxLocalSourcesBeforeFlush ≤ ((w.locals i).count tsNs wireLen ip).pending.size) ||
        ((w.locals i).count tsNs wireLen ip).overdue clock.check) = true → t.Keeps clock.now w.shared
  | .flush i _ clock => (w.locals i).pending.entries.isEmpty = false → t.Keeps clock.now w.shared
  | .flushIfDue i _ clock =>
      (!(w.locals i).pending.entries.isEmpty && (w.locals i).overdue clock.check) = true →
        t.Keeps clock.now w.shared
  | .snapshot now _ => t.retain now w.shared.sources = w.shared.sources

/-- No counter is at its limit. -/
structure Below (w : Tracked ι) : Prop where
  shared : w.shared.Below
  locals : ∀ i, (w.locals i).Below

variable [DecidableEq ι] [Fintype ι]

/-- What is counted anywhere. -/
def total (k : Kind) (w : Tracked ι) : ℕ := w.shared.total k + ∑ i, (w.locals i).total k

/-- What a call of one observer adds is what it adds to its map and the shared one. -/
theorem total_pool {w : Tracked ι} {i : ι} {a : Kind → ℕ}
    {next : TopologyState → LocalTopologyObserver → TopologyState × LocalTopologyObserver}
    (hnext : (next w.shared (w.locals i)).1.Below → (next w.shared (w.locals i)).2.Below →
      w.shared.Below ∧ (w.locals i).Below ∧ ∀ k,
        (next w.shared (w.locals i)).1.total k + (next w.shared (w.locals i)).2.total k =
          w.shared.total k + (w.locals i).total k + a k)
    (h : Below (Pool.step next w i)) :
    Below w ∧ ∀ k, total k (Pool.step next w i) = total k w + a k := by
  have hself := h.locals i
  rw [Pool.locals_step_self] at hself
  obtain ⟨hshared, hlocal, hsum⟩ := hnext h.shared hself
  refine ⟨⟨hshared, fun j ↦ ?_⟩, fun k ↦ ?_⟩
  · by_cases hj : j = i
    · subst hj
      exact hlocal
    · have hother := h.locals j
      rwa [Pool.locals_step_of_ne hj] at hother
  · have hlocals : ∑ j, ((Pool.step next w i).locals j).total k + (w.locals i).total k =
        ∑ j, (w.locals j).total k + (next w.shared (w.locals i)).2.total k :=
      Pool.sum_locals_step (LocalTopologyObserver.total k) i
    have hone := hsum k
    simp only [total, Pool.shared_step]
    omega

end Tracked

section

variable {t : TopologyTracker} {order : Shuffle (Σ _ : Ipv4Addr, PendingCounters)}
  {clock : Readings} {s : TopologyState} {o : LocalTopologyObserver}

theorem total_flush (hkept : o.pending.entries.isEmpty = false → t.Keeps clock.now s)
    (h : (o.flush t order clock s).1.Below) :
    s.Below ∧ o.Below ∧ ∀ k, (o.flush t order clock s).1.total k +
      (o.flush t order clock s).2.total k = s.total k + o.total k := by
  obtain ⟨hshared, hlocal, hsum⟩ := total_mergeBatch hkept h
  refine ⟨hshared, hlocal, fun k ↦ ?_⟩
  have hempty : (o.flush t order clock s).2.total k = 0 := rfl
  rw [hempty, Nat.add_zero]
  exact hsum k

theorem total_observeIpv4Source {tsNs wireLen : ℕ} {ip : Ipv4Addr}
    (hkept : (decide (maxLocalSourcesBeforeFlush ≤ (o.count tsNs wireLen ip).pending.size) ||
      (o.count tsNs wireLen ip).overdue clock.check) = true → t.Keeps clock.now s)
    (h : (o.observeIpv4Source t order clock tsNs wireLen ip s).1.Below)
    (h' : (o.observeIpv4Source t order clock tsNs wireLen ip s).2.Below) :
    s.Below ∧ o.Below ∧ ∀ k, (o.observeIpv4Source t order clock tsNs wireLen ip s).1.total k +
      (o.observeIpv4Source t order clock tsNs wireLen ip s).2.total k =
        s.total k + o.total k + k.amount wireLen := by
  unfold LocalTopologyObserver.observeIpv4Source at h h' ⊢
  dsimp only at h h' ⊢
  split_ifs at h h' ⊢ with hdue
  · obtain ⟨hshared, hcounted, hsum⟩ := total_flush (fun _ ↦ hkept hdue) h
    obtain ⟨hlocal, hcount⟩ := LocalTopologyObserver.total_count hcounted
    refine ⟨hshared, hlocal, fun k ↦ ?_⟩
    rw [hsum, hcount, Nat.add_assoc]
  · obtain ⟨hlocal, hcount⟩ := LocalTopologyObserver.total_count h'
    refine ⟨h, hlocal, fun k ↦ ?_⟩
    rw [hcount, Nat.add_assoc]

theorem total_flushIfDue
    (hkept : (!o.pending.entries.isEmpty && o.overdue clock.check) = true → t.Keeps clock.now s)
    (h : (o.flushIfDue t order clock s).1.Below) (h' : (o.flushIfDue t order clock s).2.Below) :
    s.Below ∧ o.Below ∧ ∀ k, (o.flushIfDue t order clock s).1.total k +
      (o.flushIfDue t order clock s).2.total k = s.total k + o.total k := by
  unfold LocalTopologyObserver.flushIfDue at h h' ⊢
  split_ifs at h h' ⊢ with hdue
  · exact total_flush (fun _ ↦ hkept hdue) h
  · exact ⟨h, h', fun _ ↦ rfl⟩

theorem entries_afterSnapshot {R : Type} (fl : Rates R) (now nowSecond : ℕ) :
    (t.afterSnapshot fl now nowSecond s).sources.entries =
      (t.retain now s.sources).entries.map fun e ↦ ⟨e.1, (e.2.rates fl nowSecond).1⟩ := rfl

/-- A snapshot trims the buckets and counts nothing. -/
theorem total_afterSnapshot {R : Type} {fl : Rates R} {now nowSecond : ℕ}
    (hkept : t.retain now s.sources = s.sources) (h : (t.afterSnapshot fl now nowSecond s).Below) :
    s.Below ∧ ∀ k, (t.afterSnapshot fl now nowSecond s).total k = s.total k := by
  have hrates : ∀ k, ∀ source : SourceState,
      (source.rates fl nowSecond).1.total k = source.total k := fun k source ↦ by cases k <;> rfl
  have hsources : ∀ e ∈ (t.afterSnapshot fl now nowSecond s).sources.entries,
      ∀ k, e.2.total k < u64Max :=
    (Table.forall_entries_iff (P := fun _ source ↦ ∀ k, SourceState.total k source < u64Max)).mpr
      h.sources
  rw [entries_afterSnapshot, hkept, List.forall_mem_map] at hsources
  refine ⟨⟨?_, fun o ho k ↦ ?_⟩, fun k ↦ ?_⟩
  · refine (Table.forall_entries_iff
      (P := fun _ source ↦ ∀ k, SourceState.total k source < u64Max)).mp fun e he k ↦ ?_
    rw [← hrates]
    exact hsources e he k
  · rw [← hrates]
    refine h.overflow (o.rates fl nowSecond).1 ?_ k
    rw [TopologyTracker.afterSnapshot, Option.mem_def.mp ho]
    rfl
  · simp only [TopologyState.total, TopologyTracker.afterSnapshot, Table.total, hkept,
      List.map_map, Option.map_map, Function.comp_def, hrates]

end

namespace Tracked

variable {ι : Type} [DecidableEq ι] [Fintype ι] {t : TopologyTracker} {R : Type} {fl : Rates R}

/-- One call counts its packet. -/
theorem total_step {w : Tracked ι} {e : TopologyEvent ι} (hkept : NoneExpires t w e)
    (h : Below (step t fl w e)) :
    Below w ∧ ∀ k, total k (step t fl w e) = total k w + e.amount k := by
  cases e with
  | observe i tsNs wireLen ip order clock =>
      exact total_pool (total_observeIpv4Source hkept) h
  | flush i order clock => exact total_pool (fun h' _ ↦ total_flush hkept h') h
  | flushIfDue i order clock => exact total_pool (total_flushIfDue hkept) h
  | snapshot now nowSecond =>
      obtain ⟨hshared, hsum⟩ := total_afterSnapshot hkept h.shared
      refine ⟨⟨hshared, h.locals⟩, fun k ↦ ?_⟩
      rw [total, step, hsum k]
      rfl

/-- What was observed is counted. -/
theorem total_run {events : List (TopologyEvent ι)} :
    ∀ {w : Tracked ι}, Along (step t fl) (NoneExpires t) w events →
      Below (runFrom (step t fl) w events) → Below w ∧
        ∀ k, total k (runFrom (step t fl) w events) =
          total k w + (events.map (TopologyEvent.amount k)).sum := by
  induction events with
  | nil => exact fun _ h ↦ ⟨h, fun k ↦ rfl⟩
  | cons e events ih =>
      intro w halong h
      obtain ⟨hstep, hsum⟩ := ih halong.2 h
      obtain ⟨hbelow, hone⟩ := total_step halong.1 hstep
      refine ⟨hbelow, fun k ↦ ?_⟩
      rw [runFrom_cons, hsum, hone, List.map_cons, List.sum_cons, Nat.add_assoc]

omit [DecidableEq ι] in
theorem total_start (k : Kind) (lastFlush : ι → ℕ) : total k (start lastFlush) = 0 := by
  have hpending : ∀ i, ((start lastFlush : Tracked ι).locals i).total k = 0 := fun i ↦ rfl
  rw [total, Finset.sum_congr rfl fun i _ ↦ hpending i, Finset.sum_const_zero]
  rfl

end Tracked

end Bazalt.Topology
