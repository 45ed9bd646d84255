import Bazalt.Topology.Conservation

/-!
# What a snapshot shows

The totals of a snapshot are taken over all sources that are tracked and over the overflow
bucket, before the view is cut down.  The groups have the same totals, each source is in the
group of its network, and the view keeps the first groups and the first sources of the last
of them.
-/

namespace Bazalt.Topology

open Lib

/-! ## Capacity -/

section

variable {t : TopologyTracker} {s : TopologyState}

theorem size_retain (now : ℕ) (sources : Table Ipv4Addr SourceState) :
    (t.retain now sources).size ≤ sources.size := List.length_filter_le _ _

theorem size_mergeOne {second now : ℕ} {e : Σ _ : Ipv4Addr, PendingCounters}
    (h : s.sources.size ≤ t.maxSources) :
    (t.mergeOne second now s e).sources.size ≤ t.maxSources := by
  unfold TopologyTracker.mergeOne
  cases hlookup : s.sources.lookup e.1 with
  | some source =>
      dsimp only
      rwa [Table.size_insert hlookup]
  | none =>
      dsimp only
      split_ifs with hroom
      · rw [Table.size_insert_of_absent hlookup]
        exact hroom
      · exact h

theorem size_foldl_mergeOne {second now : ℕ} {es : List (Σ _ : Ipv4Addr, PendingCounters)} :
    ∀ {s : TopologyState}, s.sources.size ≤ t.maxSources →
      (es.foldl (t.mergeOne second now) s).sources.size ≤ t.maxSources := by
  induction es with
  | nil => exact fun h ↦ h
  | cons e es ih => exact fun h ↦ ih (size_mergeOne h)

theorem size_mergeBatch {order : Shuffle (Σ _ : Ipv4Addr, PendingCounters)} {now second : ℕ}
    {pending : Pending} (h : s.sources.size ≤ t.maxSources) :
    (t.mergeBatch order now second s pending).sources.size ≤ t.maxSources := by
  unfold TopologyTracker.mergeBatch
  split_ifs
  · exact h
  · refine size_foldl_mergeOne ?_
    unfold TopologyTracker.collect
    split_ifs
    · exact (size_retain _ _).trans h
    · exact h

/-- No call makes the shared map larger than its capacity. -/
theorem size_step {ι : Type} [DecidableEq ι] {R : Type} {fl : Rates R} (w : Tracked ι)
    (e : TopologyEvent ι) (h : w.shared.sources.size ≤ t.maxSources) :
    (Tracked.step t fl w e).shared.sources.size ≤ t.maxSources := by
  cases e with
  | observe i tsNs wireLen ip order clock =>
      rw [Tracked.step, Pool.shared_step, LocalTopologyObserver.observeIpv4Source]
      split_ifs
      · exact size_mergeBatch h
      · exact h
  | flush i order clock => exact size_mergeBatch h
  | flushIfDue i order clock =>
      rw [Tracked.step, Pool.shared_step, LocalTopologyObserver.flushIfDue]
      split_ifs
      · exact size_mergeBatch h
      · exact h
  | snapshot now nowSecond =>
      have hretain : (t.retain now w.shared.sources).size ≤ _ := size_retain now _
      rw [Tracked.step, Table.size, entries_afterSnapshot, List.length_map]
      exact hretain.trans h

end

/-! ## Totals -/

def TopologySourceSnapshot.total {R : Type} (k : Kind) (row : TopologySourceSnapshot R) : ℕ :=
  match k with
  | .packets => row.packetsTotal
  | .bytes => row.bytesTotal

def TopologyGroupSnapshot.total {R : Type} (k : Kind) (g : TopologyGroupSnapshot R) : ℕ :=
  match k with
  | .packets => g.packetsTotal
  | .bytes => g.bytesTotal

namespace TopologySnapshot

variable {R : Type}

def total (k : Kind) (snap : TopologySnapshot R) : ℕ :=
  match k with
  | .packets => snap.packetsTotal
  | .bytes => snap.bytesTotal

def untracked (k : Kind) (snap : TopologySnapshot R) : ℕ :=
  match k with
  | .packets => snap.untrackedPacketsTotal
  | .bytes => snap.untrackedBytesTotal

end TopologySnapshot

/-- A sum that is below the limit was not cut off anywhere. -/
theorem foldl_satAdd_of_lt {α : Type} {f : α → ℕ} {l : List α} :
    ∀ {n : ℕ}, l.foldl (fun n a ↦ satAdd n (f a)) n < u64Max →
      l.foldl (fun n a ↦ satAdd n (f a)) n = n + (l.map f).sum := by
  induction l with
  | nil => exact fun _ ↦ rfl
  | cons a l ih =>
      intro n h
      rw [List.foldl_cons] at h ⊢
      have hrest := ih h
      have hexact : satAdd n (f a) = n + f a := lt_of_satAdd_lt (by omega)
      rw [hrest, hexact, List.map_cons, List.sum_cons, Nat.add_assoc]

theorem foldl_satAdd_of_le {l : List ℕ} :
    ∀ {n : ℕ}, n + l.sum ≤ u64Max → l.foldl satAdd n = n + l.sum := by
  induction l with
  | nil => exact fun _ ↦ rfl
  | cons a l ih =>
      intro n h
      rw [List.sum_cons] at h ⊢
      rw [List.foldl_cons, satAdd_of_le (by omega), ih (by omega), Nat.add_assoc]

section

variable {t : TopologyTracker} {R : Type} {fl : Rates R} {orders : SnapshotOrder R}
  {now nowSecond : ℕ} {s : TopologyState}

theorem total_rows (k : Kind) :
    ((t.rows fl orders now nowSecond s).map (TopologySourceSnapshot.total k)).sum =
      (t.retain now s.sources).total (SourceState.total k) := by
  have hrow : ∀ e : Σ _ : Ipv4Addr, SourceState,
      (TopologyTracker.sourceRow fl nowSecond e).total k = e.2.total k := fun e ↦ by cases k <;> rfl
  rw [TopologyTracker.rows, List.map_map, ((orders.sources.perm _).map _).sum_eq, Table.total]
  exact congrArg List.sum (List.map_congr_left fun e _ ↦ hrow e)

theorem untracked_snapshot (k : Kind) :
    (t.snapshot fl orders now nowSecond s).untracked k =
      (s.overflow.map (SourceState.total k)).getD 0 := by
  unfold TopologyTracker.snapshot TopologySnapshot.untracked
  cases s.overflow <;> cases k <;> rfl

/-- The totals of a snapshot that is below the limit. -/
theorem total_snapshot {k : Kind} (h : (t.snapshot fl orders now nowSecond s).total k < u64Max) :
    (t.snapshot fl orders now nowSecond s).total k =
      (t.snapshot fl orders now nowSecond s).untracked k +
        ((t.rows fl orders now nowSecond s).map (TopologySourceSnapshot.total k)).sum := by
  cases k with
  | packets => exact foldl_satAdd_of_lt h
  | bytes => exact foldl_satAdd_of_lt h

end

/-! ## Groups -/

section

variable {t : TopologyTracker} {R : Type} {fl : Rates R}

@[simp] theorem total_addToGroup (k : Kind) (g : TopologyGroupSnapshot R)
    (row : TopologySourceSnapshot R) :
    (TopologyTracker.addToGroup fl g row).total k = satAdd (g.total k) (row.total k) := by
  cases k <;> rfl

@[simp] theorem total_newGroup (k : Kind) (network : Ipv4Addr) :
    (TopologyTracker.newGroup fl network).total k = 0 := by
  cases k <;> rfl

/-- A row adds to its group, if the groups stay below the limit together. -/
theorem total_addRow {k : Kind} {groups : Table Ipv4Addr (TopologyGroupSnapshot R)}
    {row : TopologySourceSnapshot R}
    (h : groups.total (TopologyGroupSnapshot.total k) + row.total k < u64Max) :
    (t.addRow fl groups row).total (TopologyGroupSnapshot.total k) =
      groups.total (TopologyGroupSnapshot.total k) + row.total k := by
  unfold TopologyTracker.addRow
  cases hlookup : groups.lookup (networkFor row.ip t.groupPrefixV4) with
  | some g =>
      have hsum := Table.total_insert (TopologyGroupSnapshot.total k) hlookup
        (TopologyTracker.addToGroup fl g row)
      have hin := Table.total_erase (TopologyGroupSnapshot.total k) hlookup
      rw [total_addToGroup, satAdd_of_le (by omega)] at hsum
      simp only [hlookup, Option.getD_some]
      omega
  | none =>
      simp only [hlookup, Option.getD_none, Table.total_insert_of_absent _ hlookup,
        total_addToGroup, total_newGroup]
      rw [satAdd_of_le (by omega), Nat.zero_add]

theorem total_foldl_addRow {k : Kind} {rows : List (TopologySourceSnapshot R)} :
    ∀ {groups : Table Ipv4Addr (TopologyGroupSnapshot R)},
      groups.total (TopologyGroupSnapshot.total k) +
          (rows.map (TopologySourceSnapshot.total k)).sum < u64Max →
      (rows.foldl (t.addRow fl) groups).total (TopologyGroupSnapshot.total k) =
        groups.total (TopologyGroupSnapshot.total k) +
          (rows.map (TopologySourceSnapshot.total k)).sum := by
  induction rows with
  | nil => exact fun _ ↦ rfl
  | cons row rows ih =>
      intro groups h
      rw [List.map_cons, List.sum_cons] at h ⊢
      have hstep : (t.addRow fl groups row).total (TopologyGroupSnapshot.total k) = _ :=
        total_addRow (by omega)
      rw [List.foldl_cons, ih (by omega), hstep, Nat.add_assoc]

/-- The groups hold the rows, each in the group of its network. -/
structure Grouped (t : TopologyTracker) (rows : List (TopologySourceSnapshot R))
    (groups : Table Ipv4Addr (TopologyGroupSnapshot R)) : Prop where
  rows : (groups.entries.flatMap fun e ↦ e.2.sources).Perm rows
  network : ∀ e ∈ groups.entries, e.2.network = e.1
  member : ∀ e ∈ groups.entries, ∀ row ∈ e.2.sources, networkFor row.ip t.groupPrefixV4 = e.1

theorem Grouped.addRow {rows : List (TopologySourceSnapshot R)}
    {groups : Table Ipv4Addr (TopologyGroupSnapshot R)} (h : Grouped t rows groups)
    (row : TopologySourceSnapshot R) : Grouped t (rows ++ [row]) (t.addRow fl groups row) := by
  obtain ⟨hrows, hnetwork, hmember⟩ := h
  have herase : ∀ e ∈ (groups.erase (networkFor row.ip t.groupPrefixV4)).entries,
      e ∈ groups.entries := fun e he ↦ (List.kerase_sublist _ _).subset he
  have hgroup : ∃ g, (groups.lookup (networkFor row.ip t.groupPrefixV4)).getD
        (TopologyTracker.newGroup fl (networkFor row.ip t.groupPrefixV4)) = g ∧
      g.network = networkFor row.ip t.groupPrefixV4 ∧
      (∀ r ∈ g.sources, networkFor r.ip t.groupPrefixV4 = networkFor row.ip t.groupPrefixV4) ∧
      (g.sources ++ (groups.erase (networkFor row.ip t.groupPrefixV4)).entries.flatMap
        fun e ↦ e.2.sources).Perm rows := by
    cases hlookup : groups.lookup (networkFor row.ip t.groupPrefixV4) with
    | some g =>
        have hmem := AList.mem_lookup_iff.mp hlookup
        refine ⟨g, rfl, hnetwork _ hmem, hmember _ hmem, ?_⟩
        have hperm := (Table.entries_perm hlookup).flatMap_right fun e ↦ e.2.sources
        rw [List.flatMap_cons] at hperm
        exact hperm.symm.trans hrows
    | none =>
        refine ⟨_, rfl, rfl, by simp [TopologyTracker.newGroup], ?_⟩
        have hsame : groups.erase (networkFor row.ip t.groupPrefixV4) = groups := by
          refine AList.ext ?_
          exact List.kerase_of_notMem_keys (AList.lookup_eq_none.mp hlookup)
        rw [hsame]
        exact hrows
  obtain ⟨g, hg, hgnetwork, hgmember, hperm⟩ := hgroup
  have hentries : (t.addRow fl groups row).entries =
      ⟨networkFor row.ip t.groupPrefixV4, TopologyTracker.addToGroup fl g row⟩ ::
        (groups.erase (networkFor row.ip t.groupPrefixV4)).entries := by
    rw [TopologyTracker.addRow, hg, AList.entries_insert]
    rfl
  refine ⟨?_, ?_, ?_⟩
  · rw [hentries, List.flatMap_cons]
    change (g.sources ++ [row] ++ _).Perm _
    rw [List.append_assoc]
    exact (List.perm_append_comm.append_left _).trans
      (by rw [← List.append_assoc]; exact hperm.append_right _)
  · rw [hentries]
    exact List.forall_mem_cons.mpr ⟨hgnetwork, fun e he ↦ hnetwork e (herase e he)⟩
  · rw [hentries]
    refine List.forall_mem_cons.mpr ⟨fun r hr ↦ ?_, fun e he ↦ hmember e (herase e he)⟩
    rcases List.mem_append.mp hr with hold | hnew
    · exact hgmember r hold
    · rw [List.mem_singleton.mp hnew]

theorem grouped_foldl {rows : List (TopologySourceSnapshot R)} :
    ∀ {done : List (TopologySourceSnapshot R)}
      {groups : Table Ipv4Addr (TopologyGroupSnapshot R)}, Grouped t done groups →
      Grouped t (done ++ rows) (rows.foldl (t.addRow fl) groups) := by
  induction rows with
  | nil =>
      intro done groups h
      rwa [List.append_nil]
  | cons row rows ih =>
      intro done groups h
      have hsplit : done ++ row :: rows = done ++ [row] ++ rows := by simp
      rw [hsplit]
      exact ih (h.addRow row)

theorem allGroups_perm (orders : SnapshotOrder R) (rows : List (TopologySourceSnapshot R)) :
    (t.allGroups fl orders rows).Perm
      ((rows.foldl (t.addRow fl) ∅).entries.map fun e ↦ TopologyTracker.sortSources fl e.2) := by
  refine (List.mergeSort_perm _ _).trans ?_
  rw [List.map_map]
  exact (orders.groups.perm _).map _

theorem sources_sortSources (g : TopologyGroupSnapshot R) :
    (TopologyTracker.sortSources fl g).sources.Perm g.sources := List.mergeSort_perm _ _

theorem flatMap_sortSources (es : List (Σ _ : Ipv4Addr, TopologyGroupSnapshot R)) :
    ((es.map fun e ↦ TopologyTracker.sortSources fl e.2).flatMap
      TopologyGroupSnapshot.sources).Perm (es.flatMap fun e ↦ e.2.sources) := by
  induction es with
  | nil => exact List.Perm.refl _
  | cons e es ih =>
      rw [List.map_cons, List.flatMap_cons, List.flatMap_cons]
      exact (sources_sortSources e.2).append ih

theorem grouped_rows (rows : List (TopologySourceSnapshot R)) :
    Grouped t rows (rows.foldl (t.addRow fl) ∅) := by
  have hstart : Grouped t [] (∅ : Table Ipv4Addr (TopologyGroupSnapshot R)) :=
    ⟨List.Perm.refl _, fun e he ↦ absurd he List.not_mem_nil,
      fun e he ↦ absurd he List.not_mem_nil⟩
  exact grouped_foldl hstart

/-- Every row is in one group. -/
theorem sources_allGroups (orders : SnapshotOrder R) (rows : List (TopologySourceSnapshot R)) :
    ((t.allGroups fl orders rows).flatMap TopologyGroupSnapshot.sources).Perm rows :=
  ((allGroups_perm orders rows).flatMap_right _).trans
    ((flatMap_sortSources _).trans (grouped_rows rows).rows)

theorem networks_allGroups (orders : SnapshotOrder R) (rows : List (TopologySourceSnapshot R)) :
    ((t.allGroups fl orders rows).map TopologyGroupSnapshot.network).Nodup := by
  refine ((allGroups_perm orders rows).map _).nodup_iff.mpr ?_
  have hkeys : ((rows.foldl (t.addRow fl) ∅).entries.map fun e ↦
      TopologyTracker.sortSources fl e.2).map TopologyGroupSnapshot.network =
        (rows.foldl (t.addRow fl) ∅).entries.keys := by
    rw [List.map_map]
    exact List.map_congr_left (grouped_rows rows).network
  rw [hkeys]
  exact (rows.foldl (t.addRow fl) ∅).nodupKeys

theorem total_allGroups {k : Kind} (orders : SnapshotOrder R)
    {rows : List (TopologySourceSnapshot R)}
    (h : (rows.map (TopologySourceSnapshot.total k)).sum < u64Max) :
    ((t.allGroups fl orders rows).map (TopologyGroupSnapshot.total k)).sum =
      (rows.map (TopologySourceSnapshot.total k)).sum := by
  have hsort : ∀ g : TopologyGroupSnapshot R,
      (TopologyTracker.sortSources fl g).total k = g.total k := fun g ↦ by cases k <;> rfl
  have hsum : (rows.foldl (t.addRow fl) ∅).total (TopologyGroupSnapshot.total k) = _ :=
    total_foldl_addRow (by rwa [Table.total_empty, Nat.zero_add])
  rw [Table.total_empty, Nat.zero_add] at hsum
  rw [((allGroups_perm orders rows).map _).sum_eq, List.map_map, ← hsum, Table.total]
  exact congrArg List.sum (List.map_congr_left fun e _ ↦ hsort e.2)

theorem nodup_ip_rows {orders : SnapshotOrder R} {now nowSecond : ℕ} {s : TopologyState} :
    ((t.rows fl orders now nowSecond s).map TopologySourceSnapshot.ip).Nodup := by
  rw [TopologyTracker.rows, List.map_map]
  exact ((orders.sources.perm _).map _).nodup_iff.mpr (t.retain now s.sources).nodupKeys

end

/-! ## The view -/

/-- A group that lost nothing but sources from its end. -/
def IsCut {R : Type} (shown g : TopologyGroupSnapshot R) : Prop :=
  shown = { g with sources := shown.sources, sourcesTruncated := shown.sourcesTruncated } ∧
    shown.sources <+: g.sources

section

variable {R : Type}

theorem IsCut.network {shown g : TopologyGroupSnapshot R} (h : IsCut shown g) :
    shown.network = g.network := by
  rw [h.1]

/-- The view is a beginning of the groups, with sources cut off. -/
theorem takeView_spec (groups : List (TopologyGroupSnapshot R)) : ∀ budget : ℕ,
    List.Forall₂ IsCut (TopologyTracker.takeView budget groups)
      (groups.take (TopologyTracker.takeView budget groups).length) ∧
    ((TopologyTracker.takeView budget groups).map fun g ↦ g.sources.length).sum ≤ budget := by
  induction groups with
  | nil => exact fun _ ↦ ⟨List.Forall₂.nil, Nat.zero_le _⟩
  | cons g groups ih =>
      intro budget
      rw [TopologyTracker.takeView]
      by_cases hnone : budget = 0
      · rw [if_pos hnone]
        exact ⟨List.Forall₂.nil, Nat.zero_le _⟩
      · rw [if_neg hnone]
        dsimp only
        split_ifs with hover
        · have hlen : (g.sources.take budget).length = budget := by
            rw [List.length_take]
            omega
          obtain ⟨hcut, hsum⟩ := ih (budget - (g.sources.take budget).length)
          refine ⟨List.Forall₂.cons ⟨rfl, List.take_prefix _ _⟩ hcut, ?_⟩
          rw [List.map_cons, List.sum_cons]
          dsimp only at hsum ⊢
          omega
        · obtain ⟨hcut, hsum⟩ := ih (budget - g.sources.length)
          refine ⟨List.Forall₂.cons ⟨rfl, List.prefix_rfl⟩ hcut, ?_⟩
          rw [List.map_cons, List.sum_cons]
          omega

theorem length_le_of_cut {shown groups : List (TopologyGroupSnapshot R)}
    (h : List.Forall₂ IsCut shown groups) :
    (shown.map fun g ↦ g.sources.length).sum ≤ (groups.map fun g ↦ g.sources.length).sum := by
  induction h with
  | nil => exact le_rfl
  | cons hcut _ ih =>
      rw [List.map_cons, List.map_cons, List.sum_cons, List.sum_cons]
      exact Nat.add_le_add hcut.2.length_le ih

/-- Where no source is missing in the count, every group has all of its sources. -/
theorem whole_of_cut {shown groups : List (TopologyGroupSnapshot R)}
    (h : List.Forall₂ IsCut shown groups)
    (hsum : (groups.map fun g ↦ g.sources.length).sum ≤
      (shown.map fun g ↦ g.sources.length).sum) :
    ∀ g ∈ groups, ∃ g' ∈ shown, g'.network = g.network ∧ g'.sources = g.sources := by
  induction h with
  | nil => exact fun g hg ↦ absurd hg List.not_mem_nil
  | cons hcut hrest ih =>
      have hle := length_le_of_cut hrest
      have hone := hcut.2.length_le
      rw [List.map_cons, List.map_cons, List.sum_cons, List.sum_cons] at hsum
      intro g hg
      rcases List.mem_cons.mp hg with rfl | hin
      · exact ⟨_, List.mem_cons_self, hcut.network, hcut.2.eq_of_length (by omega)⟩
      · obtain ⟨g', hg', hwhole⟩ := ih (by omega) g hin
        exact ⟨g', List.mem_cons_of_mem _ hg', hwhole⟩

theorem exists_cut {shown groups : List (TopologyGroupSnapshot R)}
    (h : List.Forall₂ IsCut shown groups) : ∀ g' ∈ shown, ∃ g ∈ groups, IsCut g' g := by
  induction h with
  | nil => exact fun g hg ↦ absurd hg List.not_mem_nil
  | cons hcut _ ih =>
      intro g' hg'
      rcases List.mem_cons.mp hg' with rfl | hin
      · exact ⟨_, List.mem_cons_self, hcut⟩
      · obtain ⟨g, hg, hcut'⟩ := ih g' hin
        exact ⟨g, List.mem_cons_of_mem _ hg, hcut'⟩

end

section

variable {t : TopologyTracker} {R : Type} {fl : Rates R} {orders : SnapshotOrder R}
  {now nowSecond : ℕ} {s : TopologyState}

/-- The groups of a snapshot before the view is cut down. -/
def TopologyTracker.groupsOf (t : TopologyTracker) (fl : Rates R) (orders : SnapshotOrder R)
    (now nowSecond : ℕ) (s : TopologyState) : List (TopologyGroupSnapshot R) :=
  t.allGroups fl orders (t.rows fl orders now nowSecond s)

theorem groups_snapshot_spec (t : TopologyTracker) (fl : Rates R) (orders : SnapshotOrder R)
    (now nowSecond : ℕ) (s : TopologyState) :
    List.Forall₂ IsCut (t.snapshot fl orders now nowSecond s).groups
      ((t.groupsOf fl orders now nowSecond s).take
        (t.snapshot fl orders now nowSecond s).groups.length) ∧
    ((t.snapshot fl orders now nowSecond s).groups.map fun g ↦ g.sources.length).sum ≤
      maxSnapshotSources := by
  obtain ⟨hcut, hsum⟩ := takeView_spec
    ((t.groupsOf fl orders now nowSecond s).take maxSnapshotGroups) maxSnapshotSources
  have hlen := hcut.length_eq
  rw [List.length_take, List.length_take] at hlen
  rw [List.take_take, min_eq_left (by omega)] at hcut
  exact ⟨hcut, hsum⟩

theorem length_rows : (t.rows fl orders now nowSecond s).length =
    (t.retain now s.sources).size := by
  rw [TopologyTracker.rows, List.length_map, (orders.sources.perm _).length_eq, Table.size]

theorem sum_length_groupsOf :
    ((t.groupsOf fl orders now nowSecond s).map fun g ↦ g.sources.length).sum =
      (t.rows fl orders now nowSecond s).length := by
  rw [← List.length_flatMap]
  exact (sources_allGroups orders _).length_eq

theorem viewTruncated_iff_length :
    (t.snapshot fl orders now nowSecond s).viewTruncated = true ↔
      (t.snapshot fl orders now nowSecond s).groups.length <
          (t.groupsOf fl orders now nowSecond s).length ∨
        ((t.snapshot fl orders now nowSecond s).groups.map fun g ↦ g.sources.length).sum <
          (t.rows fl orders now nowSecond s).length := by
  have hsum := (groups_snapshot_spec t fl orders now nowSecond s).2
  have hmax : maxSnapshotSources ≤ u64Max := by decide
  have hexact := foldl_satAdd_of_le (n := 0)
    (l := (t.snapshot fl orders now nowSecond s).groups.map fun g ↦ g.sources.length) (by omega)
  rw [Nat.zero_add] at hexact
  rw [← hexact, length_rows]
  change (decide _ || decide _) = true ↔ _
  rw [Bool.or_eq_true, decide_eq_true_iff, decide_eq_true_iff]
  rfl

/-- The view says that it is cut down if and only if a group or a source is not in it. -/
theorem viewTruncated_iff :
    (t.snapshot fl orders now nowSecond s).viewTruncated = true ↔
      (∃ g ∈ t.groupsOf fl orders now nowSecond s,
        ∀ g' ∈ (t.snapshot fl orders now nowSecond s).groups, g'.network ≠ g.network) ∨
      ∃ row ∈ t.rows fl orders now nowSecond s,
        ∀ g' ∈ (t.snapshot fl orders now nowSecond s).groups, ∀ shown ∈ g'.sources,
          shown.ip ≠ row.ip := by
  obtain ⟨hcut, -⟩ := groups_snapshot_spec t fl orders now nowSecond s
  rw [viewTruncated_iff_length]
  generalize hshown : (t.snapshot fl orders now nowSecond s).groups = shown at hcut ⊢
  refine ⟨fun h ↦ ?_, fun h ↦ ?_⟩
  · by_contra hall
    push Not at hall
    obtain ⟨hgroups, hsources⟩ := hall
    rcases h with hless | hless
    · have hsub : (t.groupsOf fl orders now nowSecond s).map TopologyGroupSnapshot.network ⊆
          shown.map TopologyGroupSnapshot.network := fun n hn ↦ by
        obtain ⟨g, hg, rfl⟩ := List.mem_map.mp hn
        obtain ⟨g', hg', hsame⟩ := hgroups g hg
        exact List.mem_map.mpr ⟨g', hg', hsame⟩
      have hle := ((networks_allGroups orders _).subperm hsub).length_le
      rw [List.length_map, List.length_map] at hle
      exact absurd hle (not_le.mpr hless)
    · have hsub : (t.rows fl orders now nowSecond s).map TopologySourceSnapshot.ip ⊆
          (shown.flatMap TopologyGroupSnapshot.sources).map TopologySourceSnapshot.ip :=
        fun ip hip ↦ by
          obtain ⟨row, hrow, rfl⟩ := List.mem_map.mp hip
          obtain ⟨g', hg', source, hsource, hsame⟩ := hsources row hrow
          exact List.mem_map.mpr ⟨source, List.mem_flatMap.mpr ⟨g', hg', hsource⟩, hsame⟩
      have hle := (nodup_ip_rows.subperm hsub).length_le
      rw [List.length_map, List.length_map, List.length_flatMap] at hle
      omega
  · by_contra hless
    push Not at hless
    obtain ⟨hgroups, hsources⟩ := hless
    rw [List.take_of_length_le hgroups] at hcut
    rw [← sum_length_groupsOf] at hsources
    have hwhole := whole_of_cut hcut hsources
    rcases h with ⟨g, hg, hmissing⟩ | ⟨row, hrow, hmissing⟩
    · obtain ⟨g', hg', hsame, -⟩ := hwhole g hg
      exact hmissing g' hg' hsame
    · obtain ⟨g, hg, hin⟩ := List.mem_flatMap.mp ((sources_allGroups orders _).mem_iff.mpr hrow)
      obtain ⟨g', hg', -, hsame⟩ := hwhole g hg
      exact hmissing g' hg' row (hsame ▸ hin) rfl

/-- The groups and the overflow bucket count what the snapshot does. -/
theorem total_groupsOf {k : Kind} (h : (t.snapshot fl orders now nowSecond s).total k < u64Max) :
    ((t.groupsOf fl orders now nowSecond s).map (TopologyGroupSnapshot.total k)).sum +
        (t.snapshot fl orders now nowSecond s).untracked k =
      (t.snapshot fl orders now nowSecond s).total k := by
  have hsnap := total_snapshot h
  have hgroups : ((t.groupsOf fl orders now nowSecond s).map
      (TopologyGroupSnapshot.total k)).sum = _ := total_allGroups orders (by omega)
  omega

/-- A snapshot counts what the shared state does, unless a source expires. -/
theorem total_snapshot_of_kept {k : Kind}
    (h : (t.snapshot fl orders now nowSecond s).total k < u64Max)
    (hkept : t.retain now s.sources = s.sources) :
    (t.snapshot fl orders now nowSecond s).total k = s.total k := by
  rw [total_snapshot h, untracked_snapshot, total_rows, hkept, Nat.add_comm, TopologyState.total]

/-- What is shown is a group, maybe without its last sources. -/
theorem exists_group_of_shown {g' : TopologyGroupSnapshot R}
    (h : g' ∈ (t.snapshot fl orders now nowSecond s).groups) :
    ∃ g ∈ t.groupsOf fl orders now nowSecond s, IsCut g' g := by
  obtain ⟨g, hg, hcut⟩ := exists_cut (groups_snapshot_spec t fl orders now nowSecond s).1 g' h
  exact ⟨g, List.mem_of_mem_take hg, hcut⟩

end

/-! ## Conservation -/

/-- Whatever is called in whatever order: what was observed is what a snapshot and the local
maps count, the tracked sources fit, and the view hides no count and says what it hides. -/
theorem topology_conserved {ι : Type} [Fintype ι] [DecidableEq ι] (t : TopologyTracker)
    {R : Type} (fl : Rates R) (orders : SnapshotOrder R) (lastFlush : ι → ℕ)
    (events : List (TopologyEvent ι)) (now nowSecond : ℕ) :
    let w := runFrom (Tracked.step t fl) (Tracked.start lastFlush) events
    let snap := t.snapshot fl orders now nowSecond w.shared
    let rows := t.rows fl orders now nowSecond w.shared
    let groups := t.groupsOf fl orders now nowSecond w.shared
    (Along (Tracked.step t fl) (Tracked.NoneExpires t) (Tracked.start lastFlush) events →
      t.retain now w.shared.sources = w.shared.sources → w.Below →
      ∀ k, snap.total k < u64Max →
        snap.total k + ∑ i, (w.locals i).total k = (events.map (TopologyEvent.amount k)).sum) ∧
    w.shared.sources.size ≤ t.maxSources ∧
    (∀ k, snap.total k < u64Max →
      (groups.map (TopologyGroupSnapshot.total k)).sum + snap.untracked k = snap.total k) ∧
    (groups.flatMap TopologyGroupSnapshot.sources).Perm rows ∧
    (∀ g' ∈ snap.groups, ∃ g ∈ groups, IsCut g' g) ∧
    (snap.viewTruncated = true ↔
      (∃ g ∈ groups, ∀ g' ∈ snap.groups, g'.network ≠ g.network) ∨
      ∃ row ∈ rows, ∀ g' ∈ snap.groups, ∀ shown ∈ g'.sources, shown.ip ≠ row.ip) := by
  intro w snap rows groups
  refine ⟨fun halong hkept hbelow k hk ↦ ?_, ?_, fun k ↦ total_groupsOf,
    sources_allGroups orders rows, fun g' ↦ exists_group_of_shown, viewTruncated_iff⟩
  · have hrun := (Tracked.total_run halong hbelow).2 k
    rw [Tracked.total_start, Nat.zero_add, Tracked.total] at hrun
    rw [← hrun, total_snapshot_of_kept hk hkept]
  · exact invariant_runFrom_of_step (I := fun w : Tracked ι ↦ w.shared.sources.size ≤ t.maxSources)
      size_step events (Nat.zero_le _)

/-! ## Two workers and room for one source -/

def noRates : Rates Unit := ⟨(), fun _ _ ↦ (), fun _ _ ↦ (), fun _ _ ↦ (), fun _ _ ↦ .eq⟩

def inOrder : SnapshotOrder Unit := ⟨.id, .id⟩

def crowded : List (TopologyEvent (Fin 2)) :=
  [.observe 0 10 100 1 .id ⟨0, 0, 0, 0⟩, .observe 1 11 200 2 .id ⟨0, 0, 0, 0⟩,
    .flush 0 .id ⟨0, 0, 0, 0⟩, .flush 1 .id ⟨0, 0, 0, 0⟩,
    .observe 0 12 50 1 .id ⟨0, 0, 0, 0⟩]

def afterCrowded : Tracked (Fin 2) :=
  runFrom (Tracked.step (.new 24 1000 0) noRates) (Tracked.start fun _ ↦ 0) crowded

theorem below_afterCrowded : afterCrowded.Below where
  shared :=
    { sources := (Table.forall_entries_iff
        (P := fun _ source ↦ ∀ k, SourceState.total k source < u64Max)).mp fun e he k ↦ by
          obtain rfl := List.mem_singleton.mp he
          cases k <;> decide
      overflow := fun o ho k ↦ by
        obtain rfl := Option.some.inj ho
        cases k <;> decide }
  locals i := by
    intro e he k
    fin_cases i
    · obtain rfl := List.mem_singleton.mp he
      cases k <;> decide
    · cases he

theorem topology_conserved_crowded :
    ((TopologyTracker.new 24 1000 0).snapshot noRates inOrder 0 0 afterCrowded.shared).packetsTotal +
      ∑ i, (afterCrowded.locals i).total .packets = 3 := by
  have hconserved := (topology_conserved (.new 24 1000 0) noRates inOrder (fun _ : Fin 2 ↦ 0)
    crowded 0 0).1
  refine hconserved ⟨?_, ?_, ?_, ?_, ?_, trivial⟩ rfl below_afterCrowded .packets (by decide)
  · exact fun h ↦ absurd h (by decide)
  · exact fun h ↦ absurd h (by decide)
  · exact fun _ ↦ rfl
  · exact fun _ ↦ rfl
  · exact fun h ↦ absurd h (by decide)

end Bazalt.Topology
