import Bazalt.Api.MatchProjection
import Bazalt.Capture.Decoder
import Bazalt.Lib.Scatter
import Bazalt.Storage.Published

/-!
# The content of a flow

The index rows of a flow name segments and offsets.  The rows are put into groups, one for each
segment; a group is read in the order of its offsets, and every record goes into the slot of its
row.  A segment that is gone, or a record that is broken, takes away its own rows only.
-/

namespace Bazalt.Api

open Lib Matching Storage

/-! ## Reading -/

/-- `read_many_at`: the file is opened once, and every offset is tried. -/
def readManyAt (crc32 : Bytes → BitVec 32) (maxRecordBytes : ℕ) (disk : List SegmentFile)
    (path : ℕ) (offsets : List ℕ) :
    Except SegmentError (List (ℕ × Except SegmentError ContentRecord)) :=
  match disk.find? fun f ↦ decide (f.name = path) with
  | none => .error .io
  | some f => .ok <| offsets.map fun offset ↦
      (offset, match readRecord crc32 maxRecordBytes (f.bytes.drop offset) with
        | .error e => .error e
        | .ok none => .error .recordMissing
        | .ok (some (record, _)) => .ok record)

/-- A row and its slot. -/
abbrev SlotRow := ContentIndexRecord × ℕ

/-- The rows of each segment. -/
def segmentGroups (indices : List ContentIndexRecord) : ℕ → List SlotRow :=
  groupBy (fun entry : SlotRow ↦ entry.1.segmentPath) indices.zipIdx

/-- The order in which the groups of a hash map come up. -/
structure GroupOrder (indices : List ContentIndexRecord) where
  paths : List ℕ
  nodup : paths.Nodup
  mem_iff : ∀ path, path ∈ paths ↔ path ∈ indices.map ContentIndexRecord.segmentPath

inductive Notice where
  | unreadable (contentId : Uuid) (error : SegmentError)
  /-- A warning if it is the `first`, else a message for debugging. -/
  | unavailable (segment : ℕ) (first : Bool)
  deriving DecidableEq, Repr

structure Reading where
  ordered : List (Option ContentRecord)
  missingSegmentsWarned : Finset ℕ
  log : List Notice := []

def Reading.keep (r : Reading) (entry : SlotRow) : Except SegmentError ContentRecord → Reading
  | .ok record => { r with ordered := r.ordered.set entry.2 (some record) }
  | .error e => { r with log := r.log ++ [.unreadable entry.1.contentId e] }

section

variable (crc32 : Bytes → BitVec 32) (maxRecordBytes : ℕ)
  (byOffset : UnstableSort fun entry : SlotRow ↦ entry.1.segmentOffset)

/-- The body of the loop over the groups. -/
def readGroup (disk : List SegmentFile) (group : List SlotRow) (r : Reading) (path : ℕ) : Reading :=
  let entries := byOffset.sort group
  match readManyAt crc32 maxRecordBytes disk path (entries.map fun entry ↦ entry.1.segmentOffset) with
  | .ok results =>
      (entries.zip results).foldl (fun r p ↦ r.keep p.1 p.2.2)
        { r with missingSegmentsWarned := r.missingSegmentsWarned.erase path }
  | .error _ =>
      { r with
        missingSegmentsWarned := insert path r.missingSegmentsWarned
        log := r.log ++ [.unavailable path (decide (path ∉ r.missingSegmentsWarned))] }

/-- The task that reads: `disk path` are the files when the group of the path is opened. -/
def readGroups (disk : ℕ → List SegmentFile) (indices : List ContentIndexRecord)
    (paths : List ℕ) (warned : Finset ℕ) : Reading :=
  paths.foldl (fun r path ↦
      readGroup crc32 maxRecordBytes byOffset (disk path) (segmentGroups indices path) r path)
    { ordered := List.replicate indices.length none, missingSegmentsWarned := warned }

end

/-! ## Items -/

structure ItemMatch where
  patternId : Uuid
  offsetStart : ℕ
  offsetEnd : ℕ
  historical : Bool
  deriving DecidableEq, Repr

structure ContentItem where
  id : Uuid
  timestampNs : String
  direction : Direction
  request : Bool
  view : ContentView
  offset : ℕ
  len : ℕ
  preview : String
  hits : List ItemMatch
  deriving DecidableEq, Repr

/-- The addresses of the row of a flow. -/
structure FlowEnds where
  src : Capture.Endpoint
  dst : Capture.Endpoint
  protocol : Capture.TransportProtocol

def FlowEnds.requestDirection (flow : FlowEnds) : Direction :=
  (Capture.FlowKey.canonicalWithDomain flow.src flow.dst flow.protocol 0).2

def contentItem (requestDirection : Direction) (r : ContentRecord) (hits : List MatchRecord) :
    ContentItem where
  id := r.id
  timestampNs := toString r.tsNs
  direction := r.direction
  request := match r.view with
    | .httpRequestHeaders | .httpRequestBody | .httpRequestDecodedBody => true
    | .httpResponseHeaders | .httpResponseBody | .httpResponseDecodedBody => false
    | .tcpRaw => decide (r.direction = requestDirection)
  view := r.view
  offset := r.streamOffset
  len := r.data.length
  preview := fromUtf8Lossy (r.data.take 4096)
  hits := hits.map fun hit ↦ ⟨hit.patternId, hit.offsetStart, hit.offsetEnd, hit.historical⟩

/-- The matches of a record are taken out of the map by its first item. -/
def contentItems (requestDirection : Direction) : Hits → List ContentRecord → List ContentItem
  | _, [] => []
  | hits, r :: records => contentItem requestDirection r (hits r.id) ::
      contentItems requestDirection (Function.update hits r.id []) records

/-- What is shown of the records that were read. -/
def contentView (byStart : UnstableSort fun range : ℕ × ℕ ↦ range.1) (flow : FlowEnds)
    (allRecords : List ContentRecord) (hits : List MatchRecord) : List ContentItem :=
  let records := suppressRedundantTcpRaw byStart allRecords
  contentItems flow.requestDirection (projectMatchesToVisibleContent allRecords records hits) records

/-- `flow_content`: the items, and what the request leaves in the shared set and in the log. -/
def flowContent (crc32 : Bytes → BitVec 32) (maxRecordBytes : ℕ)
    (byOffset : UnstableSort fun entry : SlotRow ↦ entry.1.segmentOffset)
    (byStart : UnstableSort fun range : ℕ × ℕ ↦ range.1) (disk : ℕ → List SegmentFile)
    (flow : FlowEnds) (indices : List ContentIndexRecord) (order : GroupOrder indices)
    (hits : List MatchRecord) (warned : Finset ℕ) : Reading × List ContentItem :=
  let reading := readGroups crc32 maxRecordBytes byOffset disk indices order.paths warned
  (reading, contentView byStart flow (reading.ordered.filterMap id) hits)

/-! ## One group -/

section

variable {crc32 : Bytes → BitVec 32} {m : ℕ}
  {byOffset : UnstableSort fun entry : SlotRow ↦ entry.1.segmentOffset}

/-- The segment of that name is there. -/
def Available (disk : List SegmentFile) (path : ℕ) : Prop := ∃ f ∈ disk, f.name = path

instance (disk : List SegmentFile) (path : ℕ) : Decidable (Available disk path) :=
  inferInstanceAs (Decidable (∃ f ∈ disk, f.name = path))

/-- What the row leads to. -/
def followed (crc32 : Bytes → BitVec 32) (m : ℕ) (disk : ℕ → List SegmentFile)
    (row : ContentIndexRecord) : Except SegmentError ContentRecord :=
  readRecordAt crc32 m (disk row.segmentPath) row.segmentPath row.segmentOffset

theorem readManyAt_of_available {disk : List SegmentFile} {path : ℕ} (h : Available disk path)
    (offsets : List ℕ) : readManyAt crc32 m disk path offsets =
      .ok (offsets.map fun offset ↦ (offset, readRecordAt crc32 m disk path offset)) := by
  obtain ⟨f, hf, hname⟩ := h
  have hfound : ∃ g, disk.find? (fun f ↦ decide (f.name = path)) = some g := by
    rw [← Option.isSome_iff_exists, List.find?_isSome]
    exact ⟨f, hf, decide_eq_true hname⟩
  obtain ⟨g, hg⟩ := hfound
  unfold readManyAt readRecordAt
  generalize disk.find? (fun f ↦ decide (f.name = path)) = found at hg ⊢
  subst hg
  rfl

theorem readManyAt_of_not_available {disk : List SegmentFile} {path : ℕ}
    (h : ¬ Available disk path) (offsets : List ℕ) :
    readManyAt crc32 m disk path offsets = .error .io ∧
      ∀ offset, readRecordAt crc32 m disk path offset = .error .io := by
  have hnone : disk.find? (fun f ↦ decide (f.name = path)) = none := by
    rw [List.find?_eq_none]
    intro f hf hname
    exact h ⟨f, hf, of_decide_eq_true hname⟩
  constructor
  · simp only [readManyAt, hnone]
  · intro offset
    simp only [readRecordAt, hnone]

/-- What is put into the slots. -/
def slotWrites (read : ContentIndexRecord → Except SegmentError ContentRecord)
    (entries : List SlotRow) : List (ℕ × ContentRecord) :=
  entries.filterMap fun entry ↦ (read entry.1).toOption.map fun record ↦ (entry.2, record)

/-- What is said about records that cannot be read. -/
def unreadableNotices (read : ContentIndexRecord → Except SegmentError ContentRecord)
    (entries : List SlotRow) : List Notice :=
  entries.filterMap fun entry ↦ match read entry.1 with
    | .ok _ => none
    | .error e => some (.unreadable entry.1.contentId e)

theorem foldl_keep (read : ContentIndexRecord → Except SegmentError ContentRecord)
    (entries : List SlotRow) (r : Reading) :
    entries.foldl (fun r entry ↦ r.keep entry (read entry.1)) r =
      { ordered := scatter r.ordered (slotWrites read entries)
        missingSegmentsWarned := r.missingSegmentsWarned
        log := r.log ++ unreadableNotices read entries } := by
  induction entries generalizing r with
  | nil => simp [slotWrites, unreadableNotices]
  | cons entry entries ih =>
      rw [List.foldl_cons, ih]
      cases hread : read entry.1 with
      | ok record =>
          simp [Reading.keep, slotWrites, unreadableNotices, hread, scatter, Except.toOption]
      | error e =>
          simp [Reading.keep, slotWrites, unreadableNotices, hread, Except.toOption]

theorem readGroup_of_available {disk : List SegmentFile} {path : ℕ} (h : Available disk path)
    (group : List SlotRow) (r : Reading) :
    readGroup crc32 m byOffset disk group r path =
      { ordered := scatter r.ordered
          (slotWrites (fun row ↦ readRecordAt crc32 m disk path row.segmentOffset)
            (byOffset.sort group))
        missingSegmentsWarned := r.missingSegmentsWarned.erase path
        log := r.log ++ unreadableNotices
          (fun row ↦ readRecordAt crc32 m disk path row.segmentOffset) (byOffset.sort group) } := by
  have hzip : (byOffset.sort group).zip ((((byOffset.sort group).map fun entry ↦
        entry.1.segmentOffset).map fun offset ↦ (offset, readRecordAt crc32 m disk path offset))) =
      (byOffset.sort group).map fun entry ↦ (entry, entry.1.segmentOffset,
        readRecordAt crc32 m disk path entry.1.segmentOffset) := by
    have hpairs := List.zip_map' (f := id) (g := fun entry : SlotRow ↦ (entry.1.segmentOffset,
      readRecordAt crc32 m disk path entry.1.segmentOffset)) (l := byOffset.sort group)
    rw [List.map_id] at hpairs
    rw [List.map_map]
    exact hpairs
  simp only [readGroup, readManyAt_of_available h, hzip, List.foldl_map]
  exact foldl_keep (fun row ↦ readRecordAt crc32 m disk path row.segmentOffset) _ _

theorem readGroup_of_not_available {disk : List SegmentFile} {path : ℕ}
    (h : ¬ Available disk path) (group : List SlotRow) (r : Reading) :
    readGroup crc32 m byOffset disk group r path =
      { r with
        missingSegmentsWarned := insert path r.missingSegmentsWarned
        log := r.log ++ [.unavailable path (decide (path ∉ r.missingSegmentsWarned))] } := by
  simp only [readGroup, (readManyAt_of_not_available h _).1]

/-- A segment that is gone fills no slot. -/
theorem slotWrites_of_not_available {disk : List SegmentFile} {path : ℕ}
    (h : ¬ Available disk path) (entries : List SlotRow) :
    slotWrites (fun row ↦ readRecordAt crc32 m disk path row.segmentOffset) entries = [] := by
  rw [slotWrites, List.filterMap_eq_nil_iff]
  intro entry _
  rw [(readManyAt_of_not_available h []).2]
  rfl

end

/-! ## All groups -/

section

variable {crc32 : Bytes → BitVec 32} {m : ℕ}
  {byOffset : UnstableSort fun entry : SlotRow ↦ entry.1.segmentOffset}
  {disk : ℕ → List SegmentFile} {indices : List ContentIndexRecord}

theorem mem_segmentGroups {path : ℕ} {entry : SlotRow} :
    entry ∈ segmentGroups indices path ↔
      entry ∈ indices.zipIdx ∧ entry.1.segmentPath = path := by
  rw [segmentGroups, groupBy_eq, List.mem_filter, decide_eq_true_eq]

theorem mem_sort_segmentGroups {path : ℕ} {entry : SlotRow} :
    entry ∈ byOffset.sort (segmentGroups indices path) ↔
      entry ∈ indices.zipIdx ∧ entry.1.segmentPath = path :=
  (byOffset.perm _).mem_iff.trans mem_segmentGroups

/-- What the groups so far have put into the slots, in the order of the groups. -/
theorem ordered_foldl (paths : List ℕ) (r : Reading) :
    (paths.foldl (fun r path ↦
        readGroup crc32 m byOffset (disk path) (segmentGroups indices path) r path) r).ordered =
      scatter r.ordered (paths.flatMap fun path ↦
        slotWrites (followed crc32 m disk) (byOffset.sort (segmentGroups indices path))) := by
  induction paths generalizing r with
  | nil => rfl
  | cons path paths ih =>
      have hread : slotWrites (followed crc32 m disk)
          (byOffset.sort (segmentGroups indices path)) =
          slotWrites (fun row ↦ readRecordAt crc32 m (disk path) path row.segmentOffset)
            (byOffset.sort (segmentGroups indices path)) := by
        apply List.filterMap_congr
        intro entry hentry
        rw [followed, (mem_sort_segmentGroups.mp hentry).2]
      rw [List.foldl_cons, ih, List.flatMap_cons, scatter_append, hread]
      by_cases h : Available (disk path) path
      · rw [readGroup_of_available h]
      · rw [readGroup_of_not_available h, slotWrites_of_not_available h, scatter_nil]

/-- The slots do not depend on the order of the groups, nor on that of equal offsets. -/
theorem ordered_readGroups (order : GroupOrder indices) (warned : Finset ℕ) :
    (readGroups crc32 m byOffset disk indices order.paths warned).ordered =
      indices.map fun row ↦ (followed crc32 m disk row).toOption := by
  have hkeys : ∀ entry ∈ indices.zipIdx, entry.1.segmentPath ∈ order.paths := by
    intro entry hentry
    rw [order.mem_iff]
    exact List.mem_map_of_mem (List.fst_mem_of_mem_zipIdx hentry)
  have hgroups : (order.paths.flatMap fun path ↦
      slotWrites (followed crc32 m disk) (byOffset.sort (segmentGroups indices path))).Perm
      (slotWrites (followed crc32 m disk) indices.zipIdx) := by
    have hsorted := List.Perm.flatMap_left order.paths fun path _ ↦
      ((byOffset.perm (segmentGroups indices path)).filterMap fun entry ↦
        (followed crc32 m disk entry.1).toOption.map fun record ↦ (entry.2, record))
    have hall := (flatMap_groupBy_perm (fun entry : SlotRow ↦ entry.1.segmentPath) order.nodup
      hkeys).filterMap fun entry ↦
        (followed crc32 m disk entry.1).toOption.map fun record ↦ (entry.2, record)
    rw [List.filterMap_flatMap] at hall
    exact hsorted.trans hall
  rw [readGroups, ordered_foldl]
  exact scatter_eq_map indices (fun row ↦ (followed crc32 m disk row).toOption) hgroups

/-- A group is not looked at before its turn and not again afterwards. -/
theorem warned_foldl {paths : List ℕ} (hnodup : paths.Nodup) (r : Reading) (path : ℕ) :
    path ∈ (paths.foldl (fun r path ↦ readGroup crc32 m byOffset (disk path)
        (segmentGroups indices path) r path) r).missingSegmentsWarned ↔
      if path ∈ paths then ¬ Available (disk path) path else path ∈ r.missingSegmentsWarned := by
  induction paths generalizing r with
  | nil => simp
  | cons p paths ih =>
      obtain ⟨hp, hnodup⟩ := List.nodup_cons.mp hnodup
      rw [List.foldl_cons, ih hnodup]
      by_cases hsame : path = p
      · subst hsame
        rw [if_neg hp, if_pos List.mem_cons_self]
        by_cases h : Available (disk path) path
        · simp [readGroup_of_available h, h]
        · simp [readGroup_of_not_available h, h]
      · have hmem : path ∈ p :: paths ↔ path ∈ paths := by simp [hsame]
        have hkept : path ∈ (readGroup crc32 m byOffset (disk p) (segmentGroups indices p) r
            p).missingSegmentsWarned ↔ path ∈ r.missingSegmentsWarned := by
          by_cases h : Available (disk p) p
          · simp [readGroup_of_available h, hsame]
          · simp [readGroup_of_not_available h, hsame]
        simp only [hmem, hkept]

/-- What a group says. -/
def groupNotices (crc32 : Bytes → BitVec 32) (m : ℕ)
    (byOffset : UnstableSort fun entry : SlotRow ↦ entry.1.segmentOffset)
    (disk : ℕ → List SegmentFile) (indices : List ContentIndexRecord) (warned : Finset ℕ)
    (path : ℕ) : List Notice :=
  if Available (disk path) path then
    unreadableNotices (followed crc32 m disk) (byOffset.sort (segmentGroups indices path))
  else [.unavailable path (decide (path ∉ warned))]

theorem log_foldl {paths : List ℕ} (hnodup : paths.Nodup) (r : Reading) {warned : Finset ℕ}
    (hwarned : ∀ path ∈ paths, path ∈ r.missingSegmentsWarned ↔ path ∈ warned) :
    (paths.foldl (fun r path ↦ readGroup crc32 m byOffset (disk path)
        (segmentGroups indices path) r path) r).log =
      r.log ++ paths.flatMap (groupNotices crc32 m byOffset disk indices warned) := by
  induction paths generalizing r with
  | nil => simp
  | cons p paths ih =>
      obtain ⟨hp, hnodup⟩ := List.nodup_cons.mp hnodup
      have hlater : ∀ path ∈ paths, path ≠ p := fun path hpath heq ↦ hp (heq ▸ hpath)
      rw [List.foldl_cons, List.flatMap_cons, ← List.append_assoc]
      by_cases h : Available (disk p) p
      · have hread : unreadableNotices (followed crc32 m disk)
            (byOffset.sort (segmentGroups indices p)) =
            unreadableNotices (fun row ↦ readRecordAt crc32 m (disk p) p row.segmentOffset)
              (byOffset.sort (segmentGroups indices p)) := by
          apply List.filterMap_congr
          intro entry hentry
          rw [followed, (mem_sort_segmentGroups.mp hentry).2]
        rw [ih hnodup, readGroup_of_available h, groupNotices, if_pos h, hread]
        intro path hpath
        rw [readGroup_of_available h, Finset.mem_erase, hwarned path (List.mem_cons_of_mem _ hpath)]
        exact and_iff_right (hlater path hpath)
      · have hfirst : decide (p ∉ r.missingSegmentsWarned) = decide (p ∉ warned) :=
          decide_eq_decide.mpr (not_congr (hwarned p List.mem_cons_self))
        rw [ih hnodup, readGroup_of_not_available h, groupNotices, if_neg h, hfirst]
        intro path hpath
        rw [readGroup_of_not_available h, Finset.mem_insert,
          hwarned path (List.mem_cons_of_mem _ hpath)]
        exact or_iff_right (hlater path hpath)

end

/-! ## What a request shows -/

/-- The items are those of the rows that can be read, in the order of the rows, and each trouble
is told: a broken record alone, a segment that is gone once for all its rows. -/
structure ShowsReadable (crc32 : Bytes → BitVec 32) (m : ℕ)
    (byStart : UnstableSort fun range : ℕ × ℕ ↦ range.1) (disk : ℕ → List SegmentFile)
    (flow : FlowEnds) (indices : List ContentIndexRecord) (hits : List MatchRecord)
    (warned : Finset ℕ) (shown : Reading × List ContentItem) : Prop where
  items : shown.2 = contentView byStart flow
    (indices.filterMap fun row ↦ (followed crc32 m disk row).toOption) hits
  unreadable : ∀ id e, .unreadable id e ∈ shown.1.log ↔ ∃ row ∈ indices, row.contentId = id ∧
    Available (disk row.segmentPath) row.segmentPath ∧ followed crc32 m disk row = .error e
  unavailable : ∀ path first, .unavailable path first ∈ shown.1.log ↔
    path ∈ indices.map ContentIndexRecord.segmentPath ∧ ¬ Available (disk path) path ∧
      first = decide (path ∉ warned)
  once : ∀ path first, shown.1.log.count (.unavailable path first) ≤ 1
  warned : ∀ path, path ∈ shown.1.missingSegmentsWarned ↔
    if path ∈ indices.map ContentIndexRecord.segmentPath then ¬ Available (disk path) path
    else path ∈ warned

section

variable {crc32 : Bytes → BitVec 32} {m : ℕ}
  {byOffset : UnstableSort fun entry : SlotRow ↦ entry.1.segmentOffset}
  {disk : ℕ → List SegmentFile} {indices : List ContentIndexRecord}

theorem mem_unreadableNotices {read : ContentIndexRecord → Except SegmentError ContentRecord}
    {entries : List SlotRow} {notice : Notice} :
    notice ∈ unreadableNotices read entries ↔ ∃ entry ∈ entries, ∃ e,
      read entry.1 = .error e ∧ notice = .unreadable entry.1.contentId e := by
  rw [unreadableNotices, List.mem_filterMap]
  refine exists_congr fun entry ↦ and_congr_right fun _ ↦ ?_
  cases read entry.1 with
  | ok record => simp
  | error e => simp [eq_comm]

theorem log_readGroups (order : GroupOrder indices) (warned : Finset ℕ) :
    (readGroups crc32 m byOffset disk indices order.paths warned).log =
      order.paths.flatMap (groupNotices crc32 m byOffset disk indices warned) := by
  rw [readGroups, log_foldl order.nodup _ fun path _ ↦ Iff.rfl]
  exact List.nil_append _

theorem mem_groupNotices_unavailable {warned : Finset ℕ} {path path' : ℕ} {first : Bool} :
    .unavailable path first ∈ groupNotices crc32 m byOffset disk indices warned path' ↔
      path = path' ∧ ¬ Available (disk path) path ∧ first = decide (path ∉ warned) := by
  by_cases h : Available (disk path') path'
  · rw [groupNotices, if_pos h, mem_unreadableNotices]
    constructor
    · rintro ⟨entry, -, e, -, heq⟩
      cases heq
    · rintro ⟨rfl, hnot, -⟩
      exact absurd h hnot
  · rw [groupNotices, if_neg h, List.mem_singleton, Notice.unavailable.injEq]
    constructor
    · rintro ⟨rfl, hfirst⟩
      exact ⟨rfl, h, hfirst⟩
    · rintro ⟨rfl, -, hfirst⟩
      exact ⟨rfl, hfirst⟩

variable (crc32 byOffset disk indices) in
theorem count_groupNotices_le (warned : Finset ℕ) (path path' : ℕ) (first : Bool) :
    (groupNotices crc32 m byOffset disk indices warned path').count (.unavailable path first) ≤
      if path = path' then 1 else 0 := by
  split_ifs with hsame
  · by_cases h : Available (disk path') path'
    · rw [List.count_eq_zero_of_not_mem]
      · exact Nat.zero_le 1
      · rw [mem_groupNotices_unavailable]
        rintro ⟨rfl, hnot, -⟩
        exact hnot h
    · rw [groupNotices, if_neg h]
      exact List.count_le_length
  · rw [Nat.le_zero, List.count_eq_zero, mem_groupNotices_unavailable]
    exact fun h ↦ hsame h.1

theorem count_flatMap_groupNotices_le (warned : Finset ℕ) (path : ℕ) (first : Bool)
    (paths : List ℕ) :
    (paths.flatMap (groupNotices crc32 m byOffset disk indices warned)).count
      (.unavailable path first) ≤ paths.count path := by
  induction paths with
  | nil => exact le_rfl
  | cons p paths ih =>
      have hgroup := count_groupNotices_le crc32 byOffset disk indices (m := m)
        warned path p first
      rw [List.flatMap_cons, List.count_append, List.count_cons]
      simp only [beq_iff_eq, eq_comm (a := p)]
      omega

/-- Whatever the order of the groups, and whatever the order of rows with the same offset. -/
theorem flowContent_shows (crc32 : Bytes → BitVec 32) (m : ℕ)
    (byOffset : UnstableSort fun entry : SlotRow ↦ entry.1.segmentOffset)
    (byStart : UnstableSort fun range : ℕ × ℕ ↦ range.1) (disk : ℕ → List SegmentFile)
    (flow : FlowEnds) (indices : List ContentIndexRecord) (order : GroupOrder indices)
    (hits : List MatchRecord) (warned : Finset ℕ) :
    ShowsReadable crc32 m byStart disk flow indices hits warned
      (flowContent crc32 m byOffset byStart disk flow indices order hits warned) where
  items := by
    simp only [flowContent]
    rw [ordered_readGroups, List.filterMap_map]
    rfl
  unreadable id e := by
    change Notice.unreadable id e ∈ (readGroups crc32 m byOffset disk indices order.paths
      warned).log ↔ _
    rw [log_readGroups, List.mem_flatMap]
    constructor
    · rintro ⟨path, -, hmem⟩
      unfold groupNotices at hmem
      split_ifs at hmem with h
      · obtain ⟨entry, hentry, e', herror, heq⟩ := mem_unreadableNotices.mp hmem
        obtain ⟨hrow, rfl⟩ := mem_sort_segmentGroups.mp hentry
        obtain ⟨rfl, rfl⟩ := Notice.unreadable.inj heq
        exact ⟨entry.1, List.fst_mem_of_mem_zipIdx hrow, rfl, h, herror⟩
      · rw [List.mem_singleton] at hmem
        cases hmem
    · rintro ⟨row, hrow, rfl, h, herror⟩
      obtain ⟨slot, hslot⟩ := List.mem_iff_getElem?.mp hrow
      refine ⟨row.segmentPath, (order.mem_iff _).mpr (List.mem_map_of_mem hrow), ?_⟩
      rw [groupNotices, if_pos h]
      refine mem_unreadableNotices.mpr ⟨(row, slot), ?_, e, herror, rfl⟩
      exact mem_sort_segmentGroups.mpr ⟨List.mem_zipIdx_iff_getElem?.mpr hslot, rfl⟩
  unavailable path first := by
    change Notice.unavailable path first ∈ (readGroups crc32 m byOffset disk indices order.paths
      warned).log ↔ _
    rw [log_readGroups, List.mem_flatMap, ← order.mem_iff]
    constructor
    · rintro ⟨path', hpath, hmem⟩
      obtain ⟨rfl, h⟩ := mem_groupNotices_unavailable.mp hmem
      exact ⟨hpath, h⟩
    · rintro ⟨hpath, h⟩
      exact ⟨path, hpath, mem_groupNotices_unavailable.mpr ⟨rfl, h⟩⟩
  once path first := by
    change (readGroups crc32 m byOffset disk indices order.paths warned).log.count _ ≤ 1
    rw [log_readGroups]
    exact (count_flatMap_groupNotices_le warned path first order.paths).trans
      (List.nodup_iff_count_le_one.mp order.nodup path)
  warned path := by
    change path ∈ (readGroups crc32 m byOffset disk indices order.paths
      warned).missingSegmentsWarned ↔ _
    rw [readGroups, warned_foldl order.nodup]
    simp only [order.mem_iff]

end

/-! ## Rows that the writer has published -/

section

variable {crc32 : Bytes → BitVec 32} {cfg : Config} {old : List SegmentFile}
  {name createdNs retainedBytes : ℕ}

theorem publishes_spawned (hnames : ((old.map SegmentFile.name) ++ [name]).Nodup) :
    (Thread.spawned old name createdNs retainedBytes).Publishes crc32 cfg old [] := by
  refine ⟨⟨[], createdNs, [], []⟩, 0, ⟨⟨?_, ?_, .inl rfl⟩, ?_, le_rfl, rfl, rfl, ?_⟩, ?_, ?_⟩
  · simp [Thread.spawned, Thread.session]
  · simp [Thread.spawned, Thread.session, ActiveWriter.stream, ActiveWriter.new, body]
  · simpa [Thread.spawned, Thread.session, Session.disk, ActiveWriter.new] using hnames
  · exact fun hk ↦ absurd hk (lt_irrefl 0)
  · simp [Layout.records]
  · exact fun _ _ ↦ rfl

theorem appended_append (as bs : List Event) : appended (as ++ bs) = appended as ++ appended bs :=
  List.filterMap_append

/-- An accepted row leads to its record from then on. -/
theorem readRecordAt_of_accepted (hnames : ((old.map SegmentFile.name) ++ [name]).Nodup)
    {es : List Event}
    (hfresh : (Thread.spawned old name createdNs retainedBytes).Along crc32 cfg Thread.Fresh es)
    (hstorable : ∀ r ∈ appended es, ContentRecord.Storable r) (n : ℕ) {row : ContentIndexRecord}
    (hrow : row ∈ ((Thread.spawned old name createdNs retainedBytes).after crc32 cfg
      (es.take n)).session.sent) :
    ∃ record ∈ appended es, readRecordAt crc32 cfg.maxRecordBytes
        ((Thread.spawned old name createdNs retainedBytes).after crc32 cfg
          (es.take n)).session.disk row.segmentPath row.segmentOffset = .ok record ∧
      row = indexRow record row.segmentPath row.segmentOffset := by
  have hsplit : appended es = appended (es.take n) ++ appended (es.drop n) := by
    rw [← appended_append, List.take_append_drop]
  have hearly : ∀ r ∈ appended (es.take n), r ∈ appended es := by
    intro r hr
    rw [hsplit]
    exact List.mem_append_left _ hr
  have hprefix : (Thread.spawned old name createdNs retainedBytes).Along crc32 cfg Thread.Fresh
      (es.take n) := by
    rw [← List.take_append_drop n es] at hfresh
    exact (Thread.along_append.mp hfresh).1
  obtain ⟨L, k, hledger, hacc, -⟩ := (publishes_spawned hnames).after hprefix fun r hr ↦
    stored_of_storable (hstorable r (hearly r hr))
  obtain ⟨r, hr, hread, heq⟩ := hledger.readable hrow
  have hmem : r ∈ appended es := hearly r (hacc r hr)
  rw [stored_of_storable (hstorable r hmem)] at hread heq
  exact ⟨r, hmem, hread, heq⟩

/-- While the writer runs, a request shows the records of all rows that were accepted before
their segments are opened, however far the writer has come each time.  Nothing is told, and the
segments count as readable again. -/
theorem flowContent_published (crc32 : Bytes → BitVec 32) (cfg : Config) (old : List SegmentFile)
    (name createdNs retainedBytes : ℕ) (es : List Event)
    (hnames : ((old.map SegmentFile.name) ++ [name]).Nodup)
    (hfresh : (Thread.spawned old name createdNs retainedBytes).Along crc32 cfg Thread.Fresh es)
    (hstorable : ∀ r ∈ appended es, ContentRecord.Storable r)
    (byOffset : UnstableSort fun entry : SlotRow ↦ entry.1.segmentOffset)
    (byStart : UnstableSort fun range : ℕ × ℕ ↦ range.1) (flow : FlowEnds)
    (indices : List ContentIndexRecord) (order : GroupOrder indices) (hits : List MatchRecord)
    (warned : Finset ℕ) (opened : ℕ → ℕ)
    (haccepted : ∀ row ∈ indices, row ∈ ((Thread.spawned old name createdNs retainedBytes).after
      crc32 cfg (es.take (opened row.segmentPath))).session.sent) :
    let disk path := ((Thread.spawned old name createdNs retainedBytes).after crc32 cfg
      (es.take (opened path))).session.disk
    let shown := flowContent crc32 cfg.maxRecordBytes byOffset byStart disk flow indices order hits
      warned
    ∃ record : ContentIndexRecord → ContentRecord,
      (∀ row ∈ indices, record row ∈ appended es ∧
        row = indexRow (record row) row.segmentPath row.segmentOffset) ∧
      shown.2 = contentView byStart flow (indices.map record) hits ∧ shown.1.log = [] ∧
      ∀ path, path ∈ shown.1.missingSegmentsWarned ↔
        path ∈ warned ∧ path ∉ indices.map ContentIndexRecord.segmentPath := by
  intro disk shown
  have hshows := flowContent_shows crc32 cfg.maxRecordBytes byOffset byStart disk flow indices order
    hits warned
  have hread : ∀ row ∈ indices, ∃ record ∈ appended es,
      followed crc32 cfg.maxRecordBytes disk row = .ok record ∧
        row = indexRow record row.segmentPath row.segmentOffset := fun row hrow ↦
    readRecordAt_of_accepted hnames hfresh hstorable _ (haccepted row hrow)
  have havailable : ∀ path ∈ indices.map ContentIndexRecord.segmentPath,
      Available (disk path) path := by
    intro path hpath
    obtain ⟨row, hrow, rfl⟩ := List.mem_map.mp hpath
    obtain ⟨record, -, hfollowed, -⟩ := hread row hrow
    by_contra h
    rw [followed, (readManyAt_of_not_available h []).2] at hfollowed
    cases hfollowed
  have : Nonempty ContentRecord := ⟨⟨0, 0, 0, none, .aToB, .tcpRaw, 0, []⟩⟩
  choose! record hmem hfollowed hrow using hread
  refine ⟨record, fun row hin ↦ ⟨hmem row hin, hrow row hin⟩, ?_, ?_, fun path ↦ ?_⟩
  · have hall : (indices.filterMap fun row ↦
        (followed crc32 cfg.maxRecordBytes disk row).toOption) = indices.map record := by
      rw [← List.filterMap_eq_map]
      apply List.filterMap_congr
      intro row hin
      rw [hfollowed row hin]
      rfl
    rw [hshows.items, hall]
  · rw [List.eq_nil_iff_forall_not_mem]
    intro notice hnotice
    cases notice with
    | unreadable id e =>
        obtain ⟨row, hin, -, -, herror⟩ := (hshows.unreadable id e).mp hnotice
        rw [hfollowed row hin] at herror
        cases herror
    | unavailable path first =>
        obtain ⟨hin, hgone, -⟩ := (hshows.unavailable path first).mp hnotice
        exact hgone (havailable path hin)
  · rw [hshows.warned]
    split_ifs with hin
    · exact ⟨fun h ↦ absurd (havailable path hin) h, fun h ↦ absurd hin h.2⟩
    · exact ⟨fun h ↦ ⟨h, hin⟩, And.left⟩

/-- The rows of two segments, the later segment opened first. -/
def crossRows : List ContentIndexRecord :=
  [indexRow (sampleRecord 3 [3]) 2 20, indexRow (sampleRecord 1 [1]) 1 20]

def crossRun : List Event :=
  [.record (sampleRecord 1 [1]) ⟨{}, true, none, 0⟩ none {},
    .sealSegment ⟨{}, true, some 2, 6⟩ true,
    .record (sampleRecord 3 [3]) ⟨{}, true, none, 0⟩ none {}, .flush {}, .timeout {} true]

def crossOrder : GroupOrder crossRows where
  paths := [2, 1]
  nodup := by decide
  mem_iff path := by simp [crossRows, indexRow]

/-- The files when the group of a segment is opened: the first one before the later record is
written. -/
def crossFiles (path : ℕ) : List SegmentFile :=
  ((Thread.spawned [] 1 5 0).after (fun _ ↦ 0) smallConfig
    (crossRun.take (if path = 1 then 2 else 4))).session.disk

def crossShown : Reading × List ContentItem :=
  flowContent (fun _ ↦ 0) smallConfig.maxRecordBytes (.insertion _) (.insertion _) crossFiles
    ⟨⟨.v4 1, 1⟩, ⟨.v4 2, 2⟩, .tcp⟩ crossRows crossOrder [] {1, 9}

theorem flowContent_published_crossRun :
    (∃ record : ContentIndexRecord → ContentRecord, ∀ row ∈ crossRows,
      record row ∈ appended crossRun ∧
        row = indexRow (record row) row.segmentPath row.segmentOffset) ∧
      crossShown.1.log = [] ∧ 9 ∈ crossShown.1.missingSegmentsWarned ∧
      1 ∉ crossShown.1.missingSegmentsWarned := by
  obtain ⟨record, hrecord, -, hlog, hwarned⟩ := flowContent_published (fun _ ↦ 0) smallConfig [] 1 5
    0 crossRun (by decide) (by decide +kernel) (by decide +kernel) (.insertion _) (.insertion _)
    ⟨⟨.v4 1, 1⟩, ⟨.v4 2, 2⟩, .tcp⟩ crossRows crossOrder [] {1, 9}
    (fun path ↦ if path = 1 then 2 else 4) (by decide +kernel)
  refine ⟨⟨record, hrecord⟩, hlog, ?_, fun h ↦ ?_⟩
  · exact (hwarned 9).mpr (by decide)
  · exact ((hwarned 1).mp h).2 (by decide)

end

end Bazalt.Api
