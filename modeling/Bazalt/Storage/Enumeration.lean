import Bazalt.Lib.Calendar
import Bazalt.Lib.Run
import Bazalt.Lib.Text
import Bazalt.Storage.Directory

/-!
# The order of the segment files

A segment file is called after the millisecond in which it was created and a random
identifier, and the files are listed in the order of their names.  This is the order in
which they were created except for files of one millisecond, which the identifiers put in
any order.
-/

namespace Bazalt.Storage

open Lib

/-! ## Names -/

/-- A reading of the clock before the year 10000, from which on `%Y` prints a sign; the
kernel's clock, a signed 64-bit count of nanoseconds, ends in 2262. -/
structure Instant where
  ns : ℕ
  isLt : ns < 253402300800 * 10 ^ 9
  deriving DecidableEq, Repr

def Instant.millis (t : Instant) : ℕ := t.ns / 10 ^ 6

/-- What `create_segment` puts into the name of a file. -/
structure Label where
  created : Instant
  id : Uuid
  deriving DecidableEq, Repr

/-- What the libraries print: the clock as `%Y%m%dT%H%M%S%.3fZ`, and an identifier. -/
structure Formats where
  stamp : Instant → Text
  hyphenated : Uuid → Text

/-- The clock is printed in fixed width from the year down to the millisecond, an identifier
as 32 hexadecimal digits and four hyphens. -/
structure Formats.Documented (fmt : Formats) : Prop where
  length_stamp : ∀ t, (fmt.stamp t).length = 20
  stamp_eq : ∀ {t t' : Instant}, t.millis = t'.millis → fmt.stamp t = fmt.stamp t'
  stamp_lt : ∀ {t t' : Instant}, t.millis < t'.millis → fmt.stamp t < fmt.stamp t'
  length_hyphenated : ∀ id, (fmt.hyphenated id).length = 36
  hyphenated_lt : ∀ {id id' : Uuid}, id < id' → fmt.hyphenated id < fmt.hyphenated id'

def segmentDash : Text := ['s', 'e', 'g', 'm', 'e', 'n', 't', '-']

/-- The name that `create_segment` gives a file. -/
def Formats.segmentName (fmt : Formats) (l : Label) : Text :=
  segmentDash ++ (fmt.stamp l.created ++ ('-' :: (fmt.hyphenated l.id ++ ('.' :: seg))))

def Formats.root (fmt : Formats) (label : ℕ → Label) (others : List ℕ) : Root :=
  ⟨fun n ↦ fmt.segmentName (label n), others⟩

/-- The order of the names. -/
def Label.Precedes (l l' : Label) : Prop :=
  l.created.millis < l'.created.millis ∨ l.created.millis = l'.created.millis ∧ l.id < l'.id

namespace Formats.Documented

variable {fmt : Formats} (hfmt : fmt.Documented)

include hfmt

theorem segmentName_lt {l l' : Label} (h : l.Precedes l') :
    fmt.segmentName l < fmt.segmentName l' := by
  refine List.append_left_lt ((append_lt_append_iff ?_).mpr ?_)
  · rw [hfmt.length_stamp, hfmt.length_stamp]
  · rcases h with hlt | ⟨heq, hid⟩
    · exact .inl (hfmt.stamp_lt hlt)
    · refine .inr ⟨hfmt.stamp_eq heq, List.cons_lt_cons_iff.mpr (.inr ⟨rfl, ?_⟩)⟩
      refine (append_lt_append_iff ?_).mpr (.inl (hfmt.hyphenated_lt hid))
      rw [hfmt.length_hyphenated, hfmt.length_hyphenated]

/-- Different labels are in one of the two orders. -/
theorem precedes_of_segmentName_lt {l l' : Label} (h : fmt.segmentName l < fmt.segmentName l') :
    l.Precedes l' := by
  by_contra hnot
  have hother : l'.Precedes l ∨ l.created.millis = l'.created.millis ∧ l.id = l'.id := by
    unfold Label.Precedes at hnot ⊢
    bv_omega
  rcases hother with hgt | ⟨hmillis, hid⟩
  · exact lt_asymm h (hfmt.segmentName_lt hgt)
  · rw [Formats.segmentName, Formats.segmentName, hfmt.stamp_eq hmillis, hid] at h
    exact lt_irrefl _ h

end Formats.Documented

/-- What stands before the last dot does not matter. -/
theorem extension_append {stem ext : Text} (hstem : stem ≠ []) (hext : '.' ∉ ext) :
    extension (stem ++ '.' :: ext) = some ext := by
  have htail : (stem ++ '.' :: ext).reverse.takeWhile (· ≠ '.') = ext.reverse := by
    rw [List.reverse_append, List.reverse_cons, List.append_assoc]
    rw [List.takeWhile_append_of_pos]
    · simp
    · intro c hc
      simp only [ne_eq, decide_not, Bool.not_eq_eq_eq_not, Bool.not_true, decide_eq_false_iff_not]
      rintro rfl
      exact hext (List.mem_reverse.mp hc)
  have hlen : ext.reverse.length + 1 < (stem ++ '.' :: ext).length := by
    have := List.length_pos_iff.mpr hstem
    simp only [List.length_reverse, List.length_append, List.length_cons]
    omega
  unfold extension
  rw [htail]
  dsimp only
  rw [if_pos hlen, List.reverse_reverse]

theorem extension_segmentName (fmt : Formats) (l : Label) :
    extension (fmt.segmentName l) = some seg := by
  have hname : fmt.segmentName l =
      (segmentDash ++ (fmt.stamp l.created ++ '-' :: fmt.hyphenated l.id)) ++ '.' :: seg := by
    simp [Formats.segmentName]
  rw [hname]
  exact extension_append (by simp [segmentDash]) (by decide)

/-! ## What the files hold, in the order of writing -/

/-- Which record a row is about, and where it is. -/
def ContentIndexRecord.position (row : ContentIndexRecord) : Uuid × ℕ × ℕ :=
  (row.contentId, row.segmentPath, row.segmentOffset)

/-- The positions of the records that a scan of the file finds. -/
def SegmentFile.positions (crc32 : Bytes → BitVec 32) (m : ℕ) (f : SegmentFile) :
    List (Uuid × ℕ × ℕ) :=
  (scanFile crc32 m f.bytes).1.map fun p ↦ (p.2.id, f.name, p.1)

/-- The files with what is still in the buffer. -/
def Session.shelf (s : Session) : List SegmentFile :=
  s.sealedFiles ++ [⟨s.writer.file.name, s.writer.stream⟩]

section

variable {crc32 : Bytes → BitVec 32} {m : ℕ}

theorem positions_stream {name createdNs : ℕ} {fs : List (Frame m)} {part : Bytes}
    (hpart : Torn crc32 m part) :
    SegmentFile.positions crc32 m ⟨name, segmentHeader createdNs ++ body crc32 fs ++ part⟩ =
      (placed crc32 headerSize fs).map fun p ↦ (p.2.id, name, p.1) := by
  rw [SegmentFile.positions, (scanFile_body crc32 part (hpart.readRecord crc32) createdNs fs).1]

/-- What is cut off is missing at the end. -/
theorem positions_sublist {name createdNs : ℕ} {fs : List (Frame m)} {part file : Bytes}
    (hpart : Torn crc32 m part) (hfile : file <+: segmentHeader createdNs ++ body crc32 fs ++ part) :
    (SegmentFile.positions crc32 m ⟨name, file⟩).Sublist
      (SegmentFile.positions crc32 m ⟨name, segmentHeader createdNs ++ body crc32 fs ++ part⟩) := by
  obtain ⟨k, -, hscan⟩ := scanFile_prefix crc32 hpart hfile
  rw [positions_stream hpart, SegmentFile.positions, hscan, ← Session.take_placed, List.map_take]
  exact List.take_sublist _ _

end

/-- The files hold what was written, in this order: `base` before the process, and the rows of
the process.  The active file ends with a whole record, or with `torn` after the loop. -/
structure Session.InOrder (crc32 : Bytes → BitVec 32) (m : ℕ) (base : List (Uuid × ℕ × ℕ))
    (torn : Bytes → Prop) (s : Session) : Prop where
  active : ∃ (createdNs : ℕ) (fs : List (Frame m)) (part : Bytes),
    s.writer.stream = segmentHeader createdNs ++ body crc32 fs ++ part ∧ Torn crc32 m part ∧ torn part
  order : (s.shelf.flatMap (SegmentFile.positions crc32 m)).Sublist
    (base ++ s.allRows.map ContentIndexRecord.position)

namespace Session.InOrder

variable {crc32 : Bytes → BitVec 32} {cfg : Config} {m : ℕ} {base : List (Uuid × ℕ × ℕ)}
  {torn : Bytes → Prop} {s : Session}

theorem of_settles {s' : Session} (h : s.InOrder crc32 m base torn) (hs : s.Settles s') :
    s'.InOrder crc32 m base torn := by
  have hshelf : s'.shelf = s.shelf := by
    rw [Session.shelf, Session.shelf, hs.sealedFiles, hs.name, hs.stream]
  exact ⟨hs.stream ▸ h.active, by rw [hshelf, hs.allRows]; exact h.order⟩

theorem positions_header (name createdNs : ℕ) :
    SegmentFile.positions crc32 m ⟨name, segmentHeader createdNs⟩ = [] := by
  have hnone : Torn crc32 m [] := .inl rfl
  have hpos : SegmentFile.positions crc32 m
      ⟨name, segmentHeader createdNs ++ body crc32 ([] : List (Frame m)) ++ []⟩ = _ :=
    positions_stream hnone
  simpa [body, placed] using hpos

theorem rotated (h : s.InOrder crc32 m base (· = [])) (hbuffer : s.writer.buffer = [])
    (name createdNs : ℕ) : (s.rotated name createdNs).InOrder crc32 m base (· = []) := by
  have hstream : s.writer.stream = s.writer.file.bytes := by
    rw [ActiveWriter.stream, hbuffer, List.append_nil]
  have hnew : (s.rotated name createdNs).shelf = s.shelf ++ [⟨name, segmentHeader createdNs⟩] := by
    rw [Session.shelf, Session.shelf, hstream]
    rfl
  refine ⟨⟨createdNs, [], [], ?_, .inl rfl, rfl⟩, ?_⟩
  · simp [Session.rotated, ActiveWriter.new, ActiveWriter.stream, body]
  · rw [hnew, List.flatMap_append, List.flatMap_singleton, positions_header, List.append_nil]
    exact h.order

theorem wrote (h : s.InOrder crc32 m base (· = [])) (f : Frame m) :
    (s.wrote crc32 f).InOrder crc32 m base (· = []) := by
  obtain ⟨createdNs, fs, part, hstream, -, rfl⟩ := h.active
  have hnext : (s.wrote crc32 f).writer.stream =
      segmentHeader createdNs ++ body crc32 (fs ++ [f]) ++ [] := by
    have happ : (s.wrote crc32 f).writer.stream = s.writer.stream ++ f.bytes crc32 := by
      simp [Session.wrote, ActiveWriter.stream]
    rw [happ, hstream, body_append]
    simp [body]
  have hlen : s.writer.stream.length = headerSize + (body crc32 fs).length := by
    rw [hstream]
    simp
  refine ⟨⟨createdNs, fs ++ [f], [], hnext, .inl rfl, rfl⟩, ?_⟩
  have horder := h.order
  rw [Session.shelf, List.flatMap_append, List.flatMap_singleton, hstream,
    positions_stream (.inl rfl)] at horder
  rw [Session.shelf, List.flatMap_append, List.flatMap_singleton, hnext,
    positions_stream (.inl rfl), placed_append, List.map_append, ← List.append_assoc]
  have hrows : (s.wrote crc32 f).allRows = s.allRows ++
      [indexRow f.record s.writer.file.name s.writer.stream.length] := by
    simp [Session.wrote, Session.allRows, Session.sent]
  rw [hrows, List.map_append, ← List.append_assoc]
  have hrow : (placed crc32 (headerSize + (body crc32 fs).length) [f]).map
      (fun p ↦ (p.2.id, (s.wrote crc32 f).writer.file.name, p.1)) =
        [indexRow f.record s.writer.file.name s.writer.stream.length].map
          ContentIndexRecord.position := by
    simp [placed, ContentIndexRecord.position, indexRow, stored, hlen, Session.wrote]
  rw [hrow]
  exact horder.append (List.Sublist.refl _)

theorem tore (h : s.InOrder crc32 m base (· = [])) (f : Frame m) {n : ℕ}
    (hn : n < (f.bytes crc32).length) :
    (s.tore ((f.bytes crc32).take n)).InOrder crc32 m base fun _ ↦ True := by
  obtain ⟨createdNs, fs, part, hstream, -, rfl⟩ := h.active
  have htorn : Torn crc32 m ((f.bytes crc32).take n) :=
    .inr ⟨f, List.take_prefix _ _, by rw [List.length_take]; omega⟩
  have hnext : (s.tore ((f.bytes crc32).take n)).writer.stream =
      segmentHeader createdNs ++ body crc32 fs ++ (f.bytes crc32).take n := by
    have happ : (s.tore ((f.bytes crc32).take n)).writer.stream =
        s.writer.stream ++ (f.bytes crc32).take n := by
      simp [Session.tore, ActiveWriter.stream]
    rw [happ, hstream, List.append_nil]
  refine ⟨⟨createdNs, fs, _, hnext, htorn, trivial⟩, ?_⟩
  have horder := h.order
  rw [Session.shelf, List.flatMap_append, List.flatMap_singleton, hstream,
    positions_stream (.inl rfl)] at horder
  rw [Session.shelf, List.flatMap_append, List.flatMap_singleton, hnext, positions_stream htorn]
  exact horder

theorem weaken (h : s.InOrder crc32 m base torn) : s.InOrder crc32 m base fun _ ↦ True := by
  obtain ⟨createdNs, fs, part, hstream, htorn, -⟩ := h.active
  exact ⟨⟨createdNs, fs, part, hstream, htorn, trivial⟩, h.order⟩

theorem kept (crc32 : Bytes → BitVec 32) (cfg : Config) (base : List (Uuid × ℕ × ℕ))
    (P : List ℕ → ℕ → Prop) : Kept crc32 cfg P (fun _ ↦ True) (fun _ ↦ True)
      (Session.InOrder crc32 cfg.maxRecordBytes base (· = []))
      (Session.InOrder crc32 cfg.maxRecordBytes base fun _ ↦ True) where
  settle := fun hs h ↦ h.of_settles hs
  rotate := fun h hbuffer _ _ _ ↦ h.rotated hbuffer _ _
  write := fun f h _ _ ↦ h.wrote f
  tear := fun f _ h _ hn ↦ h.tore f hn
  weaken := weaken
  settleAfter := fun hs h ↦ h.of_settles hs

/-- A process starts with the files that it finds. -/
theorem spawned {files : List SegmentFile} {name createdNs retainedBytes : ℕ}
    (h : (files.flatMap (SegmentFile.positions crc32 m)).Sublist base) :
    (Thread.spawned files name createdNs retainedBytes).session.InOrder crc32 m base (· = []) := by
  have hshelf : (Thread.spawned files name createdNs retainedBytes).session.shelf =
      files ++ [⟨name, segmentHeader createdNs⟩] := rfl
  refine ⟨⟨createdNs, [], [], ?_, .inl rfl, rfl⟩, ?_⟩
  · simp [Thread.spawned, Thread.session, ActiveWriter.new, ActiveWriter.stream, body]
  · rw [hshelf, List.flatMap_append, List.flatMap_singleton, positions_header, List.append_nil]
    exact h.trans (List.sublist_append_left _ _)

/-- Files are removed beside the writer. -/
theorem deleteSegments (h : s.InOrder crc32 m base torn) (root : Root) (paths : List ℕ)
    (failing : Option ℕ) : (s.deleteSegments root paths failing).InOrder crc32 m base torn := by
  refine ⟨h.active, List.Sublist.trans ?_ h.order⟩
  exact ((root.deleteSegments_sublist paths failing s.sealedFiles).append
    (List.Sublist.refl _)).flatMap _

/-- The process ends, and the buffer is lost. -/
theorem disk (h : s.InOrder crc32 m base torn) :
    (s.disk.flatMap (SegmentFile.positions crc32 m)).Sublist
      (base ++ s.allRows.map ContentIndexRecord.position) := by
  obtain ⟨createdNs, fs, part, hstream, htorn, -⟩ := h.active
  have hfile : s.writer.file.bytes <+: segmentHeader createdNs ++ body crc32 fs ++ part :=
    hstream ▸ List.prefix_append _ _
  refine List.Sublist.trans ?_ h.order
  rw [Session.disk, Session.shelf, List.flatMap_append, List.flatMap_append, List.flatMap_singleton,
    List.flatMap_singleton, hstream]
  exact (List.Sublist.refl _).append (positions_sublist htorn hfile)

end Session.InOrder

/-! ## The names of the files -/

/-- The files of the directory have different names and were created in this order: `before`
the step, or last with the name that the step gives. -/
structure Named (root : Root) (before : List ℕ) (new : Option ℕ) (names : List ℕ) : Prop where
  nodup : (names.map root.path).Nodup
  inOrder : names.Sublist before ∨ ∃ older, names = older ++ new.toList ∧ older.Sublist before

namespace Named

variable {root : Root} {before names : List ℕ} {new : Option ℕ}

theorem sublist_append (h : Named root before new names) : names.Sublist (before ++ new.toList) := by
  rcases h.inOrder with hold | ⟨older, rfl, hold⟩
  · exact hold.trans (List.sublist_append_left _ _)
  · exact hold.append (List.Sublist.refl _)

theorem of_sublist (hnodup : (names.map root.path).Nodup) (h : names.Sublist before) :
    Named root before new names :=
  ⟨hnodup, .inl h⟩

/-- A name that is not taken comes last, and only once. -/
theorem append (h : Named root before new names) {name : ℕ} (hnew : new = some name)
    (hfree : root.path name ∉ names.map root.path) : Named root before new (names ++ [name]) := by
  refine ⟨?_, ?_⟩
  · rw [List.map_append, List.nodup_append]
    refine ⟨h.nodup, by simp, ?_⟩
    intro path hmem last hlast heq
    rw [List.map_singleton, List.mem_singleton] at hlast
    exact hfree (hlast ▸ heq ▸ hmem)
  · rcases h.inOrder with hold | ⟨older, rfl, hold⟩
    · exact .inr ⟨names, by rw [hnew]; rfl, hold⟩
    · rw [hnew] at hfree
      simp at hfree

theorem kept (crc32 : Bytes → BitVec 32) (cfg : Config) (root : Root) (before : List ℕ)
    (new : Option ℕ) : Kept crc32 cfg
      (fun names name ↦ new = some name ∧ root.path name ∉ names.map root.path) (fun _ ↦ True)
      (fun _ ↦ True) (fun s ↦ Named root before new (s.disk.map SegmentFile.name))
      (fun s ↦ Named root before new (s.disk.map SegmentFile.name)) where
  settle := fun {s s'} hs h ↦ by
    have hnames : s'.disk.map SegmentFile.name = s.disk.map SegmentFile.name := by
      simp [Session.disk, hs.sealedFiles, hs.name]
    exact hnames ▸ h
  rotate := fun {s name createdNs} h _ _ _ hname ↦ by
    have hnames : (s.rotated name createdNs).disk.map SegmentFile.name =
        s.disk.map SegmentFile.name ++ [name] := by
      simp [Session.disk, Session.rotated, ActiveWriter.new]
    rw [hnames]
    exact h.append hname.1 hname.2
  write := fun _ h _ _ ↦ h
  tear := fun _ _ h _ _ ↦ h
  weaken := id
  settleAfter := fun {s s'} hs h ↦ by
    have hnames : s'.disk.map SegmentFile.name = s.disk.map SegmentFile.name := by
      simp [Session.disk, hs.sealedFiles, hs.name]
    exact hnames ▸ h

end Named

/-! ## Runs -/

/-- The number that an event gives a new file. -/
def StoreEvent.newName : StoreEvent → Option ℕ
  | openStore name _ => name
  | writer e => e.newName
  | _ => none

/-- The numbers of all files that a run asks for, in this order. -/
def creations (es : List StoreEvent) : List ℕ := es.filterMap StoreEvent.newName

namespace Store

variable (crc32 : Bytes → BitVec 32) (cfg : Config) (root : Root)

/-- The rows of the records that an event writes. -/
def rowsWritten : Store → StoreEvent → List ContentIndexRecord
  | .running t, .writer e =>
      rowWritten (e.createNew (root.taken t.session.disk))
        (t.step crc32 cfg (e.createNew (root.taken t.session.disk)))
  | _, _ => []

/-- The rows of all records that a run writes. -/
def written : Store → List StoreEvent → List ContentIndexRecord
  | _, [] => []
  | st, e :: es => st.rowsWritten crc32 cfg root e ++ (st.step crc32 cfg root e).written es

/-- What holds of a store that was reached: `created` are the files of the run, `log` the
positions of the records written. -/
structure Kempt (created : List ℕ) (log : List (Uuid × ℕ × ℕ)) (st : Store) : Prop where
  nodup : ((st.files.map SegmentFile.name).map root.path).Nodup
  created : (st.files.map SegmentFile.name).Sublist created
  order : match st with
    | .closed files => (files.flatMap (SegmentFile.positions crc32 cfg.maxRecordBytes)).Sublist log
    | .running t => ∃ base, log = base ++ t.session.allRows.map ContentIndexRecord.position ∧
        t.Holds (Session.InOrder crc32 cfg.maxRecordBytes base (· = []))
          (Session.InOrder crc32 cfg.maxRecordBytes base fun _ ↦ True)

variable {crc32 cfg root} {created : List ℕ} {log : List (Uuid × ℕ × ℕ)}

theorem positions_repaired {files repaired : List SegmentFile} {m : ℕ}
    (hnodup : (files.map SegmentFile.name).Nodup)
    (h : recoverLastSegmentTail crc32 root m files = .ok repaired) :
    (repaired.flatMap (SegmentFile.positions crc32 m)).Sublist
      (files.flatMap (SegmentFile.positions crc32 m)) := by
  rcases recoverLastSegmentTail_cases h with rfl | ⟨f, -, -, rfl⟩ | ⟨f, hf, bytes, hbytes, rfl⟩
  · exact List.Sublist.refl _
  · exact List.filter_sublist.flatMap _
  · have hkept : ∀ g ∈ files, SegmentFile.positions crc32 m
        (if g.name = f.name then { g with bytes } else g) = g.positions crc32 m := by
      intro g hg
      split_ifs with hname
      · obtain rfl := List.inj_on_of_nodup_map hnodup hg hf hname
        rw [SegmentFile.positions, SegmentFile.positions, (scanFile_recoverTail hbytes).2]
      · rfl
    rw [List.flatMap_map, List.flatMap_congr hkept]

theorem disk_spawned (files : List SegmentFile) (n createdNs retainedBytes : ℕ) :
    ((Thread.spawned files n createdNs retainedBytes).session.disk).map SegmentFile.name =
      files.map SegmentFile.name ++ [n] := by
  simp [Thread.spawned, Thread.session, Session.disk, ActiveWriter.new]

theorem Kempt.openStore {files : List SegmentFile} {name : Option ℕ} {createdNs : ℕ}
    (h : (Store.closed files).Kempt crc32 cfg root created log) :
    (openStore crc32 cfg root files name createdNs).Kempt crc32 cfg root
      (created ++ name.toList) log := by
  have hmore : created.Sublist (created ++ name.toList) := List.sublist_append_left _ _
  rcases openStore_cases crc32 cfg root files name createdNs with hsame | ⟨repaired, hrecover, hopen⟩
  · rw [hsame]
    exact ⟨h.nodup, h.created.trans hmore, h.order⟩
  have hnames := map_name_repaired hrecover
  have hnodup : ((repaired.map SegmentFile.name).map root.path).Nodup :=
    h.nodup.sublist (hnames.map _)
  have horder := (positions_repaired h.nodup.of_map hrecover).trans h.order
  rcases hopen with hclosed | ⟨n, hname, hfree, -, hrunning⟩
  · rw [hclosed]
    exact ⟨hnodup, (hnames.trans h.created).trans hmore, horder⟩
  · have htaken : root.path n ∉ (repaired.map SegmentFile.name).map root.path := by
      rw [List.map_map]
      exact hfree
    have hnamed : Named root created name (repaired.map SegmentFile.name ++ [n]) :=
      (Named.of_sublist hnodup (hnames.trans h.created)).append hname htaken
    rw [← disk_spawned repaired n createdNs (root.directoryBytes repaired)] at hnamed
    rw [hrunning]
    refine ⟨hnamed.nodup, hnamed.sublist_append, log, ?_, ?_⟩
    · simp [Thread.spawned, Thread.session, Session.allRows, Session.sent]
    · exact Session.InOrder.spawned horder

/-- The step lemma. -/
theorem Kempt.step {st : Store} (h : st.Kempt crc32 cfg root created log) (e : StoreEvent) :
    (st.step crc32 cfg root e).Kempt crc32 cfg root (created ++ e.newName.toList)
      (log ++ (st.rowsWritten crc32 cfg root e).map ContentIndexRecord.position) := by
  have hmore : created.Sublist (created ++ e.newName.toList) := List.sublist_append_left _ _
  cases st with
  | closed files =>
      rw [show (Store.closed files).rowsWritten crc32 cfg root e = [] from rfl, List.map_nil,
        List.append_nil]
      cases e with
      | openStore name createdNs => exact h.openStore
      | _ => exact ⟨h.nodup, h.created.trans hmore, h.order⟩
  | running t =>
      obtain ⟨base, rfl, hholds⟩ := h.order
      cases e with
      | openStore name createdNs =>
          refine ⟨h.nodup, h.created.trans hmore, base, ?_, hholds⟩
          exact List.append_nil _
      | writer e =>
          have hnamed := (Named.kept crc32 cfg root created e.newName).step
            (t := t) (e := e.createNew (root.taken t.session.disk))
            ((Thread.holds_self t).mpr (Named.of_sublist h.nodup h.created))
            (Event.createNew_meets (fun name hname hfree ↦ ⟨hname, by
              rw [List.map_map]
              exact Root.taken_eq_false.mp hfree⟩) (fun _ _ ↦ trivial) fun _ _ ↦ trivial)
          have hinOrder := (Session.InOrder.kept crc32 cfg base fun _ _ ↦ True).step
            (e := e.createNew (root.taken t.session.disk)) hholds
            (Event.createNew_meets (fun _ _ _ ↦ trivial) (fun _ _ ↦ trivial) fun _ _ ↦ trivial)
          have hnamed := (Thread.holds_self _).mp hnamed
          refine ⟨hnamed.nodup, hnamed.sublist_append, base, ?_, hinOrder⟩
          rw [Thread.allRows_step, List.map_append, List.append_assoc]
          rfl
      | deleteSegments paths failing =>
          have hdisk : ((t.session.deleteSegments root paths failing).disk).Sublist
              t.session.disk :=
            (root.deleteSegments_sublist paths failing t.session.sealedFiles).append
              (List.Sublist.refl _)
          have hsub := hdisk.map SegmentFile.name
          rw [← Thread.session_mapSession (fun s ↦ s.deleteSegments root paths failing) t] at hsub
          refine ⟨h.nodup.sublist (hsub.map _), (hsub.trans h.created).trans hmore, base, ?_, ?_⟩
          · rw [Thread.session_mapSession]
            exact List.append_nil _
          · exact hholds.mapSession (fun s hs ↦ hs.deleteSegments root paths failing)
              fun s hs ↦ hs.deleteSegments root paths failing
      | exit =>
          refine ⟨h.nodup, h.created.trans hmore, ?_⟩
          have hafter := hholds.session fun s hs ↦ hs.weaken
          exact hafter.disk.trans (List.sublist_append_left _ _)

/-- The run lemma. -/
theorem Kempt.after {st : Store} (h : st.Kempt crc32 cfg root created log) (es : List StoreEvent) :
    (runFrom (Store.step crc32 cfg root) st es).Kempt crc32 cfg root (created ++ creations es)
      (log ++ (st.written crc32 cfg root es).map ContentIndexRecord.position) := by
  induction es generalizing st created log with
  | nil => simpa [creations, written] using h
  | cons e es ih =>
      have hcreations : creations (e :: es) = e.newName.toList ++ creations es := by
        rw [creations, List.filterMap_cons]
        cases e.newName with
        | none => rfl
        | some name => rfl
      have hnext := ih (h.step e)
      rw [List.append_assoc, List.append_assoc, ← hcreations, ← List.map_append] at hnext
      exact hnext

end Store

/-! ## The property -/

/-- The names in the directory are those of the files, and of others that are no segments. -/
def Root.Reads (root : Root) (files : List SegmentFile) (entries : List Text) : Prop :=
  ∃ other, entries.Perm (files.map (fun f ↦ root.path f.name) ++ other) ∧
    ∀ name ∈ other, extension name ≠ some seg

/-- The positions of the records in the order in which a replay of these paths finds them. -/
def Root.replayed (root : Root) (crc32 : Bytes → BitVec 32) (m : ℕ) (files : List SegmentFile)
    (paths : List Text) : List (Uuid × ℕ × ℕ) :=
  paths.flatMap fun path ↦
    ((files.find? fun f ↦ decide (root.path f.name = path)).map (SegmentFile.positions crc32 m)).getD []

/-- The files are listed in the order of their creation.  So the newest one is the last, it is
the one that recovery repairs, and a replay finds the records in the order in which they were
written. -/
structure Enumerated (crc32 : Bytes → BitVec 32) (m : ℕ) (root : Root) (st : Store)
    (log : List (Uuid × ℕ × ℕ)) : Prop where
  listed : ∀ entries, root.Reads st.files entries →
    listSegments entries = st.files.map fun f ↦ root.path f.name
  latest : ∀ entries, root.Reads st.files entries →
    latestSegmentPath entries = st.files.getLast?.map fun f ↦ root.path f.name
  recovered : ∀ older newest, st.files = older ++ [newest] →
    recoverLastSegmentTail crc32 root m st.files = (recoverTail crc32 m newest.bytes).map fun left ↦
      older ++ (left.map fun bytes ↦ { newest with bytes }).toList
  snapshot : ∀ s entries, st = .running (.looping s) → root.Reads st.files entries →
    (listSegments entries).filter (fun path ↦ decide (path ≠ root.path s.writer.file.name)) =
        s.sealedFiles.map (fun f ↦ root.path f.name) ∧
      (root.replayed crc32 m st.files ((listSegments entries).filter
        fun path ↦ decide (path ≠ root.path s.writer.file.name))).Sublist log

section

variable {crc32 : Bytes → BitVec 32} {cfg : Config} {m : ℕ} {root : Root}
  {files : List SegmentFile}

theorem listSegments_eq (hext : ∀ n, extension (root.path n) = some seg)
    (hsorted : (files.map fun f ↦ root.path f.name).Pairwise (· ≤ ·)) {entries : List Text}
    (h : root.Reads files entries) : listSegments entries = files.map fun f ↦ root.path f.name := by
  obtain ⟨other, hperm, hother⟩ := h
  refine insertionSort_eq_of_perm ((hperm.filter _).trans ?_) hsorted
  have hmine : (files.map fun f ↦ root.path f.name).filter
      (fun name ↦ decide (extension name = some seg)) = files.map fun f ↦ root.path f.name := by
    refine List.filter_eq_self.mpr fun name hname ↦ ?_
    obtain ⟨f, -, rfl⟩ := List.mem_map.mp hname
    exact decide_eq_true (hext f.name)
  have htheirs : other.filter (fun name ↦ decide (extension name = some seg)) = [] :=
    List.filter_eq_nil_iff.mpr fun name hname ↦ by simpa using hother name hname
  rw [List.filter_append, hmine, htheirs, List.append_nil]

theorem find?_path (hnodup : (files.map fun f ↦ root.path f.name).Nodup) {f : SegmentFile}
    (hf : f ∈ files) :
    (files.find? fun g ↦ decide (root.path g.name = root.path f.name)) = some f := by
  cases hfind : files.find? fun g ↦ decide (root.path g.name = root.path f.name) with
  | none => simpa using List.find?_eq_none.mp hfind f hf
  | some g =>
      have hname : root.path g.name = root.path f.name := by simpa using List.find?_some hfind
      exact congrArg some (List.inj_on_of_nodup_map hnodup (List.mem_of_find?_eq_some hfind) hf hname)

theorem recoverLastSegmentTail_newest {older : List SegmentFile} {newest : SegmentFile}
    (hnodup : ((older ++ [newest]).map fun f ↦ root.path f.name).Nodup)
    (hlast : latestSegmentPath ((older ++ [newest]).map fun f ↦ root.path f.name) =
      some (root.path newest.name)) :
    recoverLastSegmentTail crc32 root m (older ++ [newest]) =
      (recoverTail crc32 m newest.bytes).map fun left ↦
        older ++ (left.map fun bytes ↦ { newest with bytes }).toList := by
  have hfind := find?_path hnodup (List.mem_append_right older (List.mem_singleton_self newest))
  have hother : ∀ f ∈ older, f.name ≠ newest.name := by
    intro f hf heq
    rw [List.map_append, List.nodup_append] at hnodup
    exact hnodup.2.2 _ (List.mem_map_of_mem hf) _
      (List.mem_map_of_mem (List.mem_singleton_self newest)) (congrArg root.path heq)
  unfold recoverLastSegmentTail
  rw [hlast]
  dsimp only
  rw [hfind]
  dsimp only
  cases recoverTail crc32 m newest.bytes with
  | error e => rfl
  | ok left =>
      cases left with
      | none =>
          refine congrArg Except.ok ?_
          rw [List.filter_append, List.filter_eq_self.mpr fun f hf ↦ decide_eq_true (hother f hf)]
          simp
      | some bytes =>
          refine congrArg Except.ok ?_
          rw [List.map_append, List.map_congr_left fun f hf ↦ if_neg (hother f hf), List.map_id'']
          · simp
          · exact fun _ ↦ rfl

theorem replayed_paths (hnodup : (files.map fun f ↦ root.path f.name).Nodup)
    {part : List SegmentFile} (hpart : ∀ f ∈ part, f ∈ files) :
    root.replayed crc32 m files (part.map fun f ↦ root.path f.name) =
      part.flatMap (SegmentFile.positions crc32 m) := by
  rw [Root.replayed, List.flatMap_map]
  refine List.flatMap_congr fun f hf ↦ ?_
  rw [find?_path hnodup (hpart f hf)]
  rfl

/-- Files whose names are sorted are enumerated. -/
theorem enumerated_of_sorted {st : Store} {created : List ℕ} {log : List (Uuid × ℕ × ℕ)}
    (h : st.Kempt crc32 cfg root created log) (hext : ∀ n, extension (root.path n) = some seg)
    (hsorted : (st.files.map fun f ↦ root.path f.name).Pairwise (· ≤ ·)) :
    Enumerated crc32 cfg.maxRecordBytes root st log := by
  have hnodup : (st.files.map fun f ↦ root.path f.name).Nodup := by
    have := h.nodup
    rwa [List.map_map] at this
  have hlisted : ∀ entries, root.Reads st.files entries →
      listSegments entries = st.files.map fun f ↦ root.path f.name :=
    fun entries hreads ↦ listSegments_eq hext hsorted hreads
  have hlatest : ∀ entries, root.Reads st.files entries →
      latestSegmentPath entries = st.files.getLast?.map fun f ↦ root.path f.name := by
    intro entries hreads
    rw [latestSegmentPath, hlisted entries hreads, List.getLast?_map]
  refine ⟨hlisted, hlatest, fun older newest hfiles ↦ ?_, ?_⟩
  · have hreads : root.Reads st.files (st.files.map fun f ↦ root.path f.name) :=
      ⟨[], by rw [List.append_nil], by simp⟩
    have hlast := hlatest _ hreads
    rw [hfiles, List.getLast?_concat] at hlast
    rw [hfiles] at hnodup ⊢
    exact recoverLastSegmentTail_newest hnodup hlast
  · rintro s entries rfl hreads
    have hfiles : (Store.running (.looping s)).files = s.sealedFiles ++ [s.writer.file] := rfl
    have hsplit : (listSegments entries).filter
        (fun path ↦ decide (path ≠ root.path s.writer.file.name)) =
          s.sealedFiles.map fun f ↦ root.path f.name := by
      rw [hlisted entries hreads, hfiles, List.map_append, List.filter_append,
        List.filter_eq_self.mpr]
      · simp
      · intro path hpath
        rw [hfiles, List.map_append, List.nodup_append] at hnodup
        exact decide_eq_true (hnodup.2.2 path hpath _ List.mem_cons_self)
    refine ⟨hsplit, ?_⟩
    obtain ⟨base, rfl, hholds⟩ := h.order
    rw [hsplit, replayed_paths hnodup fun f hf ↦ hfiles ▸ List.mem_append_left _ hf]
    refine List.Sublist.trans ?_ hholds.order
    rw [Session.shelf, List.flatMap_append]
    exact List.sublist_append_left _ _

end

/-- The files of one millisecond have increasing identifiers. -/
def Increasing (label : ℕ → Label) (files : List SegmentFile) : Prop :=
  files.Pairwise fun f g ↦
    (label f.name).created.millis = (label g.name).created.millis → (label f.name).id < (label g.name).id

instance (label : ℕ → Label) (files : List SegmentFile) : Decidable (Increasing label files) :=
  inferInstanceAs (Decidable (files.Pairwise fun f g ↦
    (label f.name).created.millis = (label g.name).created.millis →
      (label f.name).id < (label g.name).id))

/-- In every state of every run, the segment files are enumerated in the order of their
creation exactly when those of one millisecond have increasing identifiers. -/
theorem enumerated_iff_increasing (crc32 : Bytes → BitVec 32) (cfg : Config) (fmt : Formats)
    (hfmt : fmt.Documented) (label : ℕ → Label) (others : List ℕ) (es : List StoreEvent)
    (hclock : (creations es).Pairwise fun a b ↦ (label a).created.ns ≤ (label b).created.ns) :
    Enumerated crc32 cfg.maxRecordBytes (fmt.root label others)
        (runFrom (Store.step crc32 cfg (fmt.root label others)) (.closed []) es)
        (((Store.closed []).written crc32 cfg (fmt.root label others) es).map
          ContentIndexRecord.position) ↔
      Increasing label
        (runFrom (Store.step crc32 cfg (fmt.root label others)) (.closed []) es).files := by
  have hstart : (Store.closed []).Kempt crc32 cfg (fmt.root label others) [] [] :=
    ⟨List.nodup_nil, List.Sublist.refl _, List.Sublist.refl _⟩
  have hkempt := hstart.after es
  rw [List.nil_append, List.nil_append] at hkempt
  generalize runFrom (Store.step crc32 cfg (fmt.root label others)) (.closed []) es = st at hkempt ⊢
  have hext : ∀ n, extension ((fmt.root label others).path n) = some seg := fun n ↦
    extension_segmentName fmt (label n)
  have hcreated : st.files.Pairwise
      fun f g ↦ (label f.name).created.ns ≤ (label g.name).created.ns := by
    have hnames := hclock.sublist hkempt.created
    rwa [List.pairwise_map] at hnames
  constructor
  · intro h
    have hreads : (fmt.root label others).Reads st.files
        (st.files.map fun f ↦ (fmt.root label others).path f.name) :=
      ⟨[], by rw [List.append_nil], by simp⟩
    have hsorted := List.pairwise_insertionSort (· ≤ ·)
      ((st.files.map fun f ↦ (fmt.root label others).path f.name).filter
        fun name ↦ decide (extension name = some seg))
    rw [← listSegments, h.listed _ hreads, List.pairwise_map] at hsorted
    have hdistinct := hkempt.nodup
    rw [List.map_map, List.Nodup, List.pairwise_map] at hdistinct
    refine (hsorted.and hdistinct).imp fun {f g} hfg hmillis ↦ ?_
    rcases hfmt.precedes_of_segmentName_lt (lt_of_le_of_ne hfg.1 hfg.2) with hlt | ⟨-, hid⟩
    · omega
    · exact hid
  · intro h
    refine enumerated_of_sorted hkempt hext (List.pairwise_map.mpr ?_)
    refine (hcreated.and h).imp fun {f g} hfg ↦ (hfmt.segmentName_lt ?_).le
    have hle : (label f.name).created.millis ≤ (label g.name).created.millis :=
      Nat.div_le_div_right hfg.1
    rcases hle.lt_or_eq with hlt | heq
    · exact .inl hlt
    · exact .inr ⟨heq, hfg.2 heq⟩

/-! ## What the libraries print -/

/-- The days before the first of January 1970. -/
def epochDays : ℕ := 719528

/-- `%H%M%S%.3fZ`, with the milliseconds of a day. -/
def timeText (millis : ℕ) : Text :=
  digits 10 2 (millis / 3600000) ++ (digits 10 2 (millis % 3600000 / 60000) ++
    (digits 10 2 (millis % 3600000 % 60000 / 1000) ++
      ('.' :: (digits 10 3 (millis % 3600000 % 60000 % 1000) ++ ['Z']))))

/-- `%Y%m%dT` and the time. -/
def stampText (millis : ℕ) : Text :=
  let date := dateOf (epochDays + millis / 86400000)
  digits 10 4 date.year ++ (digits 10 2 date.month ++ (digits 10 2 date.day ++
    ('T' :: timeText (millis % 86400000))))

/-- The groups of an identifier have 8, 4, 4, 4 and 12 digits. -/
def hyphenatedText (n : ℕ) : Text :=
  digits 16 8 (n / 2 ^ 96) ++ ('-' :: (digits 16 4 (n % 2 ^ 96 / 2 ^ 80) ++
    ('-' :: (digits 16 4 (n % 2 ^ 96 % 2 ^ 80 / 2 ^ 64) ++
      ('-' :: (digits 16 4 (n % 2 ^ 96 % 2 ^ 80 % 2 ^ 64 / 2 ^ 48) ++
        ('-' :: digits 16 12 (n % 2 ^ 96 % 2 ^ 80 % 2 ^ 64 % 2 ^ 48))))))))

def gregorian : Formats where
  stamp := fun t ↦ stampText t.millis
  hyphenated := fun id ↦ hyphenatedText id.toNat

theorem timeText_lt {a b : ℕ} (hb : b < 86400000) (h : a < b) : timeText a < timeText b := by
  unfold timeText
  refine digits_append_lt (by omega) (by omega) ((div_lt_or h).imp_right fun ⟨hhour, hrest⟩ ↦
    ⟨hhour, ?_⟩)
  refine digits_append_lt (by omega) (by omega) ((div_lt_or hrest).imp_right fun ⟨hminute, hrest⟩ ↦
    ⟨hminute, ?_⟩)
  refine digits_append_lt (by omega) (by omega) ((div_lt_or hrest).imp_right fun ⟨hsecond, hrest⟩ ↦
    ⟨hsecond, List.cons_lt_cons_iff.mpr (.inr ⟨rfl, ?_⟩)⟩)
  exact digits_append_lt (by omega) (by omega) (.inl hrest)

theorem stampText_lt {a b : ℕ} (hb : b < 253402300800000) (h : a < b) :
    stampText a < stampText b := by
  have hday : epochDays + b / 86400000 < yearStart 10000 := by
    have hstart : yearStart 10000 = 3652425 := by decide
    rw [hstart]
    unfold epochDays
    omega
  have hyear : (dateOf (epochDays + b / 86400000)).year < 10 ^ 4 := yearOf_lt hday
  have hmonth := month_lt (epochDays + b / 86400000)
  have hdate := day_le (epochDays + b / 86400000)
  unfold stampText
  rcases div_lt_or (k := 86400000) h with hlt | ⟨heq, hrest⟩
  · refine digits_append_lt (by omega) hyear
      ((dateOf_lt (Nat.add_lt_add_left hlt epochDays)).imp_right fun ⟨hyear, hlater⟩ ↦ ⟨hyear, ?_⟩)
    refine digits_append_lt (by omega) (by omega) (hlater.imp_right fun ⟨hmonth, hday⟩ ↦ ⟨hmonth, ?_⟩)
    exact digits_append_lt (by omega) (by omega) (.inl hday)
  · have htime := timeText_lt (Nat.mod_lt b (by omega)) hrest
    rw [heq]
    refine digits_append_lt (by omega) hyear (.inr ⟨rfl, ?_⟩)
    refine digits_append_lt (by omega) (by omega) (.inr ⟨rfl, ?_⟩)
    refine digits_append_lt (by omega) (by omega) (.inr ⟨rfl, ?_⟩)
    exact List.cons_lt_cons_iff.mpr (.inr ⟨rfl, htime⟩)

theorem hyphenatedText_lt {a b : ℕ} (hb : b < 2 ^ 128) (h : a < b) :
    hyphenatedText a < hyphenatedText b := by
  have hcons : ∀ {c d : Text}, c < d → '-' :: c < '-' :: d := fun hlt ↦
    List.cons_lt_cons_iff.mpr (.inr ⟨rfl, hlt⟩)
  unfold hyphenatedText
  refine digits_append_lt (by omega) (by omega) ((div_lt_or h).imp_right fun ⟨hfirst, hrest⟩ ↦
    ⟨hfirst, hcons ?_⟩)
  refine digits_append_lt (by omega) (by omega) ((div_lt_or hrest).imp_right fun ⟨hsecond, hrest⟩ ↦
    ⟨hsecond, hcons ?_⟩)
  refine digits_append_lt (by omega) (by omega) ((div_lt_or hrest).imp_right fun ⟨hthird, hrest⟩ ↦
    ⟨hthird, hcons ?_⟩)
  refine digits_append_lt (by omega) (by omega) ((div_lt_or hrest).imp_right fun ⟨hfourth, hrest⟩ ↦
    ⟨hfourth, hcons ?_⟩)
  exact digits_lt_digits (by omega) (by omega) hrest

theorem gregorian_documented : gregorian.Documented where
  length_stamp := fun t ↦ by simp [gregorian, stampText, timeText]
  stamp_eq := fun h ↦ congrArg stampText h
  stamp_lt := fun {t t'} h ↦ by
    have hlt := t'.isLt
    refine stampText_lt ?_ h
    unfold Instant.millis
    omega
  length_hyphenated := fun id ↦ by simp [gregorian, hyphenatedText]
  hyphenated_lt := fun {id id'} h ↦ hyphenatedText_lt id'.isLt h

/-! ## Two files -/

/-- The first of January 2025, with a number of milliseconds. -/
def newYear (millis : ℕ) (h : millis < 1000) : Instant :=
  ⟨(1735689600 * 1000 + millis) * 10 ^ 6, by omega⟩

/-- An identifier as `Uuid::new_v4` makes them. -/
def randomUuid (n : ℕ) : Uuid := 0x00000000000040008000000000000000 + BitVec.ofNat 128 n

/-- The second file is created a millisecond after the first one. -/
def laterLabels (n : ℕ) : Label :=
  if n = 0 then ⟨newYear 1 (by omega), randomUuid 9⟩ else ⟨newYear 2 (by omega), randomUuid 4⟩

/-- Both files are created in one millisecond, and the second has the smaller identifier. -/
def sameLabels (n : ℕ) : Label :=
  if n = 0 then ⟨newYear 1 (by omega), randomUuid 9⟩ else ⟨newYear 1 (by omega), randomUuid 4⟩

example : gregorian.segmentName (laterLabels 0) =
    "segment-20250101T000000.001Z-00000000-0000-4000-8000-000000000009.seg".toList := by
  decide +kernel

def twoFiles : List StoreEvent :=
  [.openStore (some 0) 5, .writer (.record (sampleRecord 1 [1]) ⟨{}, true, none, 0⟩ none {}),
    .writer (.sealSegment ⟨{}, true, some 1, 6⟩ true)]

theorem enumerated_twoFiles :
    Enumerated (fun _ ↦ 0) 64 (gregorian.root laterLabels [3])
      (runFrom (Store.step (fun _ ↦ 0) smallConfig (gregorian.root laterLabels [3])) (.closed [])
        twoFiles)
      (((Store.closed []).written (fun _ ↦ 0) smallConfig (gregorian.root laterLabels [3])
        twoFiles).map ContentIndexRecord.position) :=
  (enumerated_iff_increasing (fun _ ↦ 0) smallConfig gregorian gregorian_documented laterLabels [3]
    twoFiles (by decide)).mpr (by decide +kernel)

theorem not_enumerated_twoFiles :
    (creations twoFiles).Pairwise
        (fun a b ↦ (sameLabels a).created.ns ≤ (sameLabels b).created.ns) ∧
    ¬ Enumerated (fun _ ↦ 0) 64 (gregorian.root sameLabels [3])
      (runFrom (Store.step (fun _ ↦ 0) smallConfig (gregorian.root sameLabels [3])) (.closed [])
        twoFiles)
      (((Store.closed []).written (fun _ ↦ 0) smallConfig (gregorian.root sameLabels [3])
        twoFiles).map ContentIndexRecord.position) := by
  refine ⟨by decide, fun h ↦ ?_⟩
  have hlisted := h.listed
    ((runFrom (Store.step (fun _ ↦ 0) smallConfig (gregorian.root sameLabels [3])) (.closed [])
      twoFiles).files.map fun f ↦ (gregorian.root sameLabels [3]).path f.name)
    ⟨[], by rw [List.append_nil], by simp⟩
  revert hlisted
  decide +kernel

end Bazalt.Storage
