import Bazalt.Storage.Moves
import Mathlib.Data.Char
import Mathlib.Data.List.Lex

/-!
# The segment directory

The segment files outlive the process that writes them.  A process that opens the store
repairs the file with the greatest name, counts what the directory holds and starts a
writer with a file of its own; retention removes files beside the writer; a process that
ends loses what is in the writer's buffer.
-/

namespace Bazalt.Storage

open Lib

/-- A file name. -/
abbrev Text := List Char

/-! ## Listing -/

/-- `Path::extension`: what follows the last dot, if something stands before the dot. -/
def extension (name : Text) : Option Text :=
  let tail := name.reverse.takeWhile (· ≠ '.')
  if tail.length + 1 < name.length then some tail.reverse else none

def seg : Text := ['s', 'e', 'g']

/-- `entries` are the names in the directory, in the order in which they are read. -/
def listSegments (entries : List Text) : List Text :=
  (entries.filter fun name ↦ decide (extension name = some seg)).insertionSort (· ≤ ·)

def latestSegmentPath (entries : List Text) : Option Text := (listSegments entries).getLast?

/-- The segment directory: how the files are called, and the sizes of the other files. -/
structure Root where
  path : ℕ → Text
  others : List ℕ := []

/-- `directory_bytes` -/
def Root.directoryBytes (root : Root) (files : List SegmentFile) : ℕ :=
  (files.map (fun f ↦ f.bytes.length) ++ root.others).foldl satAdd 0

/-! ## Recovery -/

section

variable (crc32 : Bytes → BitVec 32)

/-- Where the whole records from `offset` on end.  `rest` is what follows `offset`. -/
def recoverFrom (maxRecordBytes : ℕ) : ℕ → ℕ → Bytes → Except SegmentError ℕ
  | 0, offset, _ => .ok offset
  | fuel + 1, offset, rest =>
      if rest.isEmpty then .ok offset
      else if rest.length < 12 then .ok offset
      else if ofLe (rest.take 4) ≠ recordMagic then .error .badRecordMagic
      else
        let len := ofLe ((rest.drop 4).take 4)
        if maxRecordBytes < len then .error (.lengthLimit len maxRecordBytes)
        else if rest.length < 12 + len then .ok offset
        else
          let payload := (rest.drop 12).take len
          if (crc32 payload).toNat ≠ ofLe ((rest.drop 8).take 4) then .error .crcMismatch
          else match decodeRecord payload with
            | .error e => .error e
            | .ok _ => recoverFrom maxRecordBytes fuel (offset + (12 + len)) (rest.drop (12 + len))

/-- What recovery leaves of a file.  A file without a whole header is removed. -/
def recoverTail (maxRecordBytes : ℕ) (file : Bytes) : Except SegmentError (Option Bytes) :=
  if file.length < headerSize then .ok none
  else match readHeader file with
    | .error e => .error e
    | .ok () =>
        match recoverFrom crc32 maxRecordBytes (file.length + 1) headerSize (file.drop headerSize) with
        | .error e => .error e
        | .ok len => .ok (some (file.take len))

def recoverLastSegmentTail (root : Root) (maxRecordBytes : ℕ) (files : List SegmentFile) :
    Except SegmentError (List SegmentFile) :=
  match latestSegmentPath (files.map fun f ↦ root.path f.name) with
  | none => .ok files
  | some path =>
      match files.find? fun f ↦ decide (root.path f.name = path) with
      | none => .error .io
      | some f =>
          match recoverTail crc32 maxRecordBytes f.bytes with
          | .error e => .error e
          | .ok none => .ok (files.filter fun g ↦ decide (g.name ≠ f.name))
          | .ok (some bytes) => .ok (files.map fun g ↦ if g.name = f.name then { g with bytes } else g)

end

section

variable {crc32 : Bytes → BitVec 32} {m : ℕ}

theorem take_drop_take {rest : Bytes} {i n k : ℕ} (h : i + n ≤ k) :
    ((rest.take k).drop i).take n = (rest.drop i).take n := by
  rw [List.drop_take, List.take_take, min_eq_left (by omega)]

/-- What a record that is read must look like. -/
theorem readRecord_eq_some {rest : Bytes} {record : ContentRecord} {consumed : ℕ} :
    readRecord crc32 m rest = .ok (some (record, consumed)) ↔
      12 + ofLe ((rest.drop 4).take 4) ≤ rest.length ∧ ofLe (rest.take 4) = recordMagic ∧
        ofLe ((rest.drop 4).take 4) ≤ m ∧
        (crc32 ((rest.drop 12).take (ofLe ((rest.drop 4).take 4)))).toNat =
          ofLe ((rest.drop 8).take 4) ∧
        decodeRecord ((rest.drop 12).take (ofLe ((rest.drop 4).take 4))) = .ok record ∧
        consumed = 12 + ofLe ((rest.drop 4).take 4) := by
  unfold readRecord
  dsimp only
  constructor
  · intro h
    split_ifs at h with hempty hshort hmagic hmax hlong hcrc
    · cases h
    · cases hdecode : decodeRecord ((rest.drop 12).take (ofLe ((rest.drop 4).take 4))) with
      | error e =>
          rw [hdecode] at h
          cases h
      | ok r =>
          rw [hdecode] at h
          obtain ⟨rfl, rfl⟩ := Prod.mk.inj (Option.some.inj (Except.ok.inj h))
          exact ⟨by omega, not_not.mp hmagic, by omega, not_not.mp hcrc, rfl, rfl⟩
  · rintro ⟨hlong, hmagic, hmax, hcrc, hdecode, rfl⟩
    have hne : ¬ rest.isEmpty := by
      rw [List.isEmpty_iff_length_eq_zero]
      omega
    rw [if_neg hne, if_neg (by omega), if_neg (not_not.mpr hmagic), if_neg (by omega),
      if_neg (by omega), if_neg (not_not.mpr hcrc), hdecode]
    rfl

/-- A record is read from its own bytes. -/
theorem readRecord_take {rest : Bytes} {record : ContentRecord} {consumed k : ℕ}
    (h : readRecord crc32 m rest = .ok (some (record, consumed))) (hk : consumed ≤ k) :
    readRecord crc32 m (rest.take k) = .ok (some (record, consumed)) := by
  rw [readRecord_eq_some] at h ⊢
  obtain ⟨hlong, hmagic, hmax, hcrc, hdecode, rfl⟩ := h
  rw [take_drop_take (by omega), take_drop_take (by omega), take_drop_take (by omega),
    List.take_take, min_eq_left (by omega), List.length_take]
  exact ⟨by omega, hmagic, hmax, hcrc, hdecode, rfl⟩

/-- A round of the recovery: it stops where no record is read, or goes on after one. -/
theorem recoverFrom_succ {fuel offset n : ℕ} {rest : Bytes}
    (h : recoverFrom crc32 m (fuel + 1) offset rest = .ok n) :
    n = offset ∧ (∀ record consumed, readRecord crc32 m rest ≠ .ok (some (record, consumed))) ∨
      ∃ record consumed, readRecord crc32 m rest = .ok (some (record, consumed)) ∧
        recoverFrom crc32 m fuel (offset + consumed) (rest.drop consumed) = .ok n := by
  rw [recoverFrom] at h
  unfold readRecord
  by_cases hempty : rest.isEmpty
  · rw [if_pos hempty] at h ⊢
    exact .inl ⟨(Except.ok.inj h).symm, by simp⟩
  rw [if_neg hempty] at h ⊢
  by_cases hshort : rest.length < 12
  · rw [if_pos hshort] at h ⊢
    exact .inl ⟨(Except.ok.inj h).symm, by simp⟩
  rw [if_neg hshort] at h ⊢
  by_cases hmagic : ofLe (rest.take 4) ≠ recordMagic
  · rw [if_pos hmagic] at h
    cases h
  rw [if_neg hmagic] at h ⊢
  dsimp only at h ⊢
  by_cases hmax : m < ofLe ((rest.drop 4).take 4)
  · rw [if_pos hmax] at h
    cases h
  rw [if_neg hmax] at h ⊢
  by_cases hlong : rest.length < 12 + ofLe ((rest.drop 4).take 4)
  · rw [if_pos hlong] at h ⊢
    exact .inl ⟨(Except.ok.inj h).symm, by simp⟩
  rw [if_neg hlong] at h ⊢
  by_cases hcrc : (crc32 ((rest.drop 12).take (ofLe ((rest.drop 4).take 4)))).toNat ≠
      ofLe ((rest.drop 8).take 4)
  · rw [if_pos hcrc] at h
    cases h
  rw [if_neg hcrc] at h ⊢
  cases hdecode : decodeRecord ((rest.drop 12).take (ofLe ((rest.drop 4).take 4))) with
  | error e =>
      rw [hdecode] at h
      cases h
  | ok record =>
      rw [hdecode] at h
      exact .inr ⟨record, _, rfl, h⟩

theorem scanFrom_recoverFrom {fuel : ℕ} : ∀ {offset n : ℕ} {rest : Bytes}, rest.length < fuel →
    recoverFrom crc32 m fuel offset rest = .ok n → offset ≤ n ∧ n ≤ offset + rest.length ∧
      ∀ fuel', (rest.take (n - offset)).length < fuel' →
        (scanFrom crc32 m fuel' offset (rest.take (n - offset))).1 =
          (scanFrom crc32 m fuel offset rest).1 := by
  induction fuel with
  | zero =>
      intro offset n rest hfuel
      omega
  | succ fuel ih =>
      intro offset n rest hfuel h
      rcases recoverFrom_succ h with ⟨rfl, hnone⟩ | ⟨record, consumed, hread, hrest⟩
      · have hstop : (scanFrom crc32 m (fuel + 1) n rest).1 = [] := by
          rw [scanFrom]
          split
          · rfl
          · rfl
          · next hread => exact absurd hread (hnone _ _)
        refine ⟨le_rfl, by omega, fun fuel' hfuel' ↦ ?_⟩
        rw [hstop, Nat.sub_self, List.take_zero]
        cases fuel' with
        | zero => rfl
        | succ fuel' => rfl
      · obtain ⟨hle, -, -, -, -, hconsumed⟩ := readRecord_eq_some.mp hread
        obtain ⟨hfrom, hto, hscan⟩ := ih (by rw [List.length_drop]; omega) hrest
        rw [List.length_drop] at hto
        refine ⟨by omega, by omega, fun fuel' hfuel' ↦ ?_⟩
        rw [List.length_take] at hfuel'
        obtain ⟨fuel', rfl⟩ : ∃ k, fuel' = k + 1 := ⟨fuel' - 1, by omega⟩
        have hdrop : (rest.take (n - offset)).drop consumed =
            (rest.drop consumed).take (n - (offset + consumed)) := by
          rw [List.drop_take, Nat.sub_sub]
        rw [scanFrom, scanFrom, readRecord_take hread (by omega), hread]
        dsimp only
        rw [hdrop, hscan fuel' (by rw [List.length_take, List.length_drop]; omega)]

theorem readHeader_take {file : Bytes} {k : ℕ} (h : readHeader file = .ok ()) (hk : headerSize ≤ k) :
    readHeader (file.take k) = .ok () := by
  have hsize : headerSize = 20 := rfl
  unfold readHeader at h
  split_ifs at h with h₁ h₂ h₃ h₄ h₅
  have hlen : (file.take k).length = min k file.length := List.length_take
  have hhead : (file.take k).take 8 = file.take 8 := by
    rw [List.take_take, min_eq_left (by omega)]
  unfold readHeader
  rw [if_neg (by omega), hhead, if_neg h₂, if_neg (by omega), take_drop_take (by omega), if_neg h₄,
    if_neg (by omega)]

/-- Recovery cuts off nothing that a scan would read. -/
theorem scanFile_recoverTail {file bytes : Bytes} (h : recoverTail crc32 m file = .ok (some bytes)) :
    bytes <+: file ∧ (scanFile crc32 m bytes).1 = (scanFile crc32 m file).1 := by
  unfold recoverTail at h
  by_cases hshort : file.length < headerSize
  · rw [if_pos hshort] at h
    cases h
  rw [if_neg hshort] at h
  cases hheader : readHeader file with
  | error e =>
      rw [hheader] at h
      cases h
  | ok u =>
      rw [hheader] at h
      dsimp only at h
      cases hrecover : recoverFrom crc32 m (file.length + 1) headerSize (file.drop headerSize) with
      | error e =>
          rw [hrecover] at h
          cases h
      | ok n =>
          rw [hrecover] at h
          obtain rfl := Option.some.inj (Except.ok.inj h)
          obtain ⟨hfrom, hto, hscan⟩ := scanFrom_recoverFrom (by rw [List.length_drop]; omega) hrecover
          refine ⟨List.take_prefix _ _, ?_⟩
          rw [scanFile, scanFile, readHeader_take hheader hfrom, hheader]
          dsimp only
          rw [List.drop_take]
          refine hscan _ ?_
          rw [List.length_take, List.length_drop, List.length_take]
          omega

/-- A file without a whole header has no records. -/
theorem scanFile_recoverTail_none {file : Bytes} (h : recoverTail crc32 m file = .ok none) :
    (scanFile crc32 m file).1 = [] := by
  unfold recoverTail at h
  by_cases hshort : file.length < headerSize
  · obtain ⟨e, he⟩ := readHeader_short hshort
    rw [scanFile, he]
  · rw [if_neg hshort] at h
    cases hheader : readHeader file with
    | error e =>
        rw [hheader] at h
        cases h
    | ok u =>
        rw [hheader] at h
        dsimp only at h
        split at h
        · cases h
        · cases h

/-- Recovery does nothing, removes a file or cuts off its tail. -/
theorem recoverLastSegmentTail_cases {root : Root} {files repaired : List SegmentFile}
    (h : recoverLastSegmentTail crc32 root m files = .ok repaired) : repaired = files ∨
      (∃ f ∈ files, recoverTail crc32 m f.bytes = .ok none ∧
        repaired = files.filter fun g ↦ decide (g.name ≠ f.name)) ∨
      ∃ f ∈ files, ∃ bytes, recoverTail crc32 m f.bytes = .ok (some bytes) ∧
        repaired = files.map fun g ↦ if g.name = f.name then { g with bytes } else g := by
  unfold recoverLastSegmentTail at h
  split at h
  · exact .inl (Except.ok.inj h).symm
  · split at h
    · cases h
    · next path hpath f hfind =>
        have hf := List.mem_of_find?_eq_some hfind
        split at h
        · cases h
        · next hnone => exact .inr (.inl ⟨f, hf, hnone, (Except.ok.inj h).symm⟩)
        · next bytes hbytes => exact .inr (.inr ⟨f, hf, bytes, hbytes, (Except.ok.inj h).symm⟩)

/-- Every record of the files is still there after recovery. -/
theorem scanFile_repaired {root : Root} {files repaired : List SegmentFile}
    (hnames : (files.map SegmentFile.name).Nodup)
    (h : recoverLastSegmentTail crc32 root m files = .ok repaired) {g : SegmentFile} (hg : g ∈ files)
    {r : ℕ × ContentRecord} (hr : r ∈ (scanFile crc32 m g.bytes).1) :
    ∃ g' ∈ repaired, g'.name = g.name ∧ r ∈ (scanFile crc32 m g'.bytes).1 := by
  rcases recoverLastSegmentTail_cases h with rfl | ⟨f, hf, hnone, rfl⟩ | ⟨f, hf, bytes, hbytes, rfl⟩
  · exact ⟨g, hg, rfl, hr⟩
  · refine ⟨g, List.mem_filter.mpr ⟨hg, decide_eq_true fun hname ↦ ?_⟩, rfl, hr⟩
    obtain rfl := List.inj_on_of_nodup_map hnames hg hf hname
    rw [scanFile_recoverTail_none hnone] at hr
    cases hr
  · refine ⟨_, List.mem_map_of_mem hg, ?_⟩
    split_ifs with hname
    · obtain rfl := List.inj_on_of_nodup_map hnames hg hf hname
      exact ⟨rfl, by rw [(scanFile_recoverTail hbytes).2]; exact hr⟩
    · exact ⟨rfl, hr⟩

theorem map_name_repaired {root : Root} {files repaired : List SegmentFile}
    (h : recoverLastSegmentTail crc32 root m files = .ok repaired) :
    (repaired.map SegmentFile.name).Sublist (files.map SegmentFile.name) := by
  rcases recoverLastSegmentTail_cases h with rfl | ⟨f, -, -, rfl⟩ | ⟨f, -, bytes, -, rfl⟩
  · exact List.Sublist.refl _
  · exact List.filter_sublist.map _
  · rw [List.map_map]
    refine (List.map_congr_left fun g _ ↦ ?_) ▸ List.Sublist.refl _
    simp only [Function.comp_apply]
    split_ifs <;> rfl

end

/-! ## The store -/

/-- A directory without a writer, or one with the files of a writer. -/
inductive Store where
  | closed (files : List SegmentFile)
  | running (t : Thread)
  deriving DecidableEq, Repr

/-- The files of the directory, in the order in which they were created. -/
def Store.files : Store → List SegmentFile
  | closed files => files
  | running t => t.session.disk

inductive StoreEvent where
  /-- `SegmentStore::open`; `name` and `createdNs` are those of the writer's file, if it can
  be created. -/
  | openStore (name : Option ℕ) (createdNs : ℕ)
  | writer (e : Event)
  /-- `delete_segments`.  The paths are those of `retention_candidates`, so none of them is
  that of the active file; the removal of the file number `failing` fails. -/
  | deleteSegments (paths : List ℕ) (failing : Option ℕ)
  /-- The process ends. -/
  | exit
  deriving DecidableEq, Repr

/-- `create_new`: a name that is taken is an error. -/
def Event.createNew (taken : ℕ → Bool) : Event → Event
  | .record r io accepted publish =>
      .record r { io with name := io.name.filter (! taken ·) } accepted publish
  | .sealSegment io listed => .sealSegment { io with name := io.name.filter (! taken ·) } listed
  | e => e

namespace Root

def taken (root : Root) (files : List SegmentFile) (name : ℕ) : Bool :=
  files.any fun f ↦ decide (root.path f.name = root.path name)

/-- The files are removed one after the other, up to the first error. -/
def deleteSegments (root : Root) : List ℕ → Option ℕ → List SegmentFile → List SegmentFile
  | [], _, files => files
  | name :: names, failing, files =>
      if failing = some 0 ∨ root.taken files name = false then files
      else root.deleteSegments names (failing.map (· - 1))
        (files.filter fun f ↦ decide (root.path f.name ≠ root.path name))

end Root

theorem Root.taken_eq_false {root : Root} {files : List SegmentFile} {name : ℕ} :
    root.taken files name = false ↔ root.path name ∉ files.map fun f ↦ root.path f.name := by
  simp only [Root.taken, List.any_eq_false, decide_eq_true_eq, List.mem_map, not_exists, not_and]

def Session.deleteSegments (root : Root) (s : Session) (paths : List ℕ) (failing : Option ℕ) :
    Session :=
  { s with sealedFiles := root.deleteSegments paths failing s.sealedFiles }

/-- Something happens to the files beside the writer. -/
def Thread.mapSession (f : Session → Session) : Thread → Thread
  | looping s => .looping (f s)
  | closing s => .closing (f s)
  | stopped s => .stopped (f s)

@[simp] theorem Thread.session_mapSession (f : Session → Session) (t : Thread) :
    (t.mapSession f).session = f t.session := by
  cases t <;> rfl

/-- What happens beside the writer keeps what it keeps in the loop and after it. -/
theorem Thread.Holds.mapSession {I J : Session → Prop} {f : Session → Session} {t : Thread}
    (h : t.Holds I J) (hI : ∀ s, I s → I (f s)) (hJ : ∀ s, J s → J (f s)) :
    (t.mapSession f).Holds I J := by
  cases t with
  | looping s => exact hI s h
  | closing s => exact hJ s h
  | stopped s => exact hJ s h

namespace Store

variable (crc32 : Bytes → BitVec 32) (cfg : Config) (root : Root)

/-- The directory is repaired and within the budget, and the writer has a file. -/
def openStore (files : List SegmentFile) (name : Option ℕ) (createdNs : ℕ) : Store :=
  match recoverLastSegmentTail crc32 root cfg.maxRecordBytes files with
  | .error _ => .closed files
  | .ok files =>
      if cfg.storeMaxBytes < root.directoryBytes files then .closed files
      else match name.filter (! root.taken files ·) with
        | none => .closed files
        | some name => .running (.spawned files name createdNs (root.directoryBytes files))

def step : Store → StoreEvent → Store
  | .closed files, .openStore name createdNs => openStore crc32 cfg root files name createdNs
  | .closed files, _ => .closed files
  | .running t, .writer e =>
      .running (t.step crc32 cfg (e.createNew (root.taken t.session.disk))).1
  | .running t, .deleteSegments paths failing =>
      .running (t.mapSession fun s ↦ s.deleteSegments root paths failing)
  | .running t, .exit => .closed t.session.disk
  | .running t, .openStore _ _ => .running t

end Store

/-- Opening repairs the directory or leaves it as it is, and starts a writer with a file that
was not there, or none. -/
theorem Store.openStore_cases (crc32 : Bytes → BitVec 32) (cfg : Config) (root : Root)
    (files : List SegmentFile) (name : Option ℕ) (createdNs : ℕ) :
    openStore crc32 cfg root files name createdNs = .closed files ∨
      ∃ repaired, recoverLastSegmentTail crc32 root cfg.maxRecordBytes files = .ok repaired ∧
        (openStore crc32 cfg root files name createdNs = .closed repaired ∨
          ∃ n, name = some n ∧ root.path n ∉ repaired.map (fun f ↦ root.path f.name) ∧
            root.directoryBytes repaired ≤ cfg.storeMaxBytes ∧
            openStore crc32 cfg root files name createdNs =
              .running (.spawned repaired n createdNs (root.directoryBytes repaired))) := by
  unfold openStore
  cases hrecover : recoverLastSegmentTail crc32 root cfg.maxRecordBytes files with
  | error e => exact .inl rfl
  | ok repaired =>
      refine .inr ⟨repaired, rfl, ?_⟩
      dsimp only
      split_ifs with hover
      · exact .inl rfl
      · cases hname : name.filter (! root.taken repaired ·) with
        | none => exact .inl rfl
        | some n =>
            obtain ⟨hsome, hfree⟩ := Option.filter_eq_some_iff.mp hname
            exact .inr ⟨n, hsome, Root.taken_eq_false.mp (by simpa using hfree), not_lt.mp hover, rfl⟩

/-! ## New files and removed ones -/

theorem Event.createNew_meets {P : List ℕ → ℕ → Prop} {Q : ContentRecord → Prop} {R : ℕ → Prop}
    {taken : ℕ → Bool} {names : List ℕ} {e : Event}
    (hname : ∀ name ∈ e.newName, taken name = false → P names name)
    (hrecord : ∀ r ∈ appended [e], Q r) (haccepted : ∀ n ∈ e.accepted, R n) :
    (e.createNew taken).Meets P Q R names := by
  have hnew : ∀ {io : Option ℕ}, (∀ name ∈ io, taken name = false → P names name) →
      ∀ name ∈ io.filter (! taken ·), P names name := by
    intro io hio name hmem
    obtain ⟨hsome, hfree⟩ := Option.filter_eq_some_iff.mp hmem
    exact hio name hsome (by simpa using hfree)
  cases e with
  | record r io accepted publish => exact ⟨hnew hname, hrecord, haccepted⟩
  | sealSegment io listed => exact ⟨hnew hname, hrecord, haccepted⟩
  | _ => exact ⟨by simp [Event.createNew, Event.newName], hrecord, haccepted⟩

theorem Root.deleteSegments_sublist (root : Root) (names : List ℕ) (failing : Option ℕ)
    (files : List SegmentFile) : (root.deleteSegments names failing files).Sublist files := by
  induction names generalizing failing files with
  | nil => exact List.Sublist.refl files
  | cons name names ih =>
      rw [Root.deleteSegments]
      split_ifs
      · exact List.Sublist.refl files
      · exact (ih _ _).trans List.filter_sublist

end Bazalt.Storage
