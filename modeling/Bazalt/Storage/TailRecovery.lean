import Bazalt.Storage.Directory

/-!
# What recovery makes of the newest segment file

Recovery walks over the records of the newest file with its own arithmetic.  What a writer
that was interrupted can leave is cut off; a record that is there in full and cannot be read
is an error, and then the directory is not touched.
-/

namespace Bazalt.Storage

open Lib

/-- The directory with `bytes` as the content of the file `name`. -/
def replaced (name : ℕ) (bytes : Bytes) (files : List SegmentFile) : List SegmentFile :=
  files.map fun g ↦ if g.name = name then { g with bytes } else g

/-! ## Recovery and the directory it leaves -/

namespace Recovery

/-- `File::set_len`, for a length that the file has. -/
def setLen (name len : ℕ) (files : List SegmentFile) : List SegmentFile :=
  files.map fun g ↦ if g.name = name then { g with bytes := g.bytes.take len } else g

def removeFile (name : ℕ) (files : List SegmentFile) : List SegmentFile :=
  files.filter fun g ↦ decide (g.name ≠ name)

variable (crc32 : Bytes → BitVec 32)

/-- The loop over the records of the file `name`.  `rest` is what follows `offset`. -/
def recoverRecords (maxRecordBytes name : ℕ) (files : List SegmentFile) :
    ℕ → ℕ → Bytes → Except SegmentError Unit × List SegmentFile
  | 0, _, _ => (.ok (), files)
  | fuel + 1, offset, rest =>
      if rest.isEmpty then (.ok (), files)
      else if rest.length < 12 then (.ok (), setLen name offset files)
      else if ofLe (rest.take 4) ≠ recordMagic then (.error .badRecordMagic, files)
      else
        let len := ofLe ((rest.drop 4).take 4)
        if maxRecordBytes < len then (.error (.lengthLimit len maxRecordBytes), files)
        else if rest.length < 12 + len then (.ok (), setLen name offset files)
        else
          let payload := (rest.drop 12).take len
          if (crc32 payload).toNat ≠ ofLe ((rest.drop 8).take 4) then (.error .crcMismatch, files)
          else match decodeRecord payload with
            | .error e => (.error e, files)
            | .ok _ =>
                recoverRecords maxRecordBytes name files fuel (offset + (12 + len))
                  (rest.drop (12 + len))

/-- `recover_last_segment_tail`, with the directory it leaves when it fails. -/
def recoverLastSegmentTail (root : Root) (maxRecordBytes : ℕ) (files : List SegmentFile) :
    Except SegmentError Unit × List SegmentFile :=
  match latestSegmentPath (files.map fun f ↦ root.path f.name) with
  | none => (.ok (), files)
  | some path =>
      match files.find? fun f ↦ decide (root.path f.name = path) with
      | none => (.error .io, files)
      | some f =>
          if f.bytes.length < headerSize then (.ok (), removeFile f.name files)
          else match readHeader f.bytes with
            | .error e => (.error e, files)
            | .ok () =>
                recoverRecords crc32 maxRecordBytes f.name files (f.bytes.length + 1) headerSize
                  (f.bytes.drop headerSize)

end Recovery

/-- `f` is the file that recovery looks at.  Paths in a directory are distinct. -/
structure Newest (root : Root) (files : List SegmentFile) (f : SegmentFile) : Prop where
  mem : f ∈ files
  nodup : (files.map fun g ↦ root.path g.name).Nodup
  latest : latestSegmentPath (files.map fun g ↦ root.path g.name) = some (root.path f.name)

namespace Newest

variable {root : Root} {files : List SegmentFile} {f : SegmentFile}

theorem find (h : Newest root files f) :
    (files.find? fun g ↦ decide (root.path g.name = root.path f.name)) = some f := by
  cases hfind : files.find? fun g ↦ decide (root.path g.name = root.path f.name) with
  | none => simpa using List.find?_eq_none.mp hfind f h.mem
  | some g =>
      have hg := List.find?_some hfind
      have hmem := List.mem_of_find?_eq_some hfind
      rw [List.inj_on_of_nodup_map h.nodup hmem h.mem (of_decide_eq_true hg)]

theorem eq_of_name (h : Newest root files f) {g : SegmentFile} (hg : g ∈ files)
    (hname : g.name = f.name) : g = f :=
  List.inj_on_of_nodup_map h.nodup hg h.mem (congrArg root.path hname)

theorem setLen_eq (h : Newest root files f) (len : ℕ) :
    Recovery.setLen f.name len files = replaced f.name (f.bytes.take len) files := by
  refine List.map_congr_left fun g hg ↦ ?_
  split_ifs with hname
  · rw [h.eq_of_name hg hname]
  · rfl

theorem replaced_self (h : Newest root files f) : replaced f.name f.bytes files = files := by
  conv_rhs => rw [← List.map_id files]
  refine List.map_congr_left fun g hg ↦ ?_
  split_ifs with hname
  · rw [h.eq_of_name hg hname, id]
  · rfl

theorem path_replaced (root : Root) (name : ℕ) (bytes : Bytes) (files : List SegmentFile) :
    ((replaced name bytes files).map fun g ↦ root.path g.name) =
      files.map fun g ↦ root.path g.name := by
  rw [replaced, List.map_map]
  refine List.map_congr_left fun g _ ↦ ?_
  rw [Function.comp_apply]
  split_ifs
  · rfl
  · rfl

theorem replaced (h : Newest root files f) (bytes : Bytes) :
    Newest root (replaced f.name bytes files) { f with bytes } := by
  refine ⟨?_, ?_, ?_⟩
  · exact List.mem_map.mpr ⟨f, h.mem, if_pos rfl⟩
  · rw [path_replaced]
    exact h.nodup
  · rw [path_replaced]
    exact h.latest

end Newest

section

variable {crc32 : Bytes → BitVec 32} {m : ℕ}

/-- The loop cuts the file off where the whole records end. -/
theorem Recovery.recoverRecords_eq (name : ℕ) (files : List SegmentFile) {fuel : ℕ} :
    ∀ {offset : ℕ} {rest : Bytes}, rest.length < fuel →
      Recovery.recoverRecords crc32 m name files fuel offset rest =
        match recoverFrom crc32 m fuel offset rest with
        | .error e => (.error e, files)
        | .ok n =>
            (.ok (), if n = offset + rest.length then files else Recovery.setLen name n files) := by
  induction fuel with
  | zero =>
      intro offset rest hfuel
      omega
  | succ fuel ih =>
      intro offset rest hfuel
      rw [Recovery.recoverRecords, recoverFrom]
      by_cases hempty : rest.isEmpty
      · have hnil : rest.length = 0 := List.isEmpty_iff_length_eq_zero.mp hempty
        rw [if_pos hempty, if_pos hempty]
        dsimp only
        rw [if_pos (by omega)]
      have hpos : rest.length ≠ 0 := fun h ↦ hempty (List.isEmpty_iff_length_eq_zero.mpr h)
      rw [if_neg hempty, if_neg hempty]
      by_cases hshort : rest.length < 12
      · rw [if_pos hshort, if_pos hshort]
        dsimp only
        rw [if_neg (by omega)]
      rw [if_neg hshort, if_neg hshort]
      by_cases hmagic : ofLe (rest.take 4) ≠ recordMagic
      · rw [if_pos hmagic, if_pos hmagic]
      rw [if_neg hmagic, if_neg hmagic]
      dsimp only
      by_cases hmax : m < ofLe ((rest.drop 4).take 4)
      · rw [if_pos hmax, if_pos hmax]
      rw [if_neg hmax, if_neg hmax]
      by_cases hlong : rest.length < 12 + ofLe ((rest.drop 4).take 4)
      · rw [if_pos hlong, if_pos hlong]
        dsimp only
        rw [if_neg (by omega)]
      rw [if_neg hlong, if_neg hlong]
      by_cases hcrc : (crc32 ((rest.drop 12).take (ofLe ((rest.drop 4).take 4)))).toNat ≠
          ofLe ((rest.drop 8).take 4)
      · rw [if_pos hcrc, if_pos hcrc]
      rw [if_neg hcrc, if_neg hcrc]
      cases hdecode : decodeRecord ((rest.drop 12).take (ofLe ((rest.drop 4).take 4))) with
      | error e => rfl
      | ok record =>
          dsimp only
          rw [ih (by rw [List.length_drop]; omega), List.length_drop]
          have hend : offset + (12 + ofLe ((rest.drop 4).take 4)) +
              (rest.length - (12 + ofLe ((rest.drop 4).take 4))) = offset + rest.length := by omega
          rw [hend]

/-- What recovery does to the directory is what `recoverTail` says of the newest file. -/
theorem Newest.recover {root : Root} {files : List SegmentFile} {f : SegmentFile}
    (h : Newest root files f) :
    Recovery.recoverLastSegmentTail crc32 root m files =
      match recoverTail crc32 m f.bytes with
      | .error e => (.error e, files)
      | .ok none => (.ok (), Recovery.removeFile f.name files)
      | .ok (some bytes) => (.ok (), Bazalt.Storage.replaced f.name bytes files) := by
  rw [Recovery.recoverLastSegmentTail, h.latest]
  dsimp only
  rw [h.find, recoverTail]
  dsimp only
  by_cases hshort : f.bytes.length < headerSize
  · rw [if_pos hshort, if_pos hshort]
  rw [if_neg hshort, if_neg hshort]
  cases hheader : readHeader f.bytes with
  | error e => rfl
  | ok u =>
      dsimp only
      rw [Recovery.recoverRecords_eq _ _ (by rw [List.length_drop]; omega)]
      cases hrecover : recoverFrom crc32 m (f.bytes.length + 1) headerSize
          (f.bytes.drop headerSize) with
      | error e => rfl
      | ok n =>
          dsimp only
          split_ifs with hn
          · rw [List.length_drop] at hn
            rw [List.take_of_length_le (by omega), h.replaced_self]
          · rw [h.setLen_eq]

/-- The directory of the store after recovery is the one that recovery leaves. -/
theorem Recovery.recoverLastSegmentTail_eq {root : Root} {files : List SegmentFile}
    (hnodup : (files.map fun g ↦ root.path g.name).Nodup) :
    Recovery.recoverLastSegmentTail crc32 root m files =
      match Bazalt.Storage.recoverLastSegmentTail crc32 root m files with
      | .error e => (.error e, files)
      | .ok repaired => (.ok (), repaired) := by
  rw [Bazalt.Storage.recoverLastSegmentTail]
  cases hlatest : latestSegmentPath (files.map fun g ↦ root.path g.name) with
  | none => rw [Recovery.recoverLastSegmentTail, hlatest]
  | some path =>
      dsimp only
      cases hfind : files.find? fun g ↦ decide (root.path g.name = path) with
      | none =>
          rw [Recovery.recoverLastSegmentTail, hlatest]
          dsimp only
          rw [hfind]
      | some f =>
          obtain rfl : root.path f.name = path := of_decide_eq_true (List.find?_some hfind :)
          rw [Newest.recover ⟨List.mem_of_find?_eq_some hfind, hnodup, hlatest⟩]
          dsimp only
          cases recoverTail crc32 m f.bytes with
          | error e => rfl
          | ok left =>
              cases left with
              | none => rfl
              | some bytes => rfl

/-! ## What recovery finds behind the records that it can read -/

/-- Bytes that are read as records to their end. -/
inductive Records (crc32 : Bytes → BitVec 32) (m : ℕ) : Bytes → Prop where
  | nil : Records crc32 m []
  | cons {bytes rest : Bytes} {record : ContentRecord} :
      readRecord crc32 m bytes = .ok (some (record, bytes.length)) →
      Records crc32 m rest → Records crc32 m (bytes ++ rest)

/-- What a record that was not written to its end looks like. -/
def Incomplete (m : ℕ) (rest : Bytes) : Prop :=
  rest.length < 12 ∨ ofLe (rest.take 4) = recordMagic ∧ ofLe ((rest.drop 4).take 4) ≤ m ∧
    rest.length < 12 + ofLe ((rest.drop 4).take 4)

/-- A record that is there and is not one that was written. -/
structure Corrupt (crc32 : Bytes → BitVec 32) (m : ℕ) (rest : Bytes) : Prop where
  header : 12 ≤ rest.length
  bad : ofLe (rest.take 4) ≠ recordMagic ∨ m < ofLe ((rest.drop 4).take 4) ∨
    12 + ofLe ((rest.drop 4).take 4) ≤ rest.length ∧
      ((crc32 ((rest.drop 12).take (ofLe ((rest.drop 4).take 4)))).toNat ≠
          ofLe ((rest.drop 8).take 4) ∨
        ∃ e, decodeRecord ((rest.drop 12).take (ofLe ((rest.drop 4).take 4))) = .error e)

theorem take_drop_append {bytes rest : Bytes} {i n : ℕ} (h : i + n ≤ bytes.length) :
    ((bytes ++ rest).drop i).take n = (bytes.drop i).take n := by
  rw [List.drop_append_of_le_length (by omega),
    List.take_append_of_le_length (by rw [List.length_drop]; omega)]

/-- A record is read whatever follows it. -/
theorem readRecord_append {bytes : Bytes} {record : ContentRecord} {consumed : ℕ}
    (h : readRecord crc32 m bytes = .ok (some (record, consumed))) (rest : Bytes) :
    readRecord crc32 m (bytes ++ rest) = .ok (some (record, consumed)) := by
  rw [readRecord_eq_some] at h ⊢
  obtain ⟨hlong, hmagic, hmax, hcrc, hdecode, rfl⟩ := h
  rw [take_drop_append (by omega), take_drop_append (by omega), take_drop_append (by omega),
    List.take_append_of_le_length (by omega), List.length_append]
  exact ⟨by omega, hmagic, hmax, hcrc, hdecode, rfl⟩

theorem recoverFrom_of_readRecord {rest : Bytes} {record : ContentRecord} {consumed : ℕ}
    (h : readRecord crc32 m rest = .ok (some (record, consumed))) (fuel offset : ℕ) :
    recoverFrom crc32 m (fuel + 1) offset rest =
      recoverFrom crc32 m fuel (offset + consumed) (rest.drop consumed) := by
  obtain ⟨hlong, hmagic, hmax, hcrc, hdecode, rfl⟩ := readRecord_eq_some.mp h
  have hne : ¬ rest.isEmpty := by
    rw [List.isEmpty_iff_length_eq_zero]
    omega
  rw [recoverFrom, if_neg hne, if_neg (by omega), if_neg (not_not.mpr hmagic)]
  dsimp only
  rw [if_neg (by omega), if_neg (by omega), if_neg (not_not.mpr hcrc), hdecode]

theorem recoverFrom_incomplete {rest : Bytes} (h : Incomplete m rest) (fuel offset : ℕ) :
    recoverFrom crc32 m fuel offset rest = .ok offset := by
  cases fuel with
  | zero => rfl
  | succ fuel =>
      rw [recoverFrom]
      by_cases hempty : rest.isEmpty
      · rw [if_pos hempty]
      rw [if_neg hempty]
      rcases h with hshort | ⟨hmagic, hmax, hlong⟩
      · rw [if_pos hshort]
      · by_cases hshort : rest.length < 12
        · rw [if_pos hshort]
        · rw [if_neg hshort, if_neg (not_not.mpr hmagic)]
          dsimp only
          rw [if_neg (by omega), if_pos hlong]

theorem recoverFrom_corrupt {rest : Bytes} (h : Corrupt crc32 m rest) (fuel offset : ℕ) :
    ∃ e, recoverFrom crc32 m (fuel + 1) offset rest = .error e := by
  have hheader := h.header
  have hne : ¬ rest.isEmpty := by
    rw [List.isEmpty_iff_length_eq_zero]
    omega
  rw [recoverFrom, if_neg hne, if_neg (by omega)]
  by_cases hmagic : ofLe (rest.take 4) ≠ recordMagic
  · exact ⟨_, if_pos hmagic⟩
  rw [if_neg hmagic]
  dsimp only
  by_cases hmax : m < ofLe ((rest.drop 4).take 4)
  · exact ⟨_, if_pos hmax⟩
  rw [if_neg hmax]
  rcases h.bad with hbad | hbad | ⟨hlong, hbad⟩
  · exact absurd hbad hmagic
  · exact absurd hbad hmax
  rw [if_neg (by omega)]
  by_cases hcrc : (crc32 ((rest.drop 12).take (ofLe ((rest.drop 4).take 4)))).toNat ≠
      ofLe ((rest.drop 8).take 4)
  · exact ⟨_, if_pos hcrc⟩
  rw [if_neg hcrc]
  rcases hbad with hbad | ⟨e, he⟩
  · exact absurd hbad hcrc
  · exact ⟨e, by rw [he]⟩

/-- The walk gets over records that can be read, whatever follows them. -/
theorem recoverFrom_records {good : Bytes} (h : Records crc32 m good) (rest : Bytes) :
    ∀ fuel offset, (good ++ rest).length < fuel → ∃ fuel', rest.length < fuel' ∧
      recoverFrom crc32 m fuel offset (good ++ rest) =
        recoverFrom crc32 m fuel' (offset + good.length) rest := by
  induction h with
  | nil =>
      intro fuel offset hfuel
      exact ⟨fuel, hfuel, by rw [List.nil_append, List.length_nil, Nat.add_zero]⟩
  | @cons bytes good record hread _ ih =>
      intro fuel offset hfuel
      obtain ⟨hlong, -⟩ := readRecord_eq_some.mp hread
      rw [List.append_assoc, List.length_append] at hfuel
      obtain ⟨fuel, rfl⟩ : ∃ k, fuel = k + 1 := ⟨fuel - 1, by omega⟩
      rw [List.append_assoc, recoverFrom_of_readRecord (readRecord_append hread _), List.drop_left,
        List.length_append, ← Nat.add_assoc]
      exact ih fuel (offset + bytes.length) (by omega)

theorem Frame.readRecord_bytes (f : Frame m) :
    readRecord crc32 m (f.bytes crc32) = .ok (some (stored f.record, (f.bytes crc32).length)) := by
  have hread := readRecord_envelope crc32 f.encoded f.le_max f.le_u32Max []
  rwa [List.append_nil, ← Frame.bytes, ← f.length_bytes crc32] at hread

theorem Records.body (fs : List (Frame m)) : Records crc32 m (body crc32 fs) := by
  induction fs with
  | nil => exact .nil
  | cons f fs ih =>
      have hsplit : Bazalt.Storage.body crc32 (f :: fs) =
          f.bytes crc32 ++ Bazalt.Storage.body crc32 fs := by
        simp [Bazalt.Storage.body]
      rw [hsplit]
      exact .cons f.readRecord_bytes ih

theorem Torn.incomplete {part : Bytes} (h : Torn crc32 m part) : Incomplete m part := by
  rcases h with rfl | ⟨f, ⟨rest, hrest⟩, hlt⟩
  · exact .inl (by simp)
  · by_cases hshort : part.length < 12
    · exact .inl hshort
    · have hlen := f.length_bytes crc32
      have hmagic := magic_envelope crc32 (f.fields ++ f.record.data) []
      have hfield := length_field_envelope crc32 f.le_u32Max []
      rw [List.append_nil, ← Frame.bytes, ← hrest] at hmagic hfield
      rw [List.take_append_of_le_length (by omega)] at hmagic
      rw [take_drop_append (by omega)] at hfield
      have hmax := f.le_max
      exact .inr ⟨hmagic, by omega, by omega⟩

theorem Incomplete.not_read {rest : Bytes} (h : Incomplete m rest) {record : ContentRecord}
    {consumed : ℕ} : readRecord crc32 m rest ≠ .ok (some (record, consumed)) := by
  intro hread
  obtain ⟨hlong, -⟩ := readRecord_eq_some.mp hread
  rcases h with hshort | ⟨-, -, hshort⟩
  · omega
  · omega

/-! ## The newest file -/

theorem recoverTail_of_incomplete {file good rest : Bytes} (hheader : readHeader file = .ok ())
    (hfile : file.drop headerSize = good ++ rest) (hgood : Records crc32 m good)
    (hrest : Incomplete m rest) :
    recoverTail crc32 m file = .ok (some (file.take (headerSize + good.length))) := by
  have hlong : ¬ file.length < headerSize := fun hshort ↦ by
    obtain ⟨e, he⟩ := readHeader_short hshort
    cases he.symm.trans hheader
  have hfuel : (good ++ rest).length < file.length + 1 := by
    rw [← hfile, List.length_drop]
    omega
  obtain ⟨fuel, -, hwalk⟩ := recoverFrom_records hgood rest _ headerSize hfuel
  rw [recoverTail, if_neg hlong, hheader]
  dsimp only
  rw [hfile, hwalk, recoverFrom_incomplete hrest]

theorem recoverTail_of_corrupt {file good rest : Bytes} (hheader : readHeader file = .ok ())
    (hfile : file.drop headerSize = good ++ rest) (hgood : Records crc32 m good)
    (hrest : Corrupt crc32 m rest) : ∃ e, recoverTail crc32 m file = .error e := by
  have hlong : ¬ file.length < headerSize := fun hshort ↦ by
    obtain ⟨e, he⟩ := readHeader_short hshort
    cases he.symm.trans hheader
  have hfuel : (good ++ rest).length < file.length + 1 := by
    rw [← hfile, List.length_drop]
    omega
  obtain ⟨fuel, hpos, hwalk⟩ := recoverFrom_records hgood rest _ headerSize hfuel
  obtain ⟨fuel, rfl⟩ : ∃ k, fuel = k + 1 := ⟨fuel - 1, by omega⟩
  obtain ⟨e, he⟩ := recoverFrom_corrupt hrest fuel (headerSize + good.length)
  refine ⟨e, ?_⟩
  rw [recoverTail, if_neg hlong, hheader]
  dsimp only
  rw [hfile, hwalk, he]

theorem recoverTail_body (createdNs : ℕ) (fs : List (Frame m)) {torn : Bytes}
    (htorn : Torn crc32 m torn) :
    recoverTail crc32 m (segmentHeader createdNs ++ body crc32 fs ++ torn) =
      .ok (some (segmentHeader createdNs ++ body crc32 fs)) := by
  have hlen := length_segmentHeader createdNs
  have hheader := readHeader_segmentHeader createdNs (body crc32 fs ++ torn)
  rw [← List.append_assoc] at hheader
  rw [recoverTail_of_incomplete hheader _ (Records.body fs) htorn.incomplete,
    List.take_left' (by rw [List.length_append, hlen])]
  rw [List.append_assoc, List.drop_left' hlen]

/-- A prefix of frames ends in a frame that is cut off, and all before it are the whole ones. -/
theorem exists_longest_of_prefix_body {fs : List (Frame m)} {l : Bytes}
    (hl : l <+: body crc32 fs) : ∃ k torn, l = body crc32 (fs.take k) ++ torn ∧ k ≤ fs.length ∧
      Torn crc32 m torn ∧ ∀ j ≤ fs.length, body crc32 (fs.take j) <+: l ↔ j ≤ k := by
  rw [← List.append_nil (body crc32 fs)] at hl
  have hnone : Torn crc32 m [] := .inl rfl
  obtain ⟨k, torn, rfl, hk, htorn⟩ := exists_take_of_prefix_body crc32 hnone hl
  refine ⟨k, torn, rfl, hk, htorn, fun j hj ↦ ⟨fun hin ↦ ?_, fun hle ↦ ?_⟩⟩
  · by_contra hlt
    have hget : k < fs.length := by omega
    have hsplit : fs.take (k + 1) = fs.take k ++ [fs[k]] := by
      rw [List.take_append_getElem]
    have hone : body crc32 (fs.take (k + 1)) <+: body crc32 (fs.take j) := by
      obtain ⟨ys, hys⟩ := List.take_prefix_take_left (l := fs) (show k + 1 ≤ j by omega)
      rw [← hys, body_append]
      exact List.prefix_append _ _
    obtain ⟨rest, hrest⟩ := hone.trans hin
    rw [hsplit, body_append, List.append_assoc, List.append_cancel_left_eq] at hrest
    have hread : readRecord crc32 m (fs[k].bytes crc32) = _ := fs[k].readRecord_bytes
    have htorn_eq : fs[k].bytes crc32 ++ rest = torn := by
      rw [← hrest]
      simp [body]
    have hwhole := readRecord_append hread rest
    rw [htorn_eq] at hwhole
    exact htorn.incomplete.not_read hwhole
  · obtain ⟨ys, hys⟩ := List.take_prefix_take_left (l := fs) hle
    rw [← hys, body_append, List.append_assoc]
    exact List.prefix_append _ _

/-- The newest file, cut off anywhere, is removed or cut back to its whole records, which are
then read without an error and stay when recovery runs again; a record that is there and
cannot be read makes recovery fail and leave the directory as it is. -/
theorem tail_recovered {root : Root} {files : List SegmentFile} {f : SegmentFile}
    (hf : Newest root files f) :
    (∀ createdNs (fs : List (Frame m)), f.bytes <+: segmentHeader createdNs ++ body crc32 fs →
      (f.bytes.length < headerSize →
        Recovery.recoverLastSegmentTail crc32 root m files =
          (.ok (), files.filter fun g ↦ decide (g.name ≠ f.name))) ∧
      (headerSize ≤ f.bytes.length → ∃ k ≤ fs.length,
        (∀ j ≤ fs.length,
          segmentHeader createdNs ++ body crc32 (fs.take j) <+: f.bytes ↔ j ≤ k) ∧
        Recovery.recoverLastSegmentTail crc32 root m files =
          (.ok (), replaced f.name (segmentHeader createdNs ++ body crc32 (fs.take k)) files) ∧
        scanFile crc32 m (segmentHeader createdNs ++ body crc32 (fs.take k)) =
          (placed crc32 headerSize (fs.take k), none) ∧
        Recovery.recoverLastSegmentTail crc32 root m
            (replaced f.name (segmentHeader createdNs ++ body crc32 (fs.take k)) files) =
          (.ok (), replaced f.name (segmentHeader createdNs ++ body crc32 (fs.take k)) files))) ∧
    ∀ good bad, readHeader f.bytes = .ok () → f.bytes.drop headerSize = good ++ bad →
      Records crc32 m good → Corrupt crc32 m bad →
      ∃ e, Recovery.recoverLastSegmentTail crc32 root m files = (.error e, files) := by
  refine ⟨fun createdNs fs hcut ↦ ⟨fun hshort ↦ ?_, fun hlong ↦ ?_⟩, ?_⟩
  · rw [hf.recover, recoverTail, if_pos hshort]
    rfl
  · have hlen := length_segmentHeader createdNs
    have hhead : segmentHeader createdNs <+: f.bytes :=
      List.prefix_of_prefix_length_le (List.prefix_append _ _) hcut (by omega)
    obtain ⟨l, hl⟩ := hhead
    rw [← hl, List.prefix_append_right_inj] at hcut
    obtain ⟨k, torn, rfl, hk, htorn, hlongest⟩ := exists_longest_of_prefix_body hcut
    have hnone : Torn crc32 m [] := .inl rfl
    have hscan := scanFile_body crc32 [] (hnone.readRecord crc32) createdNs (fs.take k)
    have hagain := recoverTail_body createdNs (fs.take k) hnone
    rw [List.append_nil] at hscan hagain
    refine ⟨k, hk, fun j hj ↦ ?_, ?_, Prod.ext hscan.1 (hscan.2.mpr rfl), ?_⟩
    · rw [← hl, List.prefix_append_right_inj, hlongest j hj]
    · rw [hf.recover, ← hl, ← List.append_assoc, recoverTail_body _ _ htorn]
    · have hself := (hf.replaced (segmentHeader createdNs ++ body crc32 (fs.take k))).replaced_self
      rw [(hf.replaced _).recover]
      dsimp only
      rw [hagain]
      exact congrArg (Prod.mk _) hself
  · intro good bad hheader hfile hgood hbad
    obtain ⟨e, he⟩ := recoverTail_of_corrupt hheader hfile hgood hbad
    exact ⟨e, by rw [hf.recover, he]⟩

end

/-! ## A directory with one file -/

def tailRecord : ContentRecord := ⟨1, 7, 1000, none, .aToB, .tcpRaw, 0, [1]⟩

def tailFrame : Frame 64 where
  record := tailRecord
  fields := uuidBytes 1 ++ uuidBytes 7 ++ leBytes 8 1000 ++ leBytes 2 0 ++ [0, 0] ++ leBytes 8 0 ++
    leBytes 4 1
  encoded := by decide +kernel
  le_max := by decide +kernel
  le_u32Max := by decide +kernel

def tailRoot : Root := ⟨fun _ ↦ ['a', '.', 's', 'e', 'g'], []⟩

/-- The second record was cut off inside its header. -/
def cutFile : SegmentFile :=
  ⟨1, segmentHeader 5 ++ body (fun _ ↦ 0) [tailFrame] ++ (leBytes 4 recordMagic).take 3⟩

/-- The checksum of the second record is not that of its payload. -/
def spoiledFile : SegmentFile :=
  ⟨1, segmentHeader 5 ++ body (fun _ ↦ 0) [tailFrame] ++
    (leBytes 4 recordMagic ++ leBytes 4 1 ++ leBytes 4 3 ++ [9])⟩

theorem newest_single (f : SegmentFile) : Newest tailRoot [f] f where
  mem := List.mem_singleton_self f
  nodup := List.nodup_singleton _
  latest := by
    change latestSegmentPath [['a', '.', 's', 'e', 'g']] = some ['a', '.', 's', 'e', 'g']
    decide +kernel

theorem tail_recovered_cutFile :
    Recovery.recoverLastSegmentTail (fun _ ↦ 0) tailRoot 64 [cutFile] =
        (.ok (), [⟨1, segmentHeader 5 ++ body (fun _ ↦ 0) [tailFrame]⟩]) ∧
      ∃ e, Recovery.recoverLastSegmentTail (fun _ ↦ 0) tailRoot 64 [spoiledFile] =
        (.error e, [spoiledFile]) := by
  refine ⟨?_, ?_⟩
  · have hcut : cutFile.bytes <+: segmentHeader 5 ++ body (fun _ ↦ 0) [tailFrame, tailFrame] := by
      decide +kernel
    obtain ⟨k, hk, hlongest, hrecover, -, -⟩ :=
      ((tail_recovered (newest_single cutFile)).1 5 [tailFrame, tailFrame] hcut).2
        (by decide +kernel)
    have hfirst : 1 ≤ k := (hlongest 1 (by decide)).mp (by decide +kernel)
    have hsecond : ¬ 2 ≤ k := fun h ↦
      absurd ((hlongest 2 (by decide)).mpr h) (by decide +kernel)
    obtain rfl : k = 1 := by omega
    exact hrecover
  · have hgood : spoiledFile.bytes.drop headerSize = body (fun _ ↦ 0) [tailFrame] ++
        (leBytes 4 recordMagic ++ leBytes 4 1 ++ leBytes 4 3 ++ [9]) := by decide +kernel
    refine (tail_recovered (newest_single spoiledFile)).2 _ _ (by decide +kernel) hgood
      (Records.body [tailFrame]) ⟨by decide +kernel, .inr (.inr ⟨by decide +kernel, .inl ?_⟩)⟩
    decide +kernel

end Bazalt.Storage
