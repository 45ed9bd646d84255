import Bazalt.Lib.Wire
import Bazalt.Model

/-!
# Segment files

A segment file is a header followed by records.  A record is an envelope of a magic
number, the length of the payload and its checksum, and the payload: a prefix with the
fields of the record, and the data.

The checksum comes from a library and is the parameter `crc32`.
-/

namespace Bazalt.Storage

open Lib

/-- The errors of the segment store, with the numbers of their messages. -/
inductive SegmentError where
  | serviceNameTooLong
  | contentRecordTooLarge
  | recordLimit (payloadLen maxRecordBytes : ℕ)
  | diskBudget (retainedBytes encodedLen storeMaxBytes : ℕ)
  | rotationBudget (retainedBytes required storeMaxBytes : ℕ)
  | rotateBudget (retainedBytes headerSize storeMaxBytes : ℕ)
  | storeOverBudget (retainedBytes storeMaxBytes : ℕ)
  | badSegmentMagic
  | unsupportedVersion (version : ℕ)
  | partialHeader
  | badRecordMagic
  | lengthLimit (len maxRecordBytes : ℕ)
  | lengthAvailable (len available : ℕ)
  | crcMismatch
  | recordTooShort
  | truncatedField
  | badDirection
  | badView
  | unexpectedTrailer
  | recordMissing
  | metadataWriterStopped
  | io
  deriving DecidableEq, Repr

def magic : Bytes := "PMSEG001".toUTF8.data.toList

def recordMagic : ℕ := 0x504d5243

def headerSize : ℕ := 8 + 4 + 8

def u32Max : ℕ := 2 ^ 32 - 1

/-! ## Records -/

def uuidBytes (id : Uuid) : Bytes := (leBytes 16 id.toNat).reverse

def uuidOf (bytes : Bytes) : Uuid := BitVec.ofNat 128 (ofLe bytes.reverse)

def directionToU8 : Direction → UInt8
  | .aToB => 0
  | .bToA => 1

def u8ToDirection (v : UInt8) : Except SegmentError Direction :=
  if v = 0 then .ok .aToB
  else if v = 1 then .ok .bToA
  else .error .badDirection

def viewToU8 : ContentView → UInt8
  | .tcpRaw => 0
  | .httpRequestHeaders => 1
  | .httpRequestBody => 2
  | .httpRequestDecodedBody => 3
  | .httpResponseHeaders => 4
  | .httpResponseBody => 5
  | .httpResponseDecodedBody => 6

def u8ToView (v : UInt8) : Except SegmentError ContentView :=
  if v = 0 then .ok .tcpRaw
  else if v = 1 then .ok .httpRequestHeaders
  else if v = 2 then .ok .httpRequestBody
  else if v = 3 then .ok .httpRequestDecodedBody
  else if v = 4 then .ok .httpResponseHeaders
  else if v = 5 then .ok .httpResponseBody
  else if v = 6 then .ok .httpResponseDecodedBody
  else .error .badView

def serviceBytes (r : ContentRecord) : Bytes := (r.service.getD "").toUTF8.data.toList

def encodeRecordPrefix (r : ContentRecord) : Except SegmentError Bytes :=
  let service := serviceBytes r
  if 2 ^ 16 - 1 < service.length then .error .serviceNameTooLong
  else if u32Max < r.data.length then .error .contentRecordTooLarge
  else .ok (uuidBytes r.id ++ uuidBytes r.flowId ++ leBytes 8 r.tsNs ++
    leBytes 2 service.length ++ service ++ [directionToU8 r.direction, viewToU8 r.view] ++
    leBytes 8 r.streamOffset ++ leBytes 4 r.data.length)

/-- How many bytes of a malformed sequence one replacement character stands for: the
first byte and the continuation bytes that could have followed it. -/
def malformedLen : Bytes → ℕ
  | [] => 1
  | b :: rest =>
      let continues (lo hi : UInt8) (bytes : Bytes) : Bool :=
        match bytes with
        | [] => false
        | c :: _ => decide (lo ≤ c ∧ c ≤ hi)
      let second : Bool :=
        if 0xe0 = b then continues 0xa0 0xbf rest
        else if 0xed = b then continues 0x80 0x9f rest
        else if 0xe1 ≤ b ∧ b ≤ 0xef then continues 0x80 0xbf rest
        else if 0xf0 = b then continues 0x90 0xbf rest
        else if 0xf4 = b then continues 0x80 0x8f rest
        else if 0xf1 ≤ b ∧ b ≤ 0xf3 then continues 0x80 0xbf rest
        else false
      if !second then 1
      else if 0xf0 ≤ b ∧ continues 0x80 0xbf (rest.drop 1) then 3
      else 2

def lossyChars : ℕ → Bytes → List Char
  | 0, _ => []
  | _, [] => []
  | fuel + 1, bytes =>
      match ByteArray.utf8DecodeChar? ⟨bytes.toArray⟩ 0 with
      | some c => c :: lossyChars fuel (bytes.drop c.utf8Size)
      | none => '\ufffd' :: lossyChars fuel (bytes.drop (malformedLen bytes))

/-- `String::from_utf8_lossy`. -/
def fromUtf8Lossy (bytes : Bytes) : String :=
  (String.fromUTF8? ⟨bytes.toArray⟩).getD (String.ofList (lossyChars bytes.length bytes))

/-- A reader of a payload. -/
abbrev Take (α : Type) := StateT Bytes (Except SegmentError) α

def take (n : ℕ) : Take Bytes := fun d ↦
  if d.length < n then .error .truncatedField else .ok (d.take n, d.drop n)

def takeNum (n : ℕ) : Take ℕ := do
  return ofLe (← take n)

def takeByte : Take UInt8 := do
  return (← take 1).headD 0

def decodeFields : Take ContentRecord := do
  let id ← take 16
  let flowId ← take 16
  let tsNs ← takeNum 8
  let serviceLen ← takeNum 2
  let serviceBytes ← take serviceLen
  let service := if serviceBytes.isEmpty then none else some (fromUtf8Lossy serviceBytes)
  let direction ← u8ToDirection (← takeByte)
  let view ← u8ToView (← takeByte)
  let streamOffset ← takeNum 8
  let len ← takeNum 4
  let data ← take len
  return ⟨uuidOf id, uuidOf flowId, tsNs, service, direction, view, streamOffset, data⟩

def decodeRecord (payload : Bytes) : Except SegmentError ContentRecord :=
  if payload.length < 16 + 16 + 8 + 2 + 1 + 1 + 8 + 4 then .error .recordTooShort
  else do
    let (record, rest) ← decodeFields payload
    if rest.isEmpty then return record else throw .unexpectedTrailer

/-! ## Envelopes -/

section

variable (crc32 : Bytes → BitVec 32)

/-- What `write_prepared` writes for a payload. -/
def envelope (payload : Bytes) : Bytes :=
  leBytes 4 recordMagic ++ leBytes 4 payload.length ++ leBytes 4 (crc32 payload).toNat ++ payload

/-- `rest` is what the file holds from the reading position on. -/
def readRecord (maxRecordBytes : ℕ) (rest : Bytes) :
    Except SegmentError (Option (ContentRecord × ℕ)) :=
  if rest.isEmpty then .ok none
  else if rest.length < 12 then .error .partialHeader
  else if ofLe (rest.take 4) ≠ recordMagic then .error .badRecordMagic
  else
    let len := ofLe ((rest.drop 4).take 4)
    if maxRecordBytes < len then .error (.lengthLimit len maxRecordBytes)
    else if rest.length < 12 + len then .error (.lengthAvailable len (rest.length - 12))
    else
      let payload := (rest.drop 12).take len
      if (crc32 payload).toNat ≠ ofLe ((rest.drop 8).take 4) then .error .crcMismatch
      else (decodeRecord payload).map fun record ↦ some (record, 12 + len)

/-- The records of a file from `offset` on, with their offsets, and the error that ended
the reading if there was one. -/
def scanFrom (maxRecordBytes : ℕ) : ℕ → ℕ → Bytes →
    List (ℕ × ContentRecord) × Option SegmentError
  | 0, _, _ => ([], none)
  | fuel + 1, offset, rest =>
      match readRecord crc32 maxRecordBytes rest with
      | .error e => ([], some e)
      | .ok none => ([], none)
      | .ok (some (record, consumed)) =>
          let tail := scanFrom maxRecordBytes fuel (offset + consumed) (rest.drop consumed)
          ((offset, record) :: tail.1, tail.2)

def segmentHeader (createdNs : ℕ) : Bytes := magic ++ leBytes 4 1 ++ leBytes 8 createdNs

def readHeader (file : Bytes) : Except SegmentError Unit :=
  if file.length < 8 then .error .io
  else if file.take 8 ≠ magic then .error .badSegmentMagic
  else if file.length < 12 then .error .io
  else if ofLe ((file.drop 8).take 4) ≠ 1 then
    .error (.unsupportedVersion (ofLe ((file.drop 8).take 4)))
  else if file.length < headerSize then .error .io
  else .ok ()

/-- The records of a segment file, read until the end or the first error.  Every record
takes a byte, so the length of the file bounds the rounds. -/
def scanFile (maxRecordBytes : ℕ) (file : Bytes) :
    List (ℕ × ContentRecord) × Option SegmentError :=
  match readHeader file with
  | .error e => ([], some e)
  | .ok () => scanFrom crc32 maxRecordBytes (file.length + 1) headerSize (file.drop headerSize)

end

/-! ## Reading back what was written -/

/-- What the encoding keeps of a record: the empty service name is no service, and
numbers have 64 bits. -/
def stored (r : ContentRecord) : ContentRecord :=
  { r with
    service := r.service.filter (· ≠ "")
    tsNs := r.tsNs % 2 ^ 64
    streamOffset := r.streamOffset % 2 ^ 64 }

theorem take_append {a rest : Bytes} {n : ℕ} (h : a.length = n) :
    take n (a ++ rest) = .ok (a, rest) := by
  subst h
  simp [take]

/-- A reader that has its value reads nothing. -/
theorem pure_take {α : Type} (a : α) (rest : Bytes) : (pure a : Take α) rest = .ok (a, rest) := rfl

theorem pure_except {α : Type} (a : α) : (pure a : Except SegmentError α) = .ok a := rfl

theorem takeNum_append (w n : ℕ) (rest : Bytes) :
    takeNum w (leBytes w n ++ rest) = .ok (n % 256 ^ w, rest) := by
  simp only [takeNum, bind, StateT.bind, take_append (length_leBytes w n), pure_take, Except.bind,
    ofLe_leBytes]

theorem takeByte_cons (b : UInt8) (rest : Bytes) : takeByte (b :: rest) = .ok (b, rest) := by
  simp [takeByte, bind, StateT.bind, take, pure_take, Except.bind]

@[simp] theorem length_uuidBytes (id : Uuid) : (uuidBytes id).length = 16 := by
  simp [uuidBytes]

@[simp] theorem uuidOf_uuidBytes (id : Uuid) : uuidOf (uuidBytes id) = id := by
  have hlt := id.isLt
  rw [uuidOf, uuidBytes, List.reverse_reverse, ofLe_leBytes_of_lt (by omega),
    BitVec.ofNat_toNat, BitVec.setWidth_eq]

theorem u8ToDirection_directionToU8 (d : Direction) : u8ToDirection (directionToU8 d) = .ok d := by
  cases d <;> rfl

theorem u8ToView_viewToU8 (v : ContentView) : u8ToView (viewToU8 v) = .ok v := by
  cases v <;> rfl

theorem fromUtf8Lossy_toUTF8 (s : String) : fromUtf8Lossy s.toUTF8.data.toList = s := by
  have hvalid : ByteArray.IsValidUTF8 ⟨s.toUTF8.data.toList.toArray⟩ := s.isValidUTF8
  rw [fromUtf8Lossy, String.fromUTF8?, dif_pos hvalid]
  rfl

theorem length_encodeRecordPrefix {r : ContentRecord} {fields : Bytes}
    (h : encodeRecordPrefix r = .ok fields) : fields.length = 56 + (serviceBytes r).length := by
  unfold encodeRecordPrefix at h
  simp only at h
  split_ifs at h
  obtain rfl := Except.ok.inj h
  simp only [List.length_append, length_uuidBytes, length_leBytes, List.length_cons,
    List.length_nil]
  omega

/-- The service that is read back from its bytes. -/
theorem service_of_serviceBytes (r : ContentRecord) :
    (if (serviceBytes r).isEmpty then none else some (fromUtf8Lossy (serviceBytes r))) =
      r.service.filter (· ≠ "") := by
  unfold serviceBytes
  rw [fromUtf8Lossy_toUTF8]
  cases r.service with
  | none => rfl
  | some name =>
      by_cases hname : name = ""
      · subst hname
        rfl
      · have hne : ¬ name.toUTF8.data.toList.isEmpty := by
          intro hempty
          refine hname (String.utf8ByteSize_eq_zero_iff.mp ?_)
          simpa using congrArg List.length (List.isEmpty_iff.mp hempty)
        rw [Option.getD_some, if_neg hne, Option.filter_some, if_pos (by simpa using hname)]

theorem decodeFields_append {r : ContentRecord} {fields : Bytes}
    (h : encodeRecordPrefix r = .ok fields) (rest : Bytes) :
    decodeFields (fields ++ r.data ++ rest) = .ok (stored r, rest) := by
  unfold encodeRecordPrefix at h
  simp only at h
  split_ifs at h with hservice hdata
  obtain rfl := Except.ok.inj h
  have hkeep := service_of_serviceBytes r
  have hs : (serviceBytes r).length % 256 ^ 2 = (serviceBytes r).length :=
    Nat.mod_eq_of_lt (by omega)
  have hd : r.data.length % 256 ^ 4 = r.data.length :=
    Nat.mod_eq_of_lt (by unfold u32Max at hdata; omega)
  simp only [decodeFields, List.append_assoc, List.cons_append, List.nil_append, bind,
    StateT.bind, Except.bind, take_append (length_uuidBytes _), takeNum_append, hs, hd,
    take_append (rfl : (serviceBytes r).length = _), takeByte_cons, u8ToDirection_directionToU8,
    u8ToView_viewToU8, liftM, monadLift, MonadLift.monadLift, StateT.lift,
    take_append (rfl : r.data.length = _), pure_take, pure_except, uuidOf_uuidBytes]
  rw [hkeep]
  rfl

theorem decodeRecord_append {r : ContentRecord} {fields : Bytes}
    (h : encodeRecordPrefix r = .ok fields) : decodeRecord (fields ++ r.data) = .ok (stored r) := by
  have hlen := length_encodeRecordPrefix h
  have hfields := decodeFields_append h []
  rw [List.append_nil] at hfields
  rw [decodeRecord, if_neg (by rw [List.length_append]; omega), hfields]
  rfl

/-! ## Envelopes read back -/

section

variable (crc32 : Bytes → BitVec 32)

theorem length_envelope (payload : Bytes) :
    (envelope crc32 payload).length = 12 + payload.length := by
  simp [envelope]
  omega

theorem take_drop_middle {a b c : Bytes} {i n : ℕ} (ha : a.length = i) (hb : b.length = n) :
    ((a ++ b ++ c).drop i).take n = b := by
  subst ha hb
  simp

theorem magic_envelope (payload rest : Bytes) :
    ofLe ((envelope crc32 payload ++ rest).take 4) = recordMagic := by
  have hlen : (leBytes 4 recordMagic).length = 4 := length_leBytes _ _
  rw [envelope, List.append_assoc, List.append_assoc, List.append_assoc,
    List.take_append_of_le_length (by omega), List.take_of_length_le (by omega)]
  exact ofLe_leBytes_of_lt (by decide)

theorem length_field_envelope {payload : Bytes} (h : payload.length ≤ u32Max) (rest : Bytes) :
    ofLe (((envelope crc32 payload ++ rest).drop 4).take 4) = payload.length := by
  rw [envelope, List.append_assoc, List.append_assoc,
    take_drop_middle (length_leBytes _ _) (length_leBytes _ _)]
  exact ofLe_leBytes_of_lt (by unfold u32Max at h; omega)

theorem crc_field_envelope (payload rest : Bytes) :
    ofLe (((envelope crc32 payload ++ rest).drop 8).take 4) = (crc32 payload).toNat := by
  have hlt := (crc32 payload).isLt
  rw [envelope, List.append_assoc, take_drop_middle (by simp) (length_leBytes _ _)]
  exact ofLe_leBytes_of_lt (by omega)

theorem payload_envelope (payload rest : Bytes) :
    ((envelope crc32 payload ++ rest).drop 12).take payload.length = payload := by
  rw [envelope, take_drop_middle (by simp) rfl]

/-- An envelope is read as its record, whatever follows it. -/
theorem readRecord_envelope {r : ContentRecord} {fields : Bytes} {maxRecordBytes : ℕ}
    (h : encodeRecordPrefix r = .ok fields) (hmax : (fields ++ r.data).length ≤ maxRecordBytes)
    (h32 : (fields ++ r.data).length ≤ u32Max) (rest : Bytes) :
    readRecord crc32 maxRecordBytes (envelope crc32 (fields ++ r.data) ++ rest) =
      .ok (some (stored r, 12 + (fields ++ r.data).length)) := by
  have hlen := length_envelope crc32 (fields ++ r.data)
  have hfile : (envelope crc32 (fields ++ r.data) ++ rest).length =
      12 + (fields ++ r.data).length + rest.length := by rw [List.length_append, hlen]
  have hne : ¬ (envelope crc32 (fields ++ r.data) ++ rest).isEmpty := by
    rw [List.isEmpty_iff_length_eq_zero, hfile]
    omega
  simp only [readRecord, if_neg hne, magic_envelope, length_field_envelope crc32 h32,
    crc_field_envelope, payload_envelope, decodeRecord_append h, ne_eq, not_true_eq_false,
    if_false]
  rw [if_neg (by omega), if_neg (by omega), if_neg (by omega)]
  rfl

/-- The beginning of an envelope is not read as a record. -/
theorem readRecord_part {payload part : Bytes} (maxRecordBytes : ℕ)
    (h32 : payload.length ≤ u32Max) (hpart : part <+: envelope crc32 payload)
    (hlt : part.length < (envelope crc32 payload).length) :
    part = [] ∨ ∃ e, readRecord crc32 maxRecordBytes part = .error e := by
  have hlen := length_envelope crc32 payload
  obtain ⟨rest, hrest⟩ := hpart
  by_cases hempty : part.isEmpty
  · exact .inl (List.isEmpty_iff.mp hempty)
  · right
    by_cases hshort : part.length < 12
    · exact ⟨_, by rw [readRecord, if_neg hempty, if_pos hshort]⟩
    · have hmagic := magic_envelope crc32 payload []
      have hfield := length_field_envelope crc32 h32 []
      rw [List.append_nil, ← hrest] at hmagic hfield
      rw [List.take_append_of_le_length (by omega)] at hmagic
      rw [List.drop_append_of_le_length (by omega),
        List.take_append_of_le_length (by rw [List.length_drop]; omega)] at hfield
      simp only [readRecord, if_neg hempty, if_neg hshort, hmagic, hfield, ne_eq,
        not_true_eq_false, if_false]
      by_cases hmax : maxRecordBytes < payload.length
      · exact ⟨_, by rw [if_pos hmax]⟩
      · exact ⟨_, by rw [if_neg hmax, if_pos (by omega)]⟩

end

/-! ## Frames -/

/-- A record that passed the checks of `prepare_record` on its own size. -/
structure Frame (maxRecordBytes : ℕ) where
  record : ContentRecord
  fields : Bytes
  encoded : encodeRecordPrefix record = .ok fields
  le_max : (fields ++ record.data).length ≤ maxRecordBytes
  le_u32Max : (fields ++ record.data).length ≤ u32Max

section

variable {maxRecordBytes : ℕ} (crc32 : Bytes → BitVec 32)

def Frame.bytes (f : Frame maxRecordBytes) : Bytes := envelope crc32 (f.fields ++ f.record.data)

theorem Frame.length_bytes (f : Frame maxRecordBytes) :
    (f.bytes crc32).length = 12 + (f.fields ++ f.record.data).length :=
  length_envelope crc32 _

/-- The bytes of frames one after the other. -/
def body (fs : List (Frame maxRecordBytes)) : Bytes := (fs.map (Frame.bytes crc32)).flatten

/-- The records of frames that start at `offset`, as they are read back. -/
def placed : ℕ → List (Frame maxRecordBytes) → List (ℕ × ContentRecord)
  | _, [] => []
  | offset, f :: fs =>
      (offset, stored f.record) :: placed (offset + (f.bytes crc32).length) fs

theorem body_append (fs gs : List (Frame maxRecordBytes)) :
    body crc32 (fs ++ gs) = body crc32 fs ++ body crc32 gs := by
  simp [body]

theorem placed_append (fs gs : List (Frame maxRecordBytes)) (offset : ℕ) :
    placed crc32 offset (fs ++ gs) =
      placed crc32 offset fs ++ placed crc32 (offset + (body crc32 fs).length) gs := by
  induction fs generalizing offset with
  | nil => simp [placed, body]
  | cons f fs ih =>
      simp only [List.cons_append, placed, ih, body, List.map_cons, List.flatten_cons,
        List.length_append, Nat.add_assoc]

/-- Whole frames are read back, and what follows them only if it can be read itself. -/
theorem scanFrom_body {rest : Bytes} (hrest : rest = [] ∨
      ∃ e, readRecord crc32 maxRecordBytes rest = .error e) (fs : List (Frame maxRecordBytes)) :
    ∀ fuel offset, (body crc32 fs ++ rest).length < fuel →
      (scanFrom crc32 maxRecordBytes fuel offset (body crc32 fs ++ rest)).1 =
          placed crc32 offset fs ∧
        ((scanFrom crc32 maxRecordBytes fuel offset (body crc32 fs ++ rest)).2 = none ↔
          rest = []) := by
  induction fs with
  | nil =>
      intro fuel offset hfuel
      obtain ⟨fuel, rfl⟩ : ∃ k, fuel = k + 1 := ⟨fuel - 1, by omega⟩
      simp only [body, List.map_nil, List.flatten_nil, List.nil_append, scanFrom, placed]
      rcases hrest with rfl | ⟨e, he⟩
      · simp [readRecord]
      · rw [he]
        refine ⟨rfl, by simp, ?_⟩
        rintro rfl
        simp [readRecord] at he
  | cons f fs ih =>
      intro fuel offset hfuel
      obtain ⟨fuel, rfl⟩ : ∃ k, fuel = k + 1 := ⟨fuel - 1, by omega⟩
      have hlen := f.length_bytes crc32
      have hsplit : body crc32 (f :: fs) ++ rest = f.bytes crc32 ++ (body crc32 fs ++ rest) := by
        simp [body]
      rw [hsplit, List.length_append] at hfuel
      have hread := readRecord_envelope crc32 f.encoded f.le_max f.le_u32Max
        (body crc32 fs ++ rest)
      have hdrop : (f.bytes crc32 ++ (body crc32 fs ++ rest)).drop
          (12 + (f.fields ++ f.record.data).length) = body crc32 fs ++ rest := by
        rw [← hlen, List.drop_left]
      rw [hsplit, scanFrom, Frame.bytes, hread]
      simp only
      rw [← Frame.bytes, hdrop, placed, hlen]
      obtain ⟨h₁, h₂⟩ := ih fuel (offset + (12 + (f.fields ++ f.record.data).length)) (by omega)
      exact ⟨by rw [h₁], h₂⟩

@[simp] theorem length_segmentHeader (createdNs : ℕ) :
    (segmentHeader createdNs).length = headerSize := by
  have hmagic : magic.length = 8 := by decide +kernel
  simp [segmentHeader, headerSize, hmagic]

theorem readHeader_segmentHeader (createdNs : ℕ) (rest : Bytes) :
    readHeader (segmentHeader createdNs ++ rest) = .ok () := by
  have hmagic : magic.length = 8 := by decide +kernel
  have hlen : (segmentHeader createdNs ++ rest).length = headerSize + rest.length := by
    rw [List.length_append, length_segmentHeader]
  have htake : (segmentHeader createdNs ++ rest).take 8 = magic := by
    rw [segmentHeader, List.append_assoc, List.append_assoc,
      List.take_append_of_le_length (by omega), List.take_of_length_le (by omega)]
  have hversion : ofLe (((segmentHeader createdNs ++ rest).drop 8).take 4) = 1 := by
    rw [segmentHeader, List.append_assoc, take_drop_middle hmagic (length_leBytes _ _)]
    rfl
  unfold headerSize at hlen
  rw [readHeader, if_neg (by omega), if_neg (by simp [htake]), if_neg (by omega), hversion,
    if_neg (by simp), if_neg (by unfold headerSize; omega)]

theorem readHeader_short {file : Bytes} (h : file.length < headerSize) :
    ∃ e, readHeader file = .error e := by
  unfold readHeader
  split_ifs
  · exact ⟨_, rfl⟩
  · exact ⟨_, rfl⟩
  · exact ⟨_, rfl⟩
  · exact ⟨_, rfl⟩
  · exact ⟨_, rfl⟩

/-- A header and whole frames are read back, and what follows only if it can be read. -/
theorem scanFile_body (part : Bytes) (hpart : part = [] ∨
      ∃ e, readRecord crc32 maxRecordBytes part = .error e) (createdNs : ℕ)
    (fs : List (Frame maxRecordBytes)) :
    (scanFile crc32 maxRecordBytes (segmentHeader createdNs ++ body crc32 fs ++ part)).1 =
        placed crc32 headerSize fs ∧
      ((scanFile crc32 maxRecordBytes (segmentHeader createdNs ++ body crc32 fs ++ part)).2 = none ↔
        part = []) := by
  rw [scanFile, List.append_assoc, readHeader_segmentHeader]
  simp only
  rw [List.drop_append_of_le_length (by simp), List.drop_of_length_le (by simp), List.nil_append]
  exact scanFrom_body crc32 hpart fs _ headerSize (by simp)

/-- The beginning of a frame, or nothing. -/
def Torn (maxRecordBytes : ℕ) (part : Bytes) : Prop :=
  part = [] ∨ ∃ f : Frame maxRecordBytes,
    part <+: f.bytes crc32 ∧ part.length < (f.bytes crc32).length

theorem Torn.readRecord {part : Bytes} (h : Torn crc32 maxRecordBytes part) :
    part = [] ∨ ∃ e, readRecord crc32 maxRecordBytes part = .error e := by
  rcases h with rfl | ⟨f, hin, hlt⟩
  · exact .inl rfl
  · exact readRecord_part crc32 maxRecordBytes f.le_u32Max hin hlt

theorem Torn.of_prefix {part part' : Bytes} (h : Torn crc32 maxRecordBytes part)
    (hin : part' <+: part) : Torn crc32 maxRecordBytes part' := by
  rcases h with rfl | ⟨f, hf, hlt⟩
  · exact .inl (List.prefix_nil.mp hin)
  · have := hin.length_le
    exact .inr ⟨f, hin.trans hf, by omega⟩

theorem exists_take_of_prefix_body {fs : List (Frame maxRecordBytes)} {part l : Bytes}
    (hpart : Torn crc32 maxRecordBytes part) (hl : l <+: body crc32 fs ++ part) :
    ∃ k torn, l = body crc32 (fs.take k) ++ torn ∧ k ≤ fs.length ∧
      Torn crc32 maxRecordBytes torn := by
  rcases Nat.lt_or_ge l.length (body crc32 fs).length with hlt | hge
  · have hin : l <+: body crc32 fs :=
      List.prefix_of_prefix_length_le hl (List.prefix_append _ _) hlt.le
    obtain ⟨k, torn, heq, hk, htorn⟩ := exists_take_of_prefix_flatten hin
    refine ⟨k, torn, by rw [heq, body, List.map_take], by simpa using hk, ?_⟩
    rcases htorn with rfl | ⟨bytes, hget, hbytes⟩
    · exact .inl rfl
    · rw [List.getElem?_map, Option.map_eq_some_iff] at hget
      obtain ⟨f, -, rfl⟩ := hget
      exact .inr ⟨f, hbytes⟩
  · obtain ⟨torn, rfl⟩ := List.prefix_of_prefix_length_le (List.prefix_append _ _) hl hge
    refine ⟨fs.length, torn, by rw [List.take_length], le_rfl, ?_⟩
    exact hpart.of_prefix crc32 ((List.prefix_append_right_inj _).mp hl)

/-- A file cut off anywhere holds the records that are whole. -/
theorem scanFile_prefix {createdNs : ℕ} {fs : List (Frame maxRecordBytes)} {part file : Bytes}
    (hpart : Torn crc32 maxRecordBytes part)
    (hfile : file <+: segmentHeader createdNs ++ body crc32 fs ++ part) :
    ∃ k, k ≤ fs.length ∧
      (scanFile crc32 maxRecordBytes file).1 = placed crc32 headerSize (fs.take k) := by
  rcases Nat.lt_or_ge file.length headerSize with hshort | hlong
  · obtain ⟨e, he⟩ := readHeader_short hshort
    refine ⟨0, Nat.zero_le _, ?_⟩
    rw [scanFile, he]
    rfl
  · have hhead : segmentHeader createdNs <+: file := by
      rw [List.append_assoc] at hfile
      exact List.prefix_of_prefix_length_le (List.prefix_append _ _) hfile (by simpa using hlong)
    obtain ⟨l, rfl⟩ := hhead
    rw [List.append_assoc, List.prefix_append_right_inj] at hfile
    obtain ⟨k, torn, rfl, hk, htorn⟩ := exists_take_of_prefix_body crc32 hpart hfile
    refine ⟨k, hk, ?_⟩
    rw [← List.append_assoc]
    exact (scanFile_body crc32 torn (htorn.readRecord crc32) createdNs (fs.take k)).1

end

end Bazalt.Storage
