import Bazalt.Storage.Published

/-!
# Segment round trip

When nothing fails and the disk budget lasts, every record that is appended is written, and
the files hold exactly these records, in their order and at the offsets that the writer
returned.  The writer starts a new file before a record that would make the active one too
large, so a sealed file is within the threshold unless it has a single record.
-/

namespace Bazalt.Storage

open Lib

/-! ## Runs in which nothing fails -/

/-- How many bytes a record takes in a segment file. -/
def recordSize (r : ContentRecord) : ℕ := 12 + (56 + (serviceBytes r).length + r.data.length)

/-- The record is within the limits of the encoder. -/
structure Encodable (cfg : Config) (r : ContentRecord) : Prop where
  service : (serviceBytes r).length ≤ 2 ^ 16 - 1
  payload : 56 + (serviceBytes r).length + r.data.length ≤ u32Max
  limit : 56 + (serviceBytes r).length + r.data.length ≤ cfg.maxRecordBytes

/-- The disk, the metadata pipeline and the buffer do what they are asked for. -/
def Event.Smooth : Event → Prop
  | .record _ io accepted publish => io.flush = {} ∧ io.barrier = true ∧ io.name.isSome ∧
      accepted = none ∧ publish = {}
  | .flush io => io = {}
  | .timeout io shutdown => io = {} ∧ shutdown = false
  | .drain _ => True
  | .persist _ => True
  | _ => False

/-- The budget has room for the record, and for the header of a new file if it needs one. -/
def Thread.Room (cfg : Config) : Thread → Event → Prop
  | .looping s, .record r _ _ _ => s.writer.retainedBytes + recordSize r +
      (if s.writer.needsRotation cfg (recordSize r) then headerSize else 0) ≤ cfg.storeMaxBytes
  | _, _ => True

instance (cfg : Config) : ∀ (t : Thread) (e : Event), Decidable (t.Room cfg e)
  | .looping s, .record r _ _ _ => inferInstanceAs (Decidable (s.writer.retainedBytes +
      recordSize r + (if s.writer.needsRotation cfg (recordSize r) then headerSize else 0) ≤
        cfg.storeMaxBytes))
  | .looping _, .sealSegment _ _ => .isTrue trivial
  | .looping _, .flush _ => .isTrue trivial
  | .looping _, .timeout _ _ => .isTrue trivial
  | .looping _, .disconnected => .isTrue trivial
  | .looping _, .finish _ => .isTrue trivial
  | .looping _, .drain _ => .isTrue trivial
  | .looping _, .persist _ => .isTrue trivial
  | .closing _, e => .isTrue (by cases e <;> trivial)
  | .stopped _, e => .isTrue (by cases e <;> trivial)

instance (cfg : Config) (r : ContentRecord) : Decidable (Encodable cfg r) :=
  decidable_of_iff ((serviceBytes r).length ≤ 2 ^ 16 - 1 ∧
      56 + (serviceBytes r).length + r.data.length ≤ u32Max ∧
      56 + (serviceBytes r).length + r.data.length ≤ cfg.maxRecordBytes)
    ⟨fun h ↦ ⟨h.1, h.2.1, h.2.2⟩, fun h ↦ ⟨h.1, h.2, h.3⟩⟩

theorem ActiveWriter.prepareRecord_ok {w : ActiveWriter} {cfg : Config} {r : ContentRecord}
    (h : Encodable cfg r) (hroom : w.retainedBytes + recordSize r ≤ cfg.storeMaxBytes) :
    ∃ prepared, w.prepareRecord cfg r = .ok prepared ∧ prepared.encodedLen = recordSize r := by
  obtain ⟨hservice, hpayload, hlimit⟩ := h
  have hdata : ¬ u32Max < r.data.length := by omega
  obtain ⟨fields, hfields⟩ : ∃ fields, encodeRecordPrefix r = .ok fields := by
    unfold encodeRecordPrefix
    rw [if_neg (not_lt.mpr hservice), if_neg hdata]
    exact ⟨_, rfl⟩
  have hlen := length_encodeRecordPrefix hfields
  have hsat := satAdd_le_add w.retainedBytes (12 + (fields.length + r.data.length))
  unfold recordSize at hroom ⊢
  unfold ActiveWriter.prepareRecord
  rw [hfields]
  dsimp only
  rw [if_neg (by omega), if_neg (by omega), if_neg (by omega)]
  refine ⟨_, rfl, ?_⟩
  dsimp only
  omega

/-! ## What the files hold -/

/-- A file with these frames is within the threshold or has one of them at most. -/
def Fitting {m : ℕ} (crc32 : Bytes → BitVec 32) (maxBytes : ℕ) (fs : List (Frame m)) : Prop :=
  fs.length ≤ 1 ∨ headerSize + (body crc32 fs).length ≤ maxBytes

/-- The files hold exactly the records `acc`. -/
structure Session.Filed (crc32 : Bytes → BitVec 32) (cfg : Config) (acc : List ContentRecord)
    (s : Session) (L : Layout cfg.maxRecordBytes) (k : ℕ) : Prop where
  ledger : s.Ledger crc32 [] L k
  whole : L.part = []
  records : L.records = acc
  running : s.fatal = false
  counted : s.writer.bytes = headerSize + (body crc32 L.frames).length
  sealedFit : ∀ g ∈ L.segments, g.frames ≠ [] ∧ Fitting crc32 cfg.maxBytes g.frames
  activeFit : Fitting crc32 cfg.maxBytes L.frames

namespace Session

variable {crc32 : Bytes → BitVec 32} {cfg : Config} {acc : List ContentRecord} {s : Session}
  {L : Layout cfg.maxRecordBytes} {k : ℕ}

theorem Filed.of_ledger (h : s.Filed crc32 cfg acc L k) {s' : Session} {k' : ℕ}
    (hledger : s'.Ledger crc32 [] L k') (hfatal : s'.fatal = s.fatal)
    (hbytes : s'.writer.bytes = s.writer.bytes) : s'.Filed crc32 cfg acc L k' :=
  ⟨hledger, h.whole, h.records, hfatal.trans h.running, hbytes.trans h.counted, h.sealedFit,
    h.activeFit⟩

/-- A flush that does not fail. -/
theorem flushAndPublish_smooth (s : Session) : s.flushAndPublish {} =
    ({ s with
        writer := s.writer.drain s.writer.buffer.length
        queue := s.queue ++ s.pending
        pending := [] }, .ok ()) := rfl

theorem Filed.flush (h : s.Filed crc32 cfg acc L k) :
    (s.flushAndPublish {}).1.Filed crc32 cfg acc L L.frames.length := by
  obtain ⟨k', hledger, hall⟩ := h.ledger.flushAndPublish {}
  rw [hall rfl] at hledger
  exact h.of_ledger hledger rfl rfl

theorem Filed.drain (h : s.Filed crc32 cfg acc L k) (n : ℕ) :
    { s with writer := s.writer.drain n }.Filed crc32 cfg acc L k :=
  h.of_ledger (h.ledger.drain n) rfl rfl

theorem Filed.persist (h : s.Filed crc32 cfg acc L k) (n : ℕ) :
    { s with rows := s.rows ++ s.queue.take n, queue := s.queue.drop n }.Filed crc32 cfg acc L k :=
  h.of_ledger (h.ledger.persist n) rfl rfl

/-- The active file, which has records, is sealed and a new one is started. -/
theorem Filed.rotate (h : s.Filed crc32 cfg acc L k) (hframes : L.frames ≠ []) {io : CommitIo}
    (hflush : io.flush = {}) (hbarrier : io.barrier = true) {name : ℕ} (hname : io.name = some name)
    (hfresh : name ∉ s.disk.map SegmentFile.name)
    (hroom : s.writer.retainedBytes + headerSize ≤ cfg.storeMaxBytes) :
    ∃ s' L', s.commitAndRotate cfg io = (s', .ok ()) ∧ s'.Filed crc32 cfg acc L' 0 ∧
      L'.frames = [] ∧ s'.writer.retainedBytes = satAdd s.writer.retainedBytes headerSize := by
  have hflushed := h.flush
  have hdurable := hflushed.persist (s.flushAndPublish {}).1.queue.length
  rw [List.take_length, List.drop_length] at hdurable
  have hbudget : ¬ cfg.storeMaxBytes < satAdd s.writer.retainedBytes headerSize :=
    not_lt.mpr ((satAdd_le_add _ _).trans hroom)
  rw [flushAndPublish_smooth] at hdurable
  have hbuffer : (s.writer.drain s.writer.buffer.length).buffer = [] := by
    simp [ActiveWriter.drain]
  have hnew : name ∉ (s.sealedFiles ++ [(s.writer.drain s.writer.buffer.length).file]).map
      SegmentFile.name := by
    simpa [Session.disk, ActiveWriter.drain] using hfresh
  have hrotated := hdurable.ledger.rotate rfl hdurable.whole hbuffer hnew io.createdNs
    s.writer.retainedBytes
  refine ⟨_, _, ?_, ⟨hrotated, rfl, ?_, h.running, ?_, ?_, .inl (Nat.zero_le _)⟩, rfl, rfl⟩
  · unfold Session.commitAndRotate
    rw [hflush, flushAndPublish_smooth]
    dsimp only
    rw [if_pos hbarrier, rotateAfterCommit, hname]
    exact if_neg hbudget
  · rw [← h.records]
    simp [Layout.records, Layout.active]
  · simp [ActiveWriter.new, body]
  · intro g hg
    rcases List.mem_append.mp hg with hg | hg
    · exact h.sealedFit g hg
    · rw [List.mem_singleton.mp hg]
      exact ⟨hframes, h.activeFit⟩

theorem frames_ne_nil {m : ℕ} {fs : List (Frame m)} (h : 0 < (body crc32 fs).length) :
    fs ≠ [] := by
  rintro rfl
  simp [body] at h

/-- The active file has room for the record, or a new one is started. -/
theorem Filed.rotateIfNeeded (h : s.Filed crc32 cfg acc L k) {io : CommitIo} {size : ℕ}
    (hflush : io.flush = {}) (hbarrier : io.barrier = true) (hname : io.name.isSome)
    (hfresh : ∀ name ∈ io.name, name ∉ s.disk.map SegmentFile.name)
    (hroom : s.writer.retainedBytes + size +
      (if s.writer.needsRotation cfg size then headerSize else 0) ≤ cfg.storeMaxBytes) :
    ∃ s' L' k', s.rotateIfNeeded cfg size io = (s', .ok ()) ∧ s'.Filed crc32 cfg acc L' k' ∧
      s'.writer.retainedBytes + size ≤ cfg.storeMaxBytes ∧
      (L'.frames = [] ∨ headerSize + (body crc32 L'.frames).length + size ≤ cfg.maxBytes) := by
  unfold Session.rotateIfNeeded
  split_ifs at hroom ⊢ with hneeds
  · obtain ⟨name, hio⟩ := Option.isSome_iff_exists.mp hname
    have hcheck : s.writer.checkRotationBudget cfg size = .ok () := by
      refine if_neg (not_lt.mpr (((satAdd_le_add _ _).trans ?_).trans hroom))
      have := satAdd_le_add headerSize size
      omega
    have hgrown : 0 < (body crc32 L.frames).length := by
      have hlonger := (of_decide_eq_true hneeds).1
      rw [h.counted] at hlonger
      omega
    have hframes := frames_ne_nil hgrown
    obtain ⟨s', L', hrotate, hfiled, hempty, hretained⟩ := h.rotate hframes hflush hbarrier hio
      (hfresh name hio) (by omega)
    rw [hcheck]
    refine ⟨s', L', 0, hrotate, hfiled, ?_, .inl hempty⟩
    have := satAdd_le_add s.writer.retainedBytes headerSize
    omega
  · refine ⟨s, L, k, rfl, h, by omega, ?_⟩
    have hcounted := h.counted
    have hstays : ¬ (headerSize < s.writer.bytes ∧ cfg.maxBytes < s.writer.bytes + size) :=
      fun hboth ↦ hneeds (decide_eq_true hboth)
    by_cases hempty : L.frames = []
    · exact .inl hempty
    · right
      have hgrown : 0 < (body crc32 L.frames).length := by
        obtain ⟨f, fs, hfs⟩ := List.exists_cons_of_ne_nil hempty
        have hlen := f.length_bytes crc32
        rw [hfs]
        simp only [body, List.map_cons, List.flatten_cons, List.length_append]
        omega
      omega

/-- A record is written into the active file. -/
theorem Filed.write (h : s.Filed crc32 cfg acc L k) {r : ContentRecord} (hstored : stored r = r)
    {w : ActiveWriter} {prepared : PreparedRecord} (hprep : w.prepareRecord cfg r = .ok prepared)
    (hroom : s.writer.retainedBytes + prepared.encodedLen ≤ cfg.storeMaxBytes)
    (hfits : L.frames = [] ∨
      headerSize + (body crc32 L.frames).length + prepared.encodedLen ≤ cfg.maxBytes) :
    ∃ w' L', s.writer.writePrepared crc32 cfg r prepared none = (w', .ok s.writer.stream.length) ∧
      { s with
        writer := w'
        pending := s.pending ++ [indexRow r w'.file.name s.writer.stream.length] }.Filed crc32 cfg
          (acc ++ [r]) L' k := by
  obtain ⟨f, rfl, hfields, hlen⟩ := frame_of_prepareRecord crc32 hprep
  have hbudget : ¬ cfg.storeMaxBytes < satAdd s.writer.retainedBytes prepared.encodedLen :=
    not_lt.mpr ((satAdd_le_add _ _).trans hroom)
  have hbytes : envelope crc32 (prepared.fields ++ f.record.data) = f.bytes crc32 := by
    rw [← hfields]
    rfl
  have hbody : (body crc32 (L.frames ++ [f])).length =
      (body crc32 L.frames).length + prepared.encodedLen := by
    rw [body_append, List.length_append, hlen]
    simp [body]
  have hledger := h.ledger.write h.whole f hstored (w := { s.writer with
    buffer := s.writer.buffer ++ f.bytes crc32
    bytes := s.writer.bytes + prepared.encodedLen
    retainedBytes := satAdd s.writer.retainedBytes prepared.encodedLen }) rfl rfl
  refine ⟨_, { L with frames := L.frames ++ [f] }, ?_, ⟨hledger, h.whole, ?_, h.running, ?_,
    h.sealedFit, ?_⟩⟩
  · unfold ActiveWriter.writePrepared
    rw [if_neg hbudget, hbytes]
    rfl
  · rw [← h.records]
    simp [Layout.records]
  · dsimp only
    rw [hbody, h.counted, add_assoc]
  · rcases hfits with hempty | hfits
    · exact .inl (by simp [hempty])
    · refine .inr ?_
      dsimp only
      rw [hbody]
      omega

/-- A batch that is published does not fail. -/
theorem Filed.publishBatch (h : s.Filed crc32 cfg acc L k) :
    ∃ k', (s.publishBatch {}).Filed crc32 cfg acc L k' := by
  unfold Session.publishBatch
  split_ifs
  · exact ⟨_, h.flush⟩
  · exact ⟨k, h⟩

theorem Filed.breakIfFatal (h : s.Filed crc32 cfg acc L k) : s.breakIfFatal = .looping s := by
  rw [Session.breakIfFatal, h.running]
  rfl

theorem Filed.handleRecord (h : s.Filed crc32 cfg acc L k) {r : ContentRecord}
    (hencodable : Encodable cfg r) (hstored : stored r = r) {io : CommitIo}
    (hflush : io.flush = {}) (hbarrier : io.barrier = true) (hname : io.name.isSome)
    (hfresh : ∀ name ∈ io.name, name ∉ s.disk.map SegmentFile.name)
    (hroom : s.writer.retainedBytes + recordSize r +
      (if s.writer.needsRotation cfg (recordSize r) then headerSize else 0) ≤ cfg.storeMaxBytes) :
    ∃ s' L' k', (s.handleRecord crc32 cfg r io none {}).1 = .looping s' ∧
      s'.Filed crc32 cfg (acc ++ [r]) L' k' := by
  obtain ⟨prepared, hprep, hsize⟩ := ActiveWriter.prepareRecord_ok (w := s.writer) hencodable
    (by omega)
  rw [← hsize] at hroom
  obtain ⟨s₁, L₁, k₁, hrotate, h₁, hroom₁, hfits⟩ :=
    h.rotateIfNeeded hflush hbarrier hname hfresh hroom
  obtain ⟨w, L₂, hwrite, h₂⟩ := h₁.write hstored hprep hroom₁ hfits
  obtain ⟨k₃, h₃⟩ := h₂.publishBatch
  refine ⟨_, L₂, k₃, ?_, h₃⟩
  unfold Session.handleRecord
  rw [hprep]
  dsimp only
  rw [hrotate]
  dsimp only
  rw [hwrite]
  exact h₃.breakIfFatal

end Session

namespace Thread

variable {crc32 : Bytes → BitVec 32} {cfg : Config} {acc : List ContentRecord} {t : Thread}

/-- The loop goes on, and the files hold exactly the records `acc`. -/
def Filed (crc32 : Bytes → BitVec 32) (cfg : Config) (t : Thread) (acc : List ContentRecord) :
    Prop :=
  ∃ s L k, t = .looping s ∧ s.Filed crc32 cfg acc L k

theorem after_append (t : Thread) (as bs : List Event) :
    t.after crc32 cfg (as ++ bs) = (t.after crc32 cfg as).after crc32 cfg bs := by
  induction as generalizing t with
  | nil => rfl
  | cons e as ih => exact ih _

theorem Filed.step (h : t.Filed crc32 cfg acc) {e : Event} (hsmooth : e.Smooth)
    (hfresh : t.Fresh e) (hroom : t.Room cfg e)
    (hrecords : ∀ r ∈ appended [e], Encodable cfg r ∧ stored r = r) :
    (t.step crc32 cfg e).1.Filed crc32 cfg (acc ++ appended [e]) := by
  obtain ⟨s, L, k, rfl, h⟩ := h
  cases e with
  | record r io accepted publish =>
      obtain ⟨hflush, hbarrier, hname, rfl, rfl⟩ := hsmooth
      obtain ⟨hencodable, hstored⟩ := hrecords r (by simp [appended])
      obtain ⟨s', L', k', hlooping, h'⟩ :=
        h.handleRecord hencodable hstored hflush hbarrier hname hfresh hroom
      exact ⟨s', L', k', hlooping, h'⟩
  | flush io =>
      obtain rfl := hsmooth
      rw [show appended [Event.flush {}] = [] from rfl, List.append_nil]
      exact ⟨_, L, _, h.flush.breakIfFatal, h.flush⟩
  | timeout io shutdown =>
      obtain ⟨rfl, rfl⟩ := hsmooth
      have hrest : ∃ k', (if s.pending.isEmpty then s
          else Session.failOn (s.flushAndPublish {})).Filed crc32 cfg acc L k' := by
        split_ifs
        · exact ⟨k, h⟩
        · exact ⟨_, h.flush⟩
      obtain ⟨k', hrest⟩ := hrest
      rw [show appended [Event.timeout {} false] = [] from rfl, List.append_nil]
      exact ⟨_, L, k', hrest.breakIfFatal, hrest⟩
  | drain n =>
      rw [show appended [Event.drain n] = [] from rfl, List.append_nil]
      exact ⟨_, L, k, rfl, h.drain n⟩
  | persist n =>
      rw [show appended [Event.persist n] = [] from rfl, List.append_nil]
      exact ⟨_, L, k, rfl, h.persist n⟩
  | sealSegment io listed => exact hsmooth.elim
  | disconnected => exact hsmooth.elim
  | finish io => exact hsmooth.elim

theorem Filed.after (h : t.Filed crc32 cfg acc) {es : List Event} (hsmooth : ∀ e ∈ es, e.Smooth)
    (hfresh : t.Along crc32 cfg Fresh es) (hroom : t.Along crc32 cfg (Room cfg) es)
    (hrecords : ∀ r ∈ appended es, Encodable cfg r ∧ stored r = r) :
    (t.after crc32 cfg es).Filed crc32 cfg (acc ++ appended es) := by
  induction es generalizing t acc with
  | nil => simpa [appended, Thread.after] using h
  | cons e es ih =>
      have hsplit : appended (e :: es) = appended [e] ++ appended es := by
        rw [appended, appended, appended, ← List.filterMap_append]
        rfl
      rw [hsplit] at hrecords ⊢
      rw [← List.append_assoc]
      exact ih (h.step (hsmooth e (List.mem_cons_self ..)) hfresh.1 hroom.1
          fun r hr ↦ hrecords r (List.mem_append_left _ hr))
        (fun e' he' ↦ hsmooth e' (List.mem_cons_of_mem _ he')) hfresh.2 hroom.2
        fun r hr ↦ hrecords r (List.mem_append_right _ hr)

end Thread

/-! ## Reading everything back -/

/-- What a store holds after the records were appended and the rows with their places were
returned. -/
structure RoundTrip (crc32 : Bytes → BitVec 32) (cfg : Config) (records : List ContentRecord)
    (rows : List ContentIndexRecord) (s : Session) : Prop where
  clean : ∀ f ∈ s.disk, (scanFile crc32 cfg.maxRecordBytes f.bytes).2 = none
  scanned : readBack crc32 cfg.maxRecordBytes s.disk = records
  located : rows.map (fun row ↦ readRecordAt crc32 cfg.maxRecordBytes s.disk row.segmentPath
    row.segmentOffset) = records.map .ok
  boundaries : ∀ f ∈ s.disk, (scanFile crc32 cfg.maxRecordBytes f.bytes).1.map Prod.fst =
    (rows.filter fun row ↦ decide (row.segmentPath = f.name)).map ContentIndexRecord.segmentOffset
  sizes : ∀ f ∈ s.sealedFiles, f.bytes.length ≤ cfg.maxBytes ∨
    (scanFile crc32 cfg.maxRecordBytes f.bytes).1.length = 1

section

variable {m : ℕ} {crc32 : Bytes → BitVec 32}

theorem length_placed (fs : List (Frame m)) (start : ℕ) :
    (placed crc32 start fs).length = fs.length := by
  have hlen : ((placed crc32 start fs).map Prod.snd).length = _ :=
    congrArg List.length (map_snd_placed fs start)
  simpa using hlen

/-- A segment file is read to its end without an error. -/
theorem scanFile_file (g : SealedSegment m) :
    scanFile crc32 m (g.file crc32).bytes = (placed crc32 headerSize g.frames, none) := by
  obtain ⟨hplaced, hend⟩ := scanFile_body crc32 [] (.inl rfl) g.createdNs g.frames
  rw [List.append_nil] at hplaced hend
  exact Prod.ext hplaced (hend.mpr rfl)

/-- Of all rows, those of one file. -/
theorem filter_rows {gs : List (SealedSegment m)} (hnames : (gs.map SealedSegment.name).Nodup)
    {g : SealedSegment m} (hg : g ∈ gs) :
    ((gs.flatMap (SealedSegment.rows crc32)).filter fun row ↦ decide (row.segmentPath = g.name)) =
      g.rows crc32 := by
  induction gs with
  | nil => cases hg
  | cons g' gs ih =>
      rw [List.map_cons, List.nodup_cons] at hnames
      rw [List.flatMap_cons, List.filter_append]
      rcases List.mem_cons.mp hg with rfl | hg
      · have hself : (g.rows crc32).filter (fun row ↦ decide (row.segmentPath = g.name)) =
            g.rows crc32 := by
          refine List.filter_eq_self.mpr fun row hrow ↦ decide_eq_true ?_
          exact SealedSegment.segmentPath_of_mem hrow
        have hothers : (gs.flatMap (SealedSegment.rows crc32)).filter
            (fun row ↦ decide (row.segmentPath = g.name)) = [] := by
          refine List.filter_eq_nil_iff.mpr fun row hrow ↦ ?_
          obtain ⟨g', hg', hrow⟩ := List.mem_flatMap.mp hrow
          rw [SealedSegment.segmentPath_of_mem hrow, decide_eq_true_eq]
          exact fun he ↦ hnames.1 (he ▸ List.mem_map_of_mem hg')
        rw [hself, hothers, List.append_nil]
      · have hfirst : (g'.rows crc32).filter (fun row ↦ decide (row.segmentPath = g.name)) = [] := by
          refine List.filter_eq_nil_iff.mpr fun row hrow ↦ ?_
          rw [SealedSegment.segmentPath_of_mem hrow, decide_eq_true_eq]
          exact fun he ↦ hnames.1 (he ▸ List.mem_map_of_mem hg)
        rw [hfirst, List.nil_append, ih hnames.2 hg]

/-- Records and rows of segments, one after the other. -/
theorem readRecordAt_rows {gs : List (SealedSegment m)} {disk : List SegmentFile}
    (hnames : (disk.map SegmentFile.name).Nodup) (hdisk : disk = gs.map (SealedSegment.file crc32)) :
    (gs.flatMap (SealedSegment.rows crc32)).map (fun row ↦
        readRecordAt crc32 m disk row.segmentPath row.segmentOffset) =
      (gs.flatMap SealedSegment.frames).map fun f ↦ .ok (stored f.record) := by
  rw [List.map_flatMap, List.map_flatMap]
  refine List.flatMap_congr fun g hg ↦ ?_
  have hfile : g.file crc32 ∈ disk := by
    rw [hdisk]
    exact List.mem_map_of_mem hg
  have hread : ∀ p ∈ placed crc32 headerSize g.frames,
      readRecordAt crc32 m disk g.name p.1 = .ok p.2 := fun p hp ↦
    readRecordAt_placed hnames hfile (List.prefix_refl _) hp
  have hrecords : (placed crc32 headerSize g.frames).map (fun p ↦ Except.ok p.2) =
      g.frames.map fun f ↦ (.ok (stored f.record) : Except SegmentError ContentRecord) := by
    have hsnd : (placed crc32 headerSize g.frames).map Prod.snd = _ :=
      map_snd_placed g.frames headerSize
    have hmap := congrArg (List.map fun r ↦ (.ok r : Except SegmentError ContentRecord)) hsnd
    simpa [Function.comp_def] using hmap
  rw [SealedSegment.rows, List.map_map, ← hrecords]
  exact List.map_congr_left fun p hp ↦ hread p hp

end

/-- With an empty buffer the files are the segments of the layout. -/
theorem Session.Filed.readsBack {crc32 : Bytes → BitVec 32} {cfg : Config}
    {acc : List ContentRecord} {s : Session} {L : Layout cfg.maxRecordBytes} {k : ℕ}
    (h : s.Filed crc32 cfg acc L k) (hbuffer : s.writer.buffer = [])
    (hstored : ∀ r ∈ acc, stored r = r) :
    RoundTrip crc32 cfg acc (s.sent ++ s.pending) s := by
  have hrecords : (L.segments ++ [L.active s.writer.file.name]).flatMap SealedSegment.frames =
      L.segments.flatMap SealedSegment.frames ++ L.frames := by
    simp [Layout.active]
  have hacc : ((L.segments ++ [L.active s.writer.file.name]).flatMap
      SealedSegment.frames).map (fun f ↦ stored f.record) = acc := by
    have hmap : (L.records).map stored = acc := by
      rw [h.records]
      exact (List.map_congr_left hstored).trans (List.map_id _)
    rw [hrecords, ← hmap, Layout.records, List.map_map]
    rfl
  have hdisk : s.disk = (L.segments ++ [L.active s.writer.file.name]).map
      (SealedSegment.file crc32) := by
    have hstream := h.ledger.describes.stream
    rw [ActiveWriter.stream, hbuffer, List.append_nil, h.whole, List.append_nil] at hstream
    rw [Session.disk, h.ledger.describes.sealedFiles, List.nil_append, List.map_append]
    simp [SealedSegment.file, Layout.active, ← hstream]
  have hnames := h.ledger.nodup_segments
  have hrows : s.sent ++ s.pending = (L.segments ++ [L.active s.writer.file.name]).flatMap
      (SealedSegment.rows crc32) := h.ledger.sent_append_pending
  have hdisknames := h.ledger.names
  rw [hrows]
  generalize L.segments ++ [L.active s.writer.file.name] = gs at *
  refine ⟨?_, ?_, ?_, ?_, ?_⟩
  · intro f hf
    rw [hdisk] at hf
    obtain ⟨g, -, rfl⟩ := List.mem_map.mp hf
    rw [scanFile_file]
  · rw [readBack, hdisk, List.flatMap_map, ← hacc, List.map_flatMap]
    refine List.flatMap_congr fun g _ ↦ ?_
    rw [scanFile_file, map_snd_placed]
  · rw [readRecordAt_rows hdisknames hdisk, ← hacc, List.map_map]
    rfl
  · intro f hf
    rw [hdisk] at hf
    obtain ⟨g, hg, rfl⟩ := List.mem_map.mp hf
    have hname : (g.file crc32).name = g.name := rfl
    rw [scanFile_file, hname, filter_rows hnames hg, SealedSegment.rows, List.map_map]
    rfl
  · intro f hf
    rw [h.ledger.describes.sealedFiles, List.nil_append] at hf
    obtain ⟨g, hg, rfl⟩ := List.mem_map.mp hf
    obtain ⟨hne, hfit⟩ := h.sealedFit g hg
    have hlength : (g.file crc32).bytes.length = headerSize + (body crc32 g.frames).length := by
      simp [SealedSegment.file]
    rw [scanFile_file, length_placed, hlength]
    rcases hfit with hone | hfit
    · exact .inr (le_antisymm hone (List.length_pos_iff.mpr hne))
    · exact .inl hfit

/-- Whatever the threshold, when nothing fails and the budget lasts. -/
theorem roundTrip (crc32 : Bytes → BitVec 32) (cfg : Config) (name createdNs retainedBytes : ℕ)
    (es : List Event) (hsmooth : ∀ e ∈ es, e.Smooth)
    (hfresh : (Thread.spawned [] name createdNs retainedBytes).Along crc32 cfg Thread.Fresh es)
    (hroom : (Thread.spawned [] name createdNs retainedBytes).Along crc32 cfg (Thread.Room cfg) es)
    (hrecords : ∀ r ∈ appended es, Encodable cfg r ∧ ContentRecord.Storable r) :
    RoundTrip crc32 cfg (appended es)
      ((Thread.spawned [] name createdNs retainedBytes).written crc32 cfg es)
      ((Thread.spawned [] name createdNs retainedBytes).after crc32 cfg
        (es ++ [.flush {}])).session := by
  have hstart : (Thread.spawned [] name createdNs retainedBytes).Filed crc32 cfg [] := by
    refine ⟨_, ⟨[], createdNs, [], []⟩, 0, rfl, ⟨⟨⟨rfl, ?_, .inl rfl⟩, ?_, le_rfl, rfl, rfl, ?_⟩, rfl,
      rfl, rfl, ?_, by simp, .inl (Nat.zero_le _)⟩⟩
    · simp [ActiveWriter.stream, ActiveWriter.new, body]
    · simp [Session.disk]
    · exact fun hk ↦ absurd hk (lt_irrefl 0)
    · simp [ActiveWriter.new, body]
  obtain ⟨s, L, k, hlooping, hfiled⟩ := hstart.after hsmooth hfresh hroom fun r hr ↦
    ⟨(hrecords r hr).1, stored_of_storable (hrecords r hr).2⟩
  have hend : ((Thread.spawned [] name createdNs retainedBytes).after crc32 cfg
      (es ++ [.flush {}])) = .looping (s.flushAndPublish {}).1 := by
    rw [Thread.after_append, hlooping]
    exact hfiled.flush.breakIfFatal
  have hrows : ((Thread.spawned [] name createdNs retainedBytes).after crc32 cfg
      es).session.allRows = (Thread.spawned [] name createdNs retainedBytes).session.allRows ++
        (Thread.spawned [] name createdNs retainedBytes).written crc32 cfg es :=
    Thread.allRows_after cfg _ es
  rw [hlooping] at hrows
  have hstored : ∀ r ∈ [] ++ appended es, stored r = r := fun r hr ↦
    stored_of_storable (hrecords r hr).2
  have htrip := hfiled.flush.readsBack (by simp [Session.flushAndPublish_smooth,
    ActiveWriter.drain]) hstored
  rw [hend]
  have hall : (s.flushAndPublish {}).1.sent ++ (s.flushAndPublish {}).1.pending =
      (Thread.spawned [] name createdNs retainedBytes).written crc32 cfg es :=
    (Session.allRows_flushAndPublish s {}).trans hrows
  rw [hall] at htrip
  exact htrip

/-- The second record does not fit into the first file. -/
def twoFilesRun : List Event :=
  [.record (sampleRecord 1 [1]) ⟨{}, true, some 2, 6⟩ none {}, .drain 30,
    .record (sampleRecord 2 [2, 2]) ⟨{}, true, some 2, 7⟩ none {}, .persist 1]

def twoFilesConfig : Config := ⟨100, 64, 1048576⟩

theorem roundTrip_twoFilesRun :
    ((Thread.spawned [] 1 5 0).after (fun _ ↦ 0) twoFilesConfig
        (twoFilesRun ++ [.flush {}])).session.sealedFiles.length = 1 ∧
      RoundTrip (fun _ ↦ 0) twoFilesConfig [sampleRecord 1 [1], sampleRecord 2 [2, 2]]
        ((Thread.spawned [] 1 5 0).written (fun _ ↦ 0) twoFilesConfig twoFilesRun)
        ((Thread.spawned [] 1 5 0).after (fun _ ↦ 0) twoFilesConfig
          (twoFilesRun ++ [.flush {}])).session :=
  ⟨by decide +kernel,
    roundTrip (fun _ ↦ 0) twoFilesConfig 1 5 0 twoFilesRun (by simp [twoFilesRun, Event.Smooth])
      (by decide +kernel) (by decide +kernel) (by decide +kernel)⟩

end Bazalt.Storage
