import Bazalt.Storage.Writer

/-!
# What the writer persists

Whatever fails, the segment files of a run hold whole records and at most the beginning
of one more.  The records are a prefix of those appended as long as the loop takes no
command while its error flag is set: two of the error branches of a record go on with the
loop without testing the flag.
-/

namespace Bazalt.Storage

open Lib

/-- The records that can be read from segment files. -/
def readBack (crc32 : Bytes → BitVec 32) (maxRecordBytes : ℕ) (files : List SegmentFile) :
    List ContentRecord :=
  files.flatMap fun f ↦ (scanFile crc32 maxRecordBytes f.bytes).1.map Prod.snd

/-- A segment that was sealed with its records. -/
structure SealedSegment (maxRecordBytes : ℕ) where
  name : ℕ
  createdNs : ℕ
  frames : List (Frame maxRecordBytes)

/-- What the files of a run hold: sealed segments, the records of the active one, and the
beginning of a record whose writing failed. -/
structure Layout (maxRecordBytes : ℕ) where
  segments : List (SealedSegment maxRecordBytes) := []
  createdNs : ℕ
  frames : List (Frame maxRecordBytes) := []
  part : Bytes := []

section

variable (crc32 : Bytes → BitVec 32) {maxRecordBytes : ℕ}

def SealedSegment.file (g : SealedSegment maxRecordBytes) : SegmentFile :=
  ⟨g.name, segmentHeader g.createdNs ++ body crc32 g.frames⟩

/-- All records of a layout, in the order they were written. -/
def Layout.records (L : Layout maxRecordBytes) : List ContentRecord :=
  (L.segments.flatMap SealedSegment.frames ++ L.frames).map Frame.record

structure Layout.Describes (L : Layout maxRecordBytes) (old : List SegmentFile) (s : Session) :
    Prop where
  sealedFiles : s.sealedFiles = old ++ L.segments.map (SealedSegment.file crc32)
  stream : s.writer.stream = segmentHeader L.createdNs ++ body crc32 L.frames ++ L.part
  part : Torn crc32 maxRecordBytes L.part

end

section

variable {crc32 : Bytes → BitVec 32} {cfg : Config} {old : List SegmentFile}

theorem ActiveWriter.stream_drain (w : ActiveWriter) (n : ℕ) : (w.drain n).stream = w.stream := by
  simp [stream, drain]

theorem map_snd_placed {m : ℕ} (fs : List (Frame m)) (offset : ℕ) :
    (placed crc32 offset fs).map Prod.snd = fs.map fun f ↦ stored f.record := by
  induction fs generalizing offset with
  | nil => rfl
  | cons f fs ih => simp [placed, ih]

/-- The records of a sealed segment are read back. -/
theorem scanFile_sealed {m : ℕ} (g : SealedSegment m) :
    (scanFile crc32 m (g.file crc32).bytes).1 = placed crc32 headerSize g.frames := by
  have hscan := (scanFile_body crc32 [] (.inl rfl) g.createdNs g.frames).1
  rwa [List.append_nil] at hscan

/-- Of the active file a prefix of its records is read back. -/
theorem readBack_initial {m : ℕ} {L : Layout m} {s : Session} (h : L.Describes crc32 old s) :
    readBack crc32 m (s.disk.drop old.length) <+: L.records.map stored := by
  have hactive : s.writer.file.bytes <+:
      segmentHeader L.createdNs ++ body crc32 L.frames ++ L.part :=
    h.stream ▸ List.prefix_append _ _
  obtain ⟨k, hk, hscan⟩ := scanFile_prefix crc32 h.part hactive
  have hsealed : readBack crc32 m (L.segments.map (SealedSegment.file crc32)) =
      (L.segments.flatMap SealedSegment.frames).map fun f ↦ stored f.record := by
    rw [readBack, List.flatMap_map, List.map_flatMap]
    refine List.flatMap_congr fun g _ ↦ ?_
    rw [scanFile_sealed, map_snd_placed]
  have hdrop : s.disk.drop old.length =
      L.segments.map (SealedSegment.file crc32) ++ [s.writer.file] := by
    rw [Session.disk, h.sealedFiles, List.append_assoc, List.drop_left]
  rw [hdrop]
  have hsplit : readBack crc32 m (L.segments.map (SealedSegment.file crc32) ++ [s.writer.file]) =
      readBack crc32 m (L.segments.map (SealedSegment.file crc32)) ++
        (L.frames.take k).map fun f ↦ stored f.record := by
    rw [readBack, List.flatMap_append, ← readBack]
    simp [hscan, map_snd_placed]
  rw [hsplit, hsealed, Layout.records, List.map_map, List.map_append]
  refine (List.prefix_append_right_inj _).mpr ?_
  rw [List.map_take]
  exact List.take_prefix _ _

/-! ## What the operations do to the files -/

namespace Layout

/-- A layout describes a session by its files alone. -/
theorem Describes.congr {m : ℕ} {L : Layout m} {s s' : Session} (h : L.Describes crc32 old s)
    (hfiles : s'.sealedFiles = s.sealedFiles) (hstream : s'.writer.stream = s.writer.stream) :
    L.Describes crc32 old s' :=
  ⟨hfiles.trans h.sealedFiles, hstream.trans h.stream, h.part⟩

end Layout

namespace Session

/-- `flushAndPublish` moves bytes and rows along; it changes no file content and neither
the counters nor the flag. -/
theorem flushAndPublish_frame (s : Session) (io : FlushIo) :
    (s.flushAndPublish io).1.sealedFiles = s.sealedFiles ∧
      (s.flushAndPublish io).1.writer.stream = s.writer.stream ∧
      (s.flushAndPublish io).1.fatal = s.fatal ∧
      ((s.flushAndPublish io).2 = .ok () → (s.flushAndPublish io).1.writer.buffer = []) := by
  unfold flushAndPublish
  split
  · exact ⟨rfl, s.writer.stream_drain _, rfl, by simp⟩
  · simp only
    split
    · exact ⟨rfl, s.writer.stream_drain _, rfl, by simp⟩
    · exact ⟨rfl, s.writer.stream_drain _, rfl, fun _ ↦ by simp [ActiveWriter.drain]⟩

variable {L : Layout cfg.maxRecordBytes}

theorem commitAndRotate_fatal (cfg : Config) (s : Session) (io : CommitIo) :
    (s.commitAndRotate cfg io).1.fatal = s.fatal := by
  have hfatal := (s.flushAndPublish_frame io.flush).2.2.1
  unfold commitAndRotate
  generalize s.flushAndPublish io.flush = r at hfatal ⊢
  obtain ⟨s₁, e | ⟨⟨⟩⟩⟩ := r
  · exact hfatal
  · simp only at hfatal ⊢
    split_ifs
    · unfold rotateAfterCommit
      split_ifs
      · exact hfatal
      · cases io.name with
        | none => exact hfatal
        | some name => exact hfatal
    · exact hfatal

theorem rotateIfNeeded_fatal (cfg : Config) (s : Session) (encodedLen : ℕ) (io : CommitIo) :
    (s.rotateIfNeeded cfg encodedLen io).1.fatal = s.fatal := by
  unfold rotateIfNeeded
  split_ifs
  · cases s.writer.checkRotationBudget cfg encodedLen with
    | error e => rfl
    | ok u => exact commitAndRotate_fatal cfg s io
  · rfl

theorem commitAndRotate_layout {s : Session} (h : L.Describes crc32 old s) (hpart : L.part = [])
    (io : CommitIo) : ∃ L' : Layout cfg.maxRecordBytes,
      L'.Describes crc32 old (s.commitAndRotate cfg io).1 ∧ L'.part = [] ∧
        L'.records = L.records := by
  obtain ⟨hsealed, hstream, -, hbuffer⟩ := s.flushAndPublish_frame io.flush
  unfold commitAndRotate
  generalize s.flushAndPublish io.flush = r at hsealed hstream hbuffer ⊢
  obtain ⟨s₁, e | ⟨⟨⟩⟩⟩ := r
  · exact ⟨L, h.congr hsealed hstream, hpart, rfl⟩
  · simp only at hsealed hstream hbuffer ⊢
    have h₁ : L.Describes crc32 old s₁ := h.congr hsealed hstream
    split_ifs
    · unfold rotateAfterCommit
      split_ifs
      · exact ⟨L, h₁.congr rfl rfl, hpart, rfl⟩
      · cases io.name with
        | none => exact ⟨L, h₁.congr rfl rfl, hpart, rfl⟩
        | some name =>
            -- the flush has emptied the buffer, so the file holds the whole stream
            have hfile : s₁.writer.file.bytes = segmentHeader L.createdNs ++ body crc32 L.frames := by
              have hall := h₁.stream
              rw [ActiveWriter.stream, hbuffer trivial, List.append_nil, hpart,
                List.append_nil] at hall
              exact hall
            refine ⟨⟨L.segments ++ [⟨s₁.writer.file.name, L.createdNs, L.frames⟩], io.createdNs,
              [], []⟩, ⟨?_, ?_, .inl rfl⟩, rfl, ?_⟩
            · simp only [List.map_append, List.map_cons, List.map_nil, SealedSegment.file, ← hfile,
                ← List.append_assoc, ← h₁.sealedFiles]
            · simp [ActiveWriter.stream, ActiveWriter.new, body]
            · simp [Layout.records]
    · exact ⟨L, h₁, hpart, rfl⟩

/-- A prepared record makes a frame. -/
theorem frame_of_prepareRecord (crc32 : Bytes → BitVec 32) {w : ActiveWriter} {record : ContentRecord}
    {prepared : PreparedRecord} (h : w.prepareRecord cfg record = .ok prepared) :
    ∃ f : Frame cfg.maxRecordBytes, f.record = record ∧ f.fields = prepared.fields ∧
      prepared.encodedLen = (f.bytes crc32).length := by
  unfold ActiveWriter.prepareRecord at h
  cases henc : encodeRecordPrefix record with
  | error e => simp [henc] at h
  | ok fields =>
      simp only [henc] at h
      split_ifs at h with h₁ h₂ h₃
      obtain rfl := Except.ok.inj h
      exact ⟨⟨record, fields, henc, by rw [List.length_append]; omega,
        by rw [List.length_append]; omega⟩, rfl, rfl, by
          rw [Frame.length_bytes, List.length_append]⟩

/-- A write adds the frame, or the beginning of it when it fails. -/
theorem writePrepared_layout {s : Session} (h : L.Describes crc32 old s) (hpart : L.part = [])
    {record : ContentRecord} {prepared : PreparedRecord} {w : ActiveWriter}
    (hprep : w.prepareRecord cfg record = .ok prepared) (accepted : Option ℕ) :
    match s.writer.writePrepared crc32 cfg record prepared accepted with
    | (w', .ok _) => ∃ L' : Layout cfg.maxRecordBytes,
        L'.Describes crc32 old { s with writer := w' } ∧ L'.part = [] ∧
          L'.records = L.records ++ [record]
    | (w', .error _) => ∃ L' : Layout cfg.maxRecordBytes,
        L'.Describes crc32 old { s with writer := w' } ∧ L'.records = L.records := by
  obtain ⟨f, rfl, hfields, -⟩ := frame_of_prepareRecord crc32 hprep
  have hstream := h.stream
  rw [hpart, List.append_nil] at hstream
  unfold ActiveWriter.writePrepared
  split_ifs
  · exact ⟨L, h.congr rfl rfl, rfl⟩
  · have hbytes : envelope crc32 (f.fields ++ f.record.data) = f.bytes crc32 := rfl
    simp only [← hfields, hbytes]
    cases hacc : accepted.filter fun n ↦ decide (n < (f.bytes crc32).length) with
    | some n =>
        have hn := (Option.filter_eq_some_iff.mp hacc).2
        simp only [decide_eq_true_eq] at hn
        refine ⟨{ L with part := (f.bytes crc32).take n }, ⟨h.sealedFiles, ?_, ?_⟩, rfl⟩
        · simp only [ActiveWriter.stream] at hstream ⊢
          rw [← List.append_assoc, hstream]
        · exact .inr ⟨f, List.take_prefix _ _, by rw [List.length_take]; omega⟩
    | none =>
        refine ⟨{ L with frames := L.frames ++ [f] }, ⟨h.sealedFiles, ?_, h.part⟩, hpart, ?_⟩
        · simp only [ActiveWriter.stream] at hstream ⊢
          rw [← List.append_assoc, hstream, hpart, body_append, List.append_nil]
          simp [body, Frame.bytes]
        · simp [Layout.records]

theorem rotateIfNeeded_layout {s : Session} (h : L.Describes crc32 old s) (hpart : L.part = [])
    (encodedLen : ℕ) (io : CommitIo) : ∃ L' : Layout cfg.maxRecordBytes,
      L'.Describes crc32 old (s.rotateIfNeeded cfg encodedLen io).1 ∧ L'.part = [] ∧
        L'.records = L.records := by
  unfold rotateIfNeeded
  split_ifs
  · cases s.writer.checkRotationBudget cfg encodedLen with
    | error e => exact ⟨L, h, hpart, rfl⟩
    | ok u => exact commitAndRotate_layout h hpart io
  · exact ⟨L, h, hpart, rfl⟩

/-- `failOn` keeps the files, and leaves the flag set where it was set. -/
theorem failOn_frame {α : Type} (r : Session × Except SegmentError α) :
    (failOn r).sealedFiles = r.1.sealedFiles ∧ (failOn r).writer = r.1.writer ∧
      (r.1.fatal = true → (failOn r).fatal = true) := by
  unfold failOn
  split
  · exact ⟨rfl, rfl, id⟩
  · exact ⟨rfl, rfl, fun _ ↦ rfl⟩

theorem publishBatch_frame (s : Session) (io : FlushIo) :
    (s.publishBatch io).sealedFiles = s.sealedFiles ∧
      (s.publishBatch io).writer.stream = s.writer.stream ∧
      (s.fatal = true → (s.publishBatch io).fatal = true) := by
  unfold publishBatch
  split_ifs
  · obtain ⟨hsealed, hstream, hfatal, -⟩ := s.flushAndPublish_frame io
    obtain ⟨hsealed', hwriter, hmono⟩ := failOn_frame (s.flushAndPublish io)
    exact ⟨hsealed'.trans hsealed, by rw [hwriter, hstream], fun h ↦ hmono (hfatal ▸ h)⟩
  · exact ⟨rfl, rfl, id⟩

@[simp] theorem session_breakIfFatal (s : Session) : s.breakIfFatal.session = s := by
  unfold breakIfFatal
  split_ifs <;> rfl

theorem fatal_of_breakIfFatal {s s' : Session} (h : s.breakIfFatal = .looping s') :
    s' = s ∧ s.fatal = false := by
  unfold breakIfFatal at h
  split_ifs at h with hf
  exact ⟨(Thread.looping.inj h).symm, by simpa using hf⟩

/-- The record is turned away before anything is written. -/
def Refuses (cfg : Config) (s : Session) (record : ContentRecord) : Prop :=
  match s.writer.prepareRecord cfg record with
  | .error _ => True
  | .ok prepared => s.writer.needsRotation cfg prepared.encodedLen = true ∧
      (s.writer.checkRotationBudget cfg prepared.encodedLen).isOk = false

end Session

instance (cfg : Config) (s : Session) (record : ContentRecord) :
    Decidable (s.Refuses cfg record) :=
  match h : s.writer.prepareRecord cfg record with
  | .error _ => .isTrue (by simp [Session.Refuses, h])
  | .ok prepared => decidable_of_iff
      (s.writer.needsRotation cfg prepared.encodedLen = true ∧
        (s.writer.checkRotationBudget cfg prepared.encodedLen).isOk = false)
      (by simp [Session.Refuses, h])

/-- Every event of a run meets `P` in the state it finds. -/
def Thread.Along (crc32 : Bytes → BitVec 32) (cfg : Config) (P : Thread → Event → Prop)
    (t : Thread) : List Event → Prop
  | [] => True
  | e :: es => P t e ∧ (t.step crc32 cfg e).1.Along crc32 cfg P es

instance Thread.instDecidableAlong (crc32 : Bytes → BitVec 32) (cfg : Config) (P : Thread → Event → Prop)
    [∀ t e, Decidable (P t e)] : ∀ (es : List Event) (t : Thread),
      Decidable (t.Along crc32 cfg P es)
  | [], _ => .isTrue trivial
  | e :: es, t =>
      have := Thread.instDecidableAlong crc32 cfg P es (t.step crc32 cfg e).1
      inferInstanceAs (Decidable (P t e ∧ (t.step crc32 cfg e).1.Along crc32 cfg P es))

/-- While the flag is set the loop takes no command but a record that is refused. -/
def Thread.Prompt (cfg : Config) : Thread → Event → Prop
  | .looping s, .record r _ _ _ => s.fatal = true → s.Refuses cfg r
  | .looping s, .flush _ => s.fatal = false
  | .looping s, .sealSegment _ _ => s.fatal = false
  | _, _ => True

instance (cfg : Config) : ∀ (t : Thread) (e : Event), Decidable (t.Prompt cfg e)
  | .looping s, .record r _ _ _ => inferInstanceAs (Decidable (s.fatal = true → s.Refuses cfg r))
  | .looping s, .flush _ => inferInstanceAs (Decidable (s.fatal = false))
  | .looping s, .sealSegment _ _ => inferInstanceAs (Decidable (s.fatal = false))
  | .looping _, .timeout _ _ => .isTrue trivial
  | .looping _, .disconnected => .isTrue trivial
  | .looping _, .finish _ => .isTrue trivial
  | .looping _, .drain _ => .isTrue trivial
  | .looping _, .persist _ => .isTrue trivial
  | .closing _, e => .isTrue (by cases e <;> trivial)
  | .stopped _, e => .isTrue (by cases e <;> trivial)

/-- The files hold records of `acc` from its first on, and all of them as long as the loop
goes on without an error. -/
def Thread.Tracks (crc32 : Bytes → BitVec 32) (cfg : Config) (old : List SegmentFile)
    (t : Thread) (acc : List ContentRecord) : Prop :=
  ∃ L : Layout cfg.maxRecordBytes, L.Describes crc32 old t.session ∧ L.records <+: acc ∧
    ∀ s, t = .looping s → L.part = [] ∧ (s.fatal = false → L.records = acc)

namespace Thread

theorem Tracks.of_failed {t : Thread} {acc : List ContentRecord} {L : Layout cfg.maxRecordBytes}
    (hd : L.Describes crc32 old t.session) (hle : L.records <+: acc)
    (hloop : ∀ s, t = .looping s → L.part = [] ∧ s.fatal = true) :
    t.Tracks crc32 cfg old acc := by
  refine ⟨L, hd, hle, fun s hs ↦ ⟨(hloop s hs).1, fun hf ↦ ?_⟩⟩
  rw [(hloop s hs).2] at hf
  cases hf

theorem Tracks.breakIfFatal {s : Session} {acc : List ContentRecord}
    {L : Layout cfg.maxRecordBytes} (hd : L.Describes crc32 old s) (hle : L.records <+: acc)
    (hloop : s.fatal = false → L.part = [] ∧ L.records = acc) :
    s.breakIfFatal.Tracks crc32 cfg old acc := by
  refine ⟨L, by simpa using hd, hle, fun s' hs ↦ ?_⟩
  obtain ⟨rfl, hf⟩ := Session.fatal_of_breakIfFatal hs
  exact ⟨(hloop hf).1, fun _ ↦ (hloop hf).2⟩

/-- A record that comes as far as the write is not refused. -/
theorem fatal_of_rotateIfNeeded {s : Session} {r : ContentRecord} {prepared : PreparedRecord}
    (hprompt : s.fatal = true → s.Refuses cfg r)
    (hprep : s.writer.prepareRecord cfg r = .ok prepared) (rotate : CommitIo)
    (hok : (s.rotateIfNeeded cfg prepared.encodedLen rotate).2 = .ok ()) : s.fatal = false := by
  by_contra hf
  have href := hprompt (by simpa using hf)
  rw [Session.Refuses, hprep] at href
  obtain ⟨hneeds, hbudget⟩ := href
  unfold Session.rotateIfNeeded at hok
  rw [if_pos hneeds] at hok
  cases hc : s.writer.checkRotationBudget cfg prepared.encodedLen with
  | error e => simp [hc] at hok
  | ok u => simp [hc, Except.isOk, Except.toBool] at hbudget

theorem record_tracks {s : Session} {acc : List ContentRecord}
    (h : (Thread.looping s).Tracks crc32 cfg old acc) {r : ContentRecord}
    (hprompt : s.fatal = true → s.Refuses cfg r) (rotate : CommitIo) (accepted : Option ℕ)
    (publish : FlushIo) :
    (s.handleRecord crc32 cfg r rotate accepted publish).1.Tracks crc32 cfg old (acc ++ [r]) := by
  obtain ⟨L, hd, hle, hloop⟩ := h
  change L.Describes crc32 old s at hd
  obtain ⟨hpart, hall⟩ := hloop s rfl
  have hlater : L.records <+: acc ++ [r] := hle.trans (List.prefix_append _ _)
  unfold Session.handleRecord
  cases hprep : s.writer.prepareRecord cfg r with
  | error e =>
      exact .of_failed (L := L) (hd.congr rfl rfl) hlater fun s' hs' ↦
        ⟨hpart, (Thread.looping.inj hs') ▸ rfl⟩
  | ok prepared =>
      simp only
      obtain ⟨L₁, hd₁, hpart₁, hrec₁⟩ :=
        Session.rotateIfNeeded_layout hd hpart prepared.encodedLen rotate
      have hopen := fun hok ↦ fatal_of_rotateIfNeeded hprompt hprep rotate hok
      generalize s.rotateIfNeeded cfg prepared.encodedLen rotate = rot at hd₁ hopen ⊢
      obtain ⟨s₁, e | ⟨⟨⟩⟩⟩ := rot
      · exact .of_failed (L := L₁) (hd₁.congr rfl rfl) (hrec₁ ▸ hlater) fun s' hs' ↦
          ⟨hpart₁, (Thread.looping.inj hs') ▸ rfl⟩
      · have hrec : L₁.records = acc := hrec₁.trans (hall (hopen rfl))
        have hwrite := Session.writePrepared_layout hd₁ hpart₁ hprep accepted
        simp only at hwrite ⊢
        generalize s₁.writer.writePrepared crc32 cfg r prepared accepted = wr at hwrite ⊢
        obtain ⟨w, e | offset⟩ := wr
        · obtain ⟨L₂, hd₂, hrec₂⟩ := hwrite
          refine .breakIfFatal (s := { s₁ with writer := w }.fail) (L := L₂) (hd₂.congr rfl rfl) ?_
            fun hf ↦ by cases hf
          rw [hrec₂, hrec]
          exact List.prefix_append _ _
        · obtain ⟨L₂, hd₂, hpart₂, hrec₂⟩ := hwrite
          rw [hrec] at hrec₂
          obtain ⟨hsealed, hstream, -⟩ := Session.publishBatch_frame { s₁ with
            writer := w, pending := s₁.pending ++ [indexRow r w.file.name offset] } publish
          exact .breakIfFatal (L := L₂) (hd₂.congr hsealed hstream) (hrec₂ ▸ List.prefix_refl _)
            fun _ ↦ ⟨hpart₂, hrec₂⟩

/-- A loop round that only flushes. -/
theorem flush_tracks {s : Session} {acc : List ContentRecord}
    (h : (Thread.looping s).Tracks crc32 cfg old acc) (io : FlushIo) :
    (Session.failOn (s.flushAndPublish io)).breakIfFatal.Tracks crc32 cfg old acc := by
  obtain ⟨L, hd, hle, hloop⟩ := h
  obtain ⟨hpart, hall⟩ := hloop s rfl
  obtain ⟨hsealed, hstream, hfatal, -⟩ := s.flushAndPublish_frame io
  obtain ⟨hsealed', hwriter, hmono⟩ := Session.failOn_frame (s.flushAndPublish io)
  refine .breakIfFatal (L := L) (hd.congr (hsealed'.trans hsealed) (by rw [hwriter]; exact hstream))
    hle fun hf ↦ ⟨hpart, hall ?_⟩
  by_contra hs
  rw [hmono (hfatal ▸ by simpa using hs)] at hf
  cases hf

theorem seal_tracks {s : Session} {acc : List ContentRecord}
    (h : (Thread.looping s).Tracks crc32 cfg old acc) (io : CommitIo) (listed : Bool) :
    (s.handleSeal cfg io listed).1.Tracks crc32 cfg old acc := by
  obtain ⟨L, hd, hle, hloop⟩ := h
  change L.Describes crc32 old s at hd
  obtain ⟨hpart, hall⟩ := hloop s rfl
  obtain ⟨L₁, hd₁, hpart₁, hrec₁⟩ := Session.commitAndRotate_layout hd hpart io
  have hfatal₁ := Session.commitAndRotate_fatal cfg s io
  unfold Session.handleSeal
  generalize s.commitAndRotate cfg io = r at hd₁ hfatal₁ ⊢
  obtain ⟨s₁, e | ⟨⟨⟩⟩⟩ := r
  · exact .breakIfFatal (s := s₁.fail) (L := L₁) (hd₁.congr rfl rfl) (hrec₁ ▸ hle)
      fun hf ↦ by cases hf
  · simp only at hd₁ hfatal₁ ⊢
    split_ifs
    · exact .breakIfFatal (L := L₁) hd₁ (hrec₁ ▸ hle) fun hf ↦
        ⟨hpart₁, hrec₁.trans (hall (hfatal₁ ▸ hf))⟩
    · exact .breakIfFatal (s := s₁.fail) (L := L₁) (hd₁.congr rfl rfl) (hrec₁ ▸ hle)
        fun hf ↦ by cases hf

/-- Outside the loop the files stay as they are. -/
theorem Tracks.halted {t t' : Thread} {acc acc' : List ContentRecord}
    (h : t.Tracks crc32 cfg old acc) (hacc : acc <+: acc')
    (hsealed : t'.session.sealedFiles = t.session.sealedFiles)
    (hstream : t'.session.writer.stream = t.session.writer.stream)
    (hhalt : ∀ s, t' ≠ .looping s) : t'.Tracks crc32 cfg old acc' := by
  obtain ⟨L, hd, hle, -⟩ := h
  exact ⟨L, hd.congr hsealed hstream, hle.trans hacc, fun s hs ↦ absurd hs (hhalt s)⟩

theorem drift_frame (s : Session) (e : Event) :
    (s.drift e).sealedFiles = s.sealedFiles ∧
      (s.drift e).writer.stream = s.writer.stream ∧ (s.drift e).fatal = s.fatal := by
  cases e with
  | drain n => exact ⟨rfl, s.writer.stream_drain n, rfl⟩
  | _ => exact ⟨rfl, rfl, rfl⟩

theorem Tracks.drift {s : Session} {acc : List ContentRecord}
    (h : (Thread.looping s).Tracks crc32 cfg old acc) (e : Event) :
    (Thread.looping (s.drift e)).Tracks crc32 cfg old acc := by
  obtain ⟨L, hd, hle, hloop⟩ := h
  obtain ⟨h₁, h₂, h₃⟩ := drift_frame s e
  refine ⟨L, hd.congr h₁ h₂, hle, fun s' hs' ↦ ?_⟩
  obtain rfl := Thread.looping.inj hs'
  exact ⟨(hloop s rfl).1, fun hf ↦ (hloop s rfl).2 (h₃ ▸ hf)⟩

/-- The step lemma. -/
theorem Tracks.step {t : Thread} {acc : List ContentRecord} (h : t.Tracks crc32 cfg old acc)
    (e : Event) (hprompt : t.Prompt cfg e) :
    (t.step crc32 cfg e).1.Tracks crc32 cfg old (acc ++ appended [e]) := by
  have hlater : acc <+: acc ++ appended [e] := List.prefix_append _ _
  cases t with
  | closing s =>
      obtain ⟨h₁, h₂, -⟩ := drift_frame s e
      cases e with
      | finish io =>
          obtain ⟨hsealed, hstream, -, -⟩ := s.flushAndPublish_frame io
          exact h.halted hlater hsealed hstream (by rintro s' ⟨⟩)
      | _ => exact h.halted hlater h₁ h₂ (by rintro s' ⟨⟩)
  | stopped s =>
      obtain ⟨h₁, h₂, -⟩ := drift_frame s e
      cases e <;> exact h.halted hlater h₁ h₂ (by rintro s' ⟨⟩)
  | looping s =>
      cases e with
      | record r rotate accepted publish => exact record_tracks h hprompt rotate accepted publish
      | flush io => simpa [Thread.step, appended] using flush_tracks h io
      | sealSegment io listed => simpa [Thread.step, appended] using seal_tracks h io listed
      | timeout io shutdown =>
          simp only [appended, List.filterMap_cons, List.filterMap_nil, List.append_nil]
          have hflush : (if s.pending.isEmpty then s
              else Session.failOn (s.flushAndPublish io)).breakIfFatal.Tracks crc32 cfg old acc := by
            split_ifs
            · obtain ⟨L, hd, hle, hloop⟩ := h
              obtain ⟨hpart, hall⟩ := hloop s rfl
              exact .breakIfFatal (L := L) hd hle fun hf ↦ ⟨hpart, hall hf⟩
            · exact flush_tracks h io
          simp only [Thread.step, Session.handleTimeout]
          generalize (if s.pending.isEmpty then s
            else Session.failOn (s.flushAndPublish io)) = s₁ at hflush ⊢
          split_ifs with hstop
          · exact hflush.halted (List.prefix_refl _) (by rw [Session.session_breakIfFatal]; rfl)
              (by rw [Session.session_breakIfFatal]; rfl) (by rintro s' ⟨⟩)
          · exact hflush
      | disconnected => exact h.halted hlater rfl rfl (by rintro s' ⟨⟩)
      | finish io => simpa [appended, Thread.step] using h.drift (.finish io)
      | drain n => simpa [appended, Thread.step] using h.drift (.drain n)
      | persist n => simpa [appended, Thread.step] using h.drift (.persist n)

theorem along_append {P : Thread → Event → Prop} {t : Thread} {as bs : List Event} :
    t.Along crc32 cfg P (as ++ bs) ↔
      t.Along crc32 cfg P as ∧ (t.after crc32 cfg as).Along crc32 cfg P bs := by
  induction as generalizing t with
  | nil => simp [Along, Thread.after]
  | cons e as ih => simp [Along, Thread.after, ih, and_assoc]

/-- The run lemma. -/
theorem Tracks.after {t : Thread} {acc : List ContentRecord} (h : t.Tracks crc32 cfg old acc)
    {es : List Event} (hprompt : t.Along crc32 cfg (Prompt cfg) es) :
    (t.after crc32 cfg es).Tracks crc32 cfg old (acc ++ appended es) := by
  induction es generalizing t acc with
  | nil => simpa [appended, Thread.after] using h
  | cons e es ih =>
      have hnext := ih (h.step e hprompt.1) hprompt.2
      rwa [List.append_assoc, appended, appended, ← List.filterMap_append] at hnext

/-! ## Silence after a rejection -/

end Thread

/-- A record was turned away. -/
def Outcome.Rejects : Outcome → Prop
  | .rejected _ => True
  | _ => False

/-- A record was written, or a command answered without an error. -/
def Outcome.Succeeds : Outcome → Prop
  | .wrote _ => True
  | .flushed (.ok _) => True
  | .sealedUp (.ok _) => True
  | _ => False

namespace Thread

/-- A record that is turned away sets the flag, and the flag stays set. -/
theorem fatal_handleRecord {s : Session} (r : ContentRecord) (rotate : CommitIo)
    (accepted : Option ℕ) (publish : FlushIo)
    (h : s.fatal = true ∨ (s.handleRecord crc32 cfg r rotate accepted publish).2.Rejects) :
    (s.handleRecord crc32 cfg r rotate accepted publish).1.session.fatal = true := by
  unfold Session.handleRecord at h ⊢
  cases hprep : s.writer.prepareRecord cfg r with
  | error e => rfl
  | ok prepared =>
      have hkeep := Session.rotateIfNeeded_fatal cfg s prepared.encodedLen rotate
      simp only [hprep] at h ⊢
      generalize s.rotateIfNeeded cfg prepared.encodedLen rotate = rot at hkeep h ⊢
      obtain ⟨s₁, e | ⟨⟨⟩⟩⟩ := rot
      · rfl
      · simp only at hkeep h ⊢
        generalize s₁.writer.writePrepared crc32 cfg r prepared accepted = wr at h ⊢
        obtain ⟨w, e | offset⟩ := wr
        · simp only [Session.session_breakIfFatal]
          rfl
        · simp only [Session.session_breakIfFatal] at h ⊢
          refine (Session.publishBatch_frame _ publish).2.2 ?_
          rcases h with h | h
          · exact hkeep.trans h
          · exact h.elim

theorem fatal_handleSeal {s : Session} (io : CommitIo) (listed : Bool) (h : s.fatal = true) :
    (s.handleSeal cfg io listed).1.session.fatal = true := by
  have hkeep := Session.commitAndRotate_fatal cfg s io
  unfold Session.handleSeal
  generalize s.commitAndRotate cfg io = r at hkeep ⊢
  obtain ⟨s₁, e | ⟨⟨⟩⟩⟩ := r
  · simp only [Session.session_breakIfFatal]
    rfl
  · simp only
    split_ifs
    · rw [Session.session_breakIfFatal]
      exact hkeep.trans h
    · rw [Session.session_breakIfFatal]
      rfl

theorem fatal_failOn {s : Session} (io : FlushIo) (h : s.fatal = true) :
    (Session.failOn (s.flushAndPublish io)).fatal = true :=
  (Session.failOn_frame _).2.2 ((s.flushAndPublish_frame io).2.2.1.trans h)

/-- The flag stays set, and a rejection sets it. -/
theorem fatal_step {t : Thread} (e : Event)
    (h : t.session.fatal = true ∨ (t.step crc32 cfg e).2.Rejects) :
    (t.step crc32 cfg e).1.session.fatal = true := by
  have hdrift : ∀ s : Session, s.fatal = true → (s.drift e).fatal = true :=
    fun s hs ↦ (drift_frame s e).2.2.trans hs
  cases t with
  | looping s =>
      cases e with
      | record r rotate accepted publish => exact fatal_handleRecord r rotate accepted publish h
      | flush io =>
          have hs : s.fatal = true := h.resolve_right id
          simp only [Thread.step, Session.session_breakIfFatal]
          exact fatal_failOn io hs
      | sealSegment io listed =>
          refine fatal_handleSeal io listed (h.resolve_right fun hrej ↦ ?_)
          simp only [Thread.step, Session.handleSeal] at hrej
          split at hrej
          · exact hrej
          · split_ifs at hrej
            · exact hrej
            · exact hrej
      | timeout io shutdown =>
          have hs : s.fatal = true := h.resolve_right id
          have hflush : (if s.pending.isEmpty then s
              else Session.failOn (s.flushAndPublish io)).fatal = true := by
            split_ifs
            · exact hs
            · exact fatal_failOn io hs
          simp only [Thread.step, Session.handleTimeout]
          split_ifs at hflush ⊢
          · exact hflush
          · exact hflush
          · rwa [Session.session_breakIfFatal]
          · rwa [Session.session_breakIfFatal]
      | disconnected => exact h.resolve_right id
      | finish io => exact hdrift s (h.resolve_right id)
      | drain n => exact hdrift s (h.resolve_right id)
      | persist n => exact hdrift s (h.resolve_right id)
  | closing s =>
      cases e with
      | finish io => exact (s.flushAndPublish_frame io).2.2.1.trans (h.resolve_right id)
      | _ => exact hdrift s (h.resolve_right id)
  | stopped s => cases e <;> exact hdrift s (h.resolve_right id)

/-- With the flag set nothing succeeds. -/
theorem not_succeeds_step {t : Thread} {e : Event} (hprompt : t.Prompt cfg e)
    (hfatal : t.session.fatal = true) : ¬ (t.step crc32 cfg e).2.Succeeds := by
  cases t with
  | looping s =>
      change s.fatal = true at hfatal
      cases e with
      | record r rotate accepted publish =>
          intro hsucc
          simp only [Thread.step, Session.handleRecord] at hsucc
          cases hprep : s.writer.prepareRecord cfg r with
          | error e => simp [hprep, Outcome.Succeeds] at hsucc
          | ok prepared =>
              have hopen := fun hok ↦ fatal_of_rotateIfNeeded hprompt hprep rotate hok
              simp only [hprep] at hsucc
              generalize s.rotateIfNeeded cfg prepared.encodedLen rotate = rot at hopen hsucc
              obtain ⟨s₁, e | ⟨⟨⟩⟩⟩ := rot
              · exact hsucc
              · rw [hopen rfl] at hfatal
                cases hfatal
      | flush io => exact absurd (hfatal.symm.trans hprompt) (by simp)
      | sealSegment io listed => exact absurd (hfatal.symm.trans hprompt) (by simp)
      | _ => exact id
  | closing s => cases e <;> exact id
  | stopped s => cases e <;> exact id

theorem pairwise_outcomes {t : Thread} {es : List Event}
    (hprompt : t.Along crc32 cfg (Prompt cfg) es) :
    (t.outcomes crc32 cfg es).Pairwise fun o o' ↦ o.Rejects → ¬ o'.Succeeds := by
  have hsilent : ∀ (es : List Event) (t : Thread), t.Along crc32 cfg (Prompt cfg) es →
      t.session.fatal = true → ∀ o ∈ t.outcomes crc32 cfg es, ¬ o.Succeeds := by
    intro es
    induction es with
    | nil => simp [outcomes]
    | cons e es ih =>
        intro t hp hf o ho
        rcases List.mem_cons.mp ho with rfl | ho
        · exact not_succeeds_step hp.1 hf
        · exact ih _ hp.2 (fatal_step e (.inl hf)) o ho
  induction es generalizing t with
  | nil => exact List.Pairwise.nil
  | cons e es ih =>
      refine List.pairwise_cons.mpr ⟨fun o ho hrej ↦ ?_, ih hprompt.2⟩
      exact hsilent es _ hprompt.2 (fatal_step e (.inr hrej)) o ho

end Thread

end

/-! ## The property -/

/-- In every state of the run the records in its files are a prefix of those appended so
far, and after a rejection no record is written and no command succeeds. -/
structure PrefixProperty (crc32 : Bytes → BitVec 32) (cfg : Config) (old : List SegmentFile)
    (t : Thread) (es : List Event) : Prop where
  persisted : ∀ as bs, es = as ++ bs → readBack crc32 cfg.maxRecordBytes
    ((t.after crc32 cfg as).session.disk.drop old.length) <+: (appended as).map stored
  silent : (t.outcomes crc32 cfg es).Pairwise fun o o' ↦ o.Rejects → ¬ o'.Succeeds

/-- The thread when `ActiveWriter::new` has created the first file. -/
def Thread.spawned (old : List SegmentFile) (name createdNs retainedBytes : ℕ) : Thread :=
  .looping { sealedFiles := old, writer := .new name createdNs retainedBytes }

theorem prefixProperty_of_prompt (crc32 : Bytes → BitVec 32) (cfg : Config)
    (old : List SegmentFile) (name createdNs retainedBytes : ℕ) (es : List Event)
    (hprompt : (Thread.spawned old name createdNs retainedBytes).Along crc32 cfg
      (Thread.Prompt cfg) es) :
    PrefixProperty crc32 cfg old (Thread.spawned old name createdNs retainedBytes) es := by
  have hstart : (Thread.spawned old name createdNs retainedBytes).Tracks crc32 cfg old [] := by
    refine ⟨⟨[], createdNs, [], []⟩, ⟨by simp [Thread.spawned, Thread.session], ?_, .inl rfl⟩,
      List.nil_prefix, fun s hs ↦ ⟨rfl, fun _ ↦ rfl⟩⟩
    simp [Thread.spawned, Thread.session, ActiveWriter.stream, ActiveWriter.new, body]
  refine ⟨fun as bs hes ↦ ?_, Thread.pairwise_outcomes hprompt⟩
  have has : (Thread.spawned old name createdNs retainedBytes).Along crc32 cfg
      (Thread.Prompt cfg) as := by
    subst hes
    exact (Thread.along_append.mp hprompt).1
  obtain ⟨L, hd, hle, -⟩ := hstart.after has
  rw [List.nil_append] at hle
  exact (readBack_initial hd).trans (hle.map stored)

/-! ## Runs -/

def smallConfig : Config := ⟨4096, 64, 1048576⟩

def sampleRecord (id : Uuid) (data : Bytes) : ContentRecord :=
  ⟨id, 7, 1000, none, .aToB, .tcpRaw, 0, data⟩

/-- A record is written, a second one is larger than the limit, and the loop ends at the
next timeout. -/
def stoppedRun : List Event :=
  [.record (sampleRecord 1 [1]) ⟨{}, true, none, 0⟩ none {},
    .record (sampleRecord 2 (List.replicate 20 2)) ⟨{}, true, none, 0⟩ none {},
    .timeout {} false, .finish {}]

theorem prefixProperty_stoppedRun :
    (Thread.spawned [] 1 5 0).Along (fun _ ↦ 0) smallConfig (Thread.Prompt smallConfig)
        stoppedRun ∧
      readBack (fun _ ↦ 0) 64 ((Thread.spawned [] 1 5 0).after (fun _ ↦ 0) smallConfig
        stoppedRun).session.disk = [sampleRecord 1 [1]] ∧
      PrefixProperty (fun _ ↦ 0) smallConfig [] (Thread.spawned [] 1 5 0) stoppedRun :=
  have hprompt : (Thread.spawned [] 1 5 0).Along (fun _ ↦ 0) smallConfig
      (Thread.Prompt smallConfig) stoppedRun := by decide +kernel
  ⟨hprompt, by decide +kernel,
    prefixProperty_of_prompt (fun _ ↦ 0) smallConfig [] 1 5 0 stoppedRun hprompt⟩

/-- The first record is larger than the limit, the second is written all the same. -/
def skippingRun : List Event :=
  [.record (sampleRecord 1 (List.replicate 20 1)) ⟨{}, true, none, 0⟩ none {},
    .record (sampleRecord 2 [2]) ⟨{}, true, none, 0⟩ none {}, .finish {}]

theorem not_prefixProperty_skippingRun :
    ¬ PrefixProperty (fun _ ↦ 0) smallConfig [] (Thread.spawned [] 1 5 0) skippingRun := by
  intro h
  have hpre := h.persisted skippingRun [] (by simp)
  revert hpre
  decide +kernel

end Bazalt.Storage
