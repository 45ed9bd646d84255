import Bazalt.Storage.PrefixProperty

/-!
# Published index rows

An index row names a file and an offset.  It waits in memory until the bytes it points at
are in the file; the rows the metadata pipeline has accepted are a prefix of all rows, in
the order in which their records were written, and each of them can be followed to its
record from then on.
-/

namespace Bazalt.Storage

open Lib

/-- `read_record_at`: the file of that name, from the offset on. -/
def readRecordAt (crc32 : Bytes → BitVec 32) (maxRecordBytes : ℕ) (disk : List SegmentFile)
    (path offset : ℕ) : Except SegmentError ContentRecord :=
  match disk.find? fun f ↦ decide (f.name = path) with
  | none => .error .io
  | some f =>
      match readRecord crc32 maxRecordBytes (f.bytes.drop offset) with
      | .error e => .error e
      | .ok none => .error .recordMissing
      | .ok (some (record, _)) => .ok record

/-- The rows the metadata pipeline has accepted. -/
def Session.sent (s : Session) : List ContentIndexRecord := s.rows ++ s.queue

/-- The row of the record that an event wrote. -/
def rowWritten : Event → Thread × Outcome → List ContentIndexRecord
  | .record r _ _ _, (t, .wrote offset) => [indexRow r t.session.writer.file.name offset]
  | _, _ => []

/-- The rows of all records written in a run. -/
def Thread.written (crc32 : Bytes → BitVec 32) (cfg : Config) (t : Thread) :
    List Event → List ContentIndexRecord
  | [] => []
  | e :: es => rowWritten e (t.step crc32 cfg e) ++ (t.step crc32 cfg e).1.written crc32 cfg es

/-- A new file has a name of its own, as `create_new` demands. -/
def Thread.Fresh : Thread → Event → Prop
  | .looping s, .record _ io _ _ => ∀ name ∈ io.name, name ∉ s.disk.map SegmentFile.name
  | .looping s, .sealSegment io _ => ∀ name ∈ io.name, name ∉ s.disk.map SegmentFile.name
  | _, _ => True

instance : ∀ (t : Thread) (e : Event), Decidable (t.Fresh e)
  | .looping s, .record _ io _ _ =>
      inferInstanceAs (Decidable (∀ name ∈ io.name, name ∉ s.disk.map SegmentFile.name))
  | .looping s, .sealSegment io _ =>
      inferInstanceAs (Decidable (∀ name ∈ io.name, name ∉ s.disk.map SegmentFile.name))
  | .looping _, .flush _ => .isTrue trivial
  | .looping _, .timeout _ _ => .isTrue trivial
  | .looping _, .disconnected => .isTrue trivial
  | .looping _, .finish _ => .isTrue trivial
  | .looping _, .drain _ => .isTrue trivial
  | .looping _, .persist _ => .isTrue trivial
  | .closing _, e => .isTrue (by cases e <;> trivial)
  | .stopped _, e => .isTrue (by cases e <;> trivial)

/-- Numbers have 64 bits and a service has a name, as `validate_service` demands. -/
def ContentRecord.Storable (r : ContentRecord) : Prop :=
  r.tsNs < 2 ^ 64 ∧ r.streamOffset < 2 ^ 64 ∧ r.service ≠ some ""

instance (r : ContentRecord) : Decidable (ContentRecord.Storable r) :=
  inferInstanceAs (Decidable (r.tsNs < 2 ^ 64 ∧ r.streamOffset < 2 ^ 64 ∧ r.service ≠ some ""))

theorem stored_of_storable {r : ContentRecord} (h : ContentRecord.Storable r) : stored r = r := by
  obtain ⟨hts, hoffset, hservice⟩ := h
  have hfilter : r.service.filter (· ≠ "") = r.service := by
    cases hr : r.service with
    | none => rfl
    | some name =>
        have hname : name ≠ "" := fun h ↦ hservice (h ▸ hr)
        simp [Option.filter_some, hname]
  rw [stored, hfilter, Nat.mod_eq_of_lt hts, Nat.mod_eq_of_lt hoffset]

section

variable {crc32 : Bytes → BitVec 32} {m : ℕ}

/-! ## Reading a record at its offset -/

theorem readRecord_placed (fs : List (Frame m)) (before rest : Bytes) {offset : ℕ}
    {record : ContentRecord} (h : (offset, record) ∈ placed crc32 before.length fs) :
    ∃ n, readRecord crc32 m ((before ++ body crc32 fs ++ rest).drop offset) =
      .ok (some (record, n)) := by
  induction fs generalizing before with
  | nil => simp [placed] at h
  | cons f fs ih =>
      have hsplit : before ++ body crc32 (f :: fs) ++ rest =
          before ++ f.bytes crc32 ++ body crc32 fs ++ rest := by
        simp [body]
      rw [placed, List.mem_cons] at h
      rw [hsplit]
      rcases h with heq | hmem
      · obtain ⟨rfl, rfl⟩ := Prod.mk.inj heq
        rw [List.append_assoc, List.append_assoc, List.drop_left]
        exact ⟨_, readRecord_envelope crc32 f.encoded f.le_max f.le_u32Max _⟩
      · rw [← List.length_append] at hmem
        exact ih _ hmem

theorem find?_of_nodup_names {disk : List SegmentFile}
    (h : (disk.map SegmentFile.name).Nodup) {f : SegmentFile} (hf : f ∈ disk) :
    (disk.find? fun g ↦ decide (g.name = f.name)) = some f := by
  induction disk with
  | nil => simp at hf
  | cons g disk ih =>
      rw [List.map_cons, List.nodup_cons] at h
      rcases List.mem_cons.mp hf with rfl | hf
      · simp
      · have hne : g.name ≠ f.name := fun heq ↦ h.1 (heq ▸ List.mem_map_of_mem hf)
        simpa [hne] using ih h.2 hf

/-- A file that begins with a header and frames gives each of the frames at its offset. -/
theorem readRecordAt_placed {disk : List SegmentFile} (h : (disk.map SegmentFile.name).Nodup)
    {f : SegmentFile} (hf : f ∈ disk) {createdNs : ℕ} {fs : List (Frame m)}
    (hbytes : segmentHeader createdNs ++ body crc32 fs <+: f.bytes) {offset : ℕ}
    {record : ContentRecord} (hp : (offset, record) ∈ placed crc32 headerSize fs) :
    readRecordAt crc32 m disk f.name offset = .ok record := by
  obtain ⟨rest, hrest⟩ := hbytes
  rw [← length_segmentHeader createdNs] at hp
  obtain ⟨n, hn⟩ := readRecord_placed fs (segmentHeader createdNs) rest hp
  rw [readRecordAt, find?_of_nodup_names h hf]
  simp only [← hrest, hn]

/-! ## The rows of a layout -/

variable (crc32)

def SealedSegment.rows (g : SealedSegment m) : List ContentIndexRecord :=
  (placed crc32 headerSize g.frames).map fun p ↦ indexRow p.2 g.name p.1

/-- The active segment, as it would be sealed. -/
def Layout.active (L : Layout m) (name : ℕ) : SealedSegment m := ⟨name, L.createdNs, L.frames⟩

/-- All rows of a layout whose active file has this name. -/
def Layout.rows (L : Layout m) (name : ℕ) : List ContentIndexRecord :=
  (L.segments ++ [L.active name]).flatMap (SealedSegment.rows crc32)

variable {crc32}

theorem le_of_mem_placed {fs : List (Frame m)} {start : ℕ} {p : ℕ × ContentRecord}
    (h : p ∈ placed crc32 start fs) : start ≤ p.1 := by
  induction fs generalizing start with
  | nil => simp [placed] at h
  | cons f fs ih =>
      rw [placed, List.mem_cons] at h
      rcases h with rfl | h
      · exact le_rfl
      · exact (Nat.le_add_right _ _).trans (ih h)

theorem pairwise_placed (fs : List (Frame m)) (start : ℕ) :
    (placed crc32 start fs).Pairwise fun p q ↦ p.1 < q.1 := by
  induction fs generalizing start with
  | nil => exact List.Pairwise.nil
  | cons f fs ih =>
      refine List.pairwise_cons.mpr ⟨fun p hp ↦ ?_, ih _⟩
      have hle := le_of_mem_placed hp
      have hlen := f.length_bytes crc32
      omega

theorem SealedSegment.nodup_rows (g : SealedSegment m) : (g.rows crc32).Nodup := by
  refine List.pairwise_map.mpr ((pairwise_placed g.frames headerSize).imp fun {p q} hlt heq ↦ ?_)
  have hoffset : p.1 = q.1 := congrArg ContentIndexRecord.segmentOffset heq
  omega

theorem SealedSegment.segmentPath_of_mem {g : SealedSegment m} {row : ContentIndexRecord}
    (h : row ∈ g.rows crc32) : row.segmentPath = g.name := by
  obtain ⟨p, -, rfl⟩ := List.mem_map.mp h
  rfl

/-- No row occurs twice when the files have different names. -/
theorem Layout.nodup_rows {L : Layout m} {name : ℕ}
    (h : ((L.segments ++ [L.active name]).map SealedSegment.name).Nodup) :
    (L.rows crc32 name).Nodup := by
  refine List.nodup_flatMap.mpr ⟨fun g _ ↦ g.nodup_rows, ?_⟩
  refine (List.pairwise_map.mp h).imp fun {g g'} hne ↦ List.disjoint_left.mpr fun row hg hg' ↦ ?_
  exact hne ((SealedSegment.segmentPath_of_mem hg).symm.trans (SealedSegment.segmentPath_of_mem hg'))

/-! ## The ledger -/

/-- The first `k` rows of the active file have been accepted and their bytes are in the
file; the others are pending. -/
structure Session.Ledger (crc32 : Bytes → BitVec 32) (old : List SegmentFile) (L : Layout m)
    (k : ℕ) (s : Session) : Prop where
  describes : L.Describes crc32 old s
  names : (s.disk.map SegmentFile.name).Nodup
  le_length : k ≤ L.frames.length
  sent : s.sent = L.segments.flatMap (SealedSegment.rows crc32) ++
    ((L.active s.writer.file.name).rows crc32).take k
  pending : s.pending = ((L.active s.writer.file.name).rows crc32).drop k
  flushed : 0 < k → segmentHeader L.createdNs ++ body crc32 (L.frames.take k) <+:
    s.writer.file.bytes

variable {old : List SegmentFile} {L : Layout m} {k : ℕ} {s : Session}

namespace Session

theorem Ledger.sent_append_pending (h : s.Ledger crc32 old L k) :
    s.sent ++ s.pending = L.rows crc32 s.writer.file.name := by
  rw [h.sent, h.pending, List.append_assoc, List.take_append_drop, Layout.rows,
    List.flatMap_append, List.flatMap_cons, List.flatMap_nil, List.append_nil]

theorem Ledger.nodup_segments (h : s.Ledger crc32 old L k) :
    ((L.segments ++ [L.active s.writer.file.name]).map SealedSegment.name).Nodup := by
  have hnames := h.names
  rw [Session.disk, h.describes.sealedFiles, List.append_assoc, List.map_append] at hnames
  have htail := (List.nodup_append.mp hnames).2.1
  simpa [List.map_append, SealedSegment.file, Layout.active, Function.comp_def] using htail

theorem take_placed (fs : List (Frame m)) (start n : ℕ) :
    (placed crc32 start fs).take n = placed crc32 start (fs.take n) := by
  induction fs generalizing start n with
  | nil => simp [placed]
  | cons f fs ih =>
      cases n with
      | zero => rfl
      | succ n => simp [placed, ih]

/-- Every accepted row leads to its record. -/
theorem Ledger.readable (h : s.Ledger crc32 old L k) {row : ContentIndexRecord}
    (hrow : row ∈ s.sent) : ∃ r ∈ L.records, readRecordAt crc32 m s.disk row.segmentPath
      row.segmentOffset = .ok (stored r) ∧
        row = indexRow (stored r) row.segmentPath row.segmentOffset := by
  have hrecord : ∀ {fs : List (Frame m)} {p : ℕ × ContentRecord}, p ∈ placed crc32 headerSize fs →
      ∃ f ∈ fs, p.2 = stored f.record := by
    intro fs p hp
    have hmem : p.2 ∈ (placed crc32 headerSize fs).map Prod.snd := List.mem_map_of_mem hp
    rw [map_snd_placed] at hmem
    obtain ⟨f, hf, heq⟩ := List.mem_map.mp hmem
    exact ⟨f, hf, heq.symm⟩
  rw [h.sent, List.mem_append] at hrow
  rcases hrow with hrow | hrow
  · obtain ⟨g, hg, hrow⟩ := List.mem_flatMap.mp hrow
    obtain ⟨p, hp, rfl⟩ := List.mem_map.mp hrow
    obtain ⟨f, hf, hstored⟩ := hrecord hp
    have hdisk : g.file crc32 ∈ s.disk := by
      rw [Session.disk, h.describes.sealedFiles]
      exact List.mem_append_left _ (List.mem_append_right _ (List.mem_map_of_mem hg))
    refine ⟨f.record, ?_, ?_, by rw [← hstored]; rfl⟩
    · exact List.mem_map_of_mem (List.mem_append_left _ (List.mem_flatMap.mpr ⟨g, hg, hf⟩))
    · rw [← hstored]
      exact readRecordAt_placed h.names hdisk (List.prefix_refl _) hp
  · rw [SealedSegment.rows, ← List.map_take, take_placed] at hrow
    obtain ⟨p, hp, rfl⟩ := List.mem_map.mp hrow
    obtain ⟨f, hf, hstored⟩ := hrecord hp
    have hk : 0 < k := by
      by_contra hzero
      obtain rfl : k = 0 := by omega
      simp at hf
    have hdisk : s.writer.file ∈ s.disk := List.mem_append_right _ (List.mem_singleton_self _)
    refine ⟨f.record, ?_, ?_, by rw [← hstored]; rfl⟩
    · exact List.mem_map_of_mem (List.mem_append_right _ (List.mem_of_mem_take hf))
    · rw [← hstored]
      exact readRecordAt_placed h.names hdisk (h.flushed hk) hp

/-! ## What the operations do to the ledger -/

/-- A step that keeps files and rows. -/
theorem Ledger.congr {s' : Session} (h : s.Ledger crc32 old L k)
    (hfiles : s'.sealedFiles = s.sealedFiles) (hname : s'.writer.file.name = s.writer.file.name)
    (hstream : s'.writer.stream = s.writer.stream)
    (hbytes : s.writer.file.bytes <+: s'.writer.file.bytes) (hsent : s'.sent = s.sent)
    (hpending : s'.pending = s.pending) : s'.Ledger crc32 old L k where
  describes := h.describes.congr hfiles hstream
  names := by
    have hnames := h.names
    rw [Session.disk, List.map_append] at hnames ⊢
    simpa [hfiles, hname] using hnames
  le_length := h.le_length
  sent := by rw [hsent, h.sent, hname]
  pending := by rw [hpending, h.pending, hname]
  flushed := fun hk ↦ (h.flushed hk).trans hbytes

theorem Ledger.drain (h : s.Ledger crc32 old L k) (n : ℕ) :
    { s with writer := s.writer.drain n }.Ledger crc32 old L k :=
  h.congr rfl rfl (s.writer.stream_drain n) (List.prefix_append _ _) rfl rfl

theorem length_rows (g : SealedSegment m) : (g.rows crc32).length = g.frames.length := by
  have hlen : ∀ (fs : List (Frame m)) (start : ℕ), (placed crc32 start fs).length = fs.length := by
    intro fs
    induction fs with
    | nil => intro start; rfl
    | cons f fs ih => intro start; simp [placed, ih]
  rw [SealedSegment.rows, List.length_map, hlen]

theorem Ledger.length_pending (h : s.Ledger crc32 old L k) :
    k + s.pending.length = L.frames.length := by
  have hle := h.le_length
  rw [h.pending, List.length_drop, length_rows]
  simp only [Layout.active]
  omega

/-- Rows are accepted once the buffer is empty. -/
theorem Ledger.publish (h : s.Ledger crc32 old L k) (hbuffer : s.writer.buffer = []) {n : ℕ}
    (hn : n ≤ s.pending.length) :
    { s with queue := s.queue ++ s.pending.take n, pending := s.pending.drop n }.Ledger
      crc32 old L (k + n) where
  describes := h.describes.congr rfl rfl
  names := h.names
  le_length := by
    have := h.length_pending
    omega
  sent := by
    have hsent := h.sent
    have hpending := h.pending
    simp only [Session.sent] at hsent ⊢
    rw [← List.append_assoc, hsent, hpending, List.append_assoc, List.take_add]
  pending := by
    have hpending := h.pending
    simp only
    rw [hpending, List.drop_drop]
  flushed := fun _ ↦ by
    have hstream := h.describes.stream
    rw [ActiveWriter.stream, hbuffer, List.append_nil] at hstream
    have hbody : body crc32 L.frames =
        body crc32 (L.frames.take (k + n)) ++ body crc32 (L.frames.drop (k + n)) := by
      rw [← body_append, List.take_append_drop]
    rw [hstream, hbody, List.append_assoc, List.append_assoc, ← List.append_assoc]
    exact List.prefix_append _ _

theorem flushAndPublish_name (s : Session) (io : FlushIo) :
    (s.flushAndPublish io).1.writer.file.name = s.writer.file.name := by
  unfold Session.flushAndPublish
  split
  · rfl
  · simp only
    split <;> rfl

/-- The spec of `flush_and_publish`. -/
theorem Ledger.flushAndPublish (h : s.Ledger crc32 old L k) (io : FlushIo) :
    ∃ k', (s.flushAndPublish io).1.Ledger crc32 old L k' ∧
      ((s.flushAndPublish io).2 = .ok () → k' = L.frames.length) := by
  unfold Session.flushAndPublish
  split
  · exact ⟨k, h.drain _, by simp⟩
  · have hdrained := h.drain s.writer.buffer.length
    have hbuffer : (s.writer.drain s.writer.buffer.length).buffer = [] := by
      simp [ActiveWriter.drain]
    have hlen := h.length_pending
    simp only
    split
    · rename_i n hn
      have hlt := (Option.filter_eq_some_iff.mp hn).2
      simp only [decide_eq_true_eq] at hlt
      exact ⟨k + n, hdrained.publish hbuffer hlt.le, by simp⟩
    · refine ⟨L.frames.length, ?_, fun _ ↦ rfl⟩
      have hall := hdrained.publish hbuffer (n := s.pending.length) le_rfl
      simpa [hlen] using hall

theorem Ledger.persist (h : s.Ledger crc32 old L k) (n : ℕ) :
    { s with rows := s.rows ++ s.queue.take n, queue := s.queue.drop n }.Ledger crc32 old L k :=
  h.congr rfl rfl rfl (List.prefix_refl _) (by simp [Session.sent]) rfl

/-- The active file is sealed and a new one is started. -/
theorem Ledger.rotate (h : s.Ledger crc32 old L k) (hk : k = L.frames.length)
    (hpart : L.part = []) (hbuffer : s.writer.buffer = []) {name : ℕ}
    (hfresh : name ∉ s.disk.map SegmentFile.name) (createdNs retainedBytes : ℕ) :
    { s with sealedFiles := s.sealedFiles ++ [s.writer.file],
             writer := .new name createdNs retainedBytes }.Ledger crc32 old
      ⟨L.segments ++ [L.active s.writer.file.name], createdNs, [], []⟩ 0 where
  describes := by
    have hstream := h.describes.stream
    rw [ActiveWriter.stream, hbuffer, List.append_nil, hpart, List.append_nil] at hstream
    refine ⟨?_, ?_, .inl rfl⟩
    · simp only [List.map_append, List.map_cons, List.map_nil, SealedSegment.file, Layout.active,
        ← hstream, ← List.append_assoc, ← h.describes.sealedFiles]
    · simp [ActiveWriter.stream, ActiveWriter.new, body]
  names := by
    have hnames := h.names
    simp only [Session.disk, ActiveWriter.new, List.map_append, List.map_cons, List.map_nil]
      at hfresh hnames ⊢
    refine List.nodup_append.mpr ⟨hnames, by simp, ?_⟩
    rintro a ha b hb rfl
    rw [List.mem_singleton] at hb
    exact hfresh (hb ▸ ha)
  le_length := le_rfl
  sent := by
    have hsent := h.sent
    have hlen : ((L.active s.writer.file.name).rows crc32).length = _ := length_rows _
    simp only [Session.sent, Layout.active] at hsent hlen ⊢
    rw [hsent, hk, List.take_of_length_le (by rw [hlen])]
    simp
  pending := by
    have hpending := h.pending
    have hlen : ((L.active s.writer.file.name).rows crc32).length = _ := length_rows _
    simp only [Layout.active] at hpending hlen ⊢
    rw [hpending, hk, List.drop_of_length_le (by rw [hlen])]
    rfl
  flushed := fun hk ↦ absurd hk (lt_irrefl 0)

/-- The spec of `commit_and_rotate`. -/
theorem Ledger.commitAndRotate (cfg : Config) (h : s.Ledger crc32 old L k) (hpart : L.part = [])
    {io : CommitIo} (hfresh : ∀ name ∈ io.name, name ∉ s.disk.map SegmentFile.name) :
    ∃ (L' : Layout m) (k' : ℕ), (s.commitAndRotate cfg io).1.Ledger crc32 old L' k' ∧
      L'.part = [] ∧ L'.records = L.records := by
  obtain ⟨k₁, h₁, hall⟩ := h.flushAndPublish io.flush
  obtain ⟨hsealed, -, -, hbuffer⟩ := s.flushAndPublish_frame io.flush
  have hname := s.flushAndPublish_name io.flush
  unfold Session.commitAndRotate
  generalize s.flushAndPublish io.flush = r at h₁ hall hsealed hbuffer hname ⊢
  obtain ⟨s₁, e | ⟨⟨⟩⟩⟩ := r
  · exact ⟨L, k₁, h₁, hpart, rfl⟩
  · simp only at h₁ hall hsealed hbuffer hname ⊢
    split_ifs
    · have hdurable : { s₁ with rows := s₁.rows ++ s₁.queue, queue := [] }.Ledger crc32 old L k₁ := by
        simpa using h₁.persist s₁.queue.length
      unfold Session.rotateAfterCommit
      split_ifs
      · exact ⟨L, k₁, hdurable, hpart, rfl⟩
      · cases hio : io.name with
        | none => exact ⟨L, k₁, hdurable, hpart, rfl⟩
        | some name =>
            have hnew : name ∉ s₁.disk.map SegmentFile.name := by
              have hnotin := hfresh name (by rw [hio]; rfl)
              simpa [Session.disk, hsealed, hname] using hnotin
            refine ⟨_, 0, hdurable.rotate (hall trivial) hpart (hbuffer trivial) hnew io.createdNs _,
              rfl, ?_⟩
            simp [Layout.records, Layout.active]
    · exact ⟨L, k₁, h₁, hpart, rfl⟩

theorem Ledger.rotateIfNeeded (cfg : Config) (h : s.Ledger crc32 old L k) (hpart : L.part = [])
    (encodedLen : ℕ) {io : CommitIo}
    (hfresh : ∀ name ∈ io.name, name ∉ s.disk.map SegmentFile.name) :
    ∃ (L' : Layout m) (k' : ℕ), (s.rotateIfNeeded cfg encodedLen io).1.Ledger crc32 old L' k' ∧
      L'.part = [] ∧ L'.records = L.records := by
  unfold Session.rotateIfNeeded
  split_ifs
  · cases s.writer.checkRotationBudget cfg encodedLen with
    | error e => exact ⟨L, k, h, hpart, rfl⟩
    | ok u => exact h.commitAndRotate cfg hpart hfresh
  · exact ⟨L, k, h, hpart, rfl⟩

/-- A record that is written whole adds a frame and a pending row. -/
theorem Ledger.write (h : s.Ledger crc32 old L k) (hpart : L.part = []) (f : Frame m)
    (hstorable : stored f.record = f.record) {w : ActiveWriter} (hname : w.file = s.writer.file)
    (hbuffer : w.buffer = s.writer.buffer ++ f.bytes crc32) :
    { s with
      writer := w
      pending := s.pending ++ [indexRow f.record w.file.name s.writer.stream.length] }.Ledger
        crc32 old { L with frames := L.frames ++ [f] } k where
  describes := by
    have hstream := h.describes.stream
    refine ⟨h.describes.sealedFiles, ?_, h.describes.part⟩
    simp only [ActiveWriter.stream] at hstream ⊢
    rw [hname, hbuffer, ← List.append_assoc, hstream, hpart, body_append]
    simp [body]
  names := by simpa [Session.disk, hname] using h.names
  le_length := by
    have := h.le_length
    simp only [List.length_append]
    omega
  sent := by
    have hle := h.le_length
    have hsent := h.sent
    have hlen : ((L.active s.writer.file.name).rows crc32).length = _ := length_rows _
    simp only [Session.sent, SealedSegment.rows, Layout.active, hname] at hsent hlen ⊢
    rw [hsent, placed_append, List.map_append, List.take_append_of_le_length (by omega)]
  pending := by
    have hle := h.le_length
    have hpending := h.pending
    have hlen : ((L.active s.writer.file.name).rows crc32).length = _ := length_rows _
    have hoffset : s.writer.stream.length = headerSize + (body crc32 L.frames).length := by
      rw [h.describes.stream, hpart]
      simp
    simp only [SealedSegment.rows, Layout.active, hname] at hpending hlen ⊢
    rw [hpending, placed_append, List.map_append, List.drop_append_of_le_length (by omega),
      hoffset, placed, placed, hstorable]
    rfl
  flushed := fun hk ↦ by
    have hle := h.le_length
    simp only [List.take_append_of_le_length hle, hname]
    exact h.flushed hk

/-- A write that fails leaves the beginning of a frame. -/
theorem Ledger.tear (h : s.Ledger crc32 old L k) (hpart : L.part = []) {part : Bytes}
    (htorn : Torn crc32 m part) {w : ActiveWriter} (hname : w.file = s.writer.file)
    (hbuffer : w.buffer = s.writer.buffer ++ part) :
    { s with writer := w }.Ledger crc32 old { L with part } k where
  describes := by
    have hstream := h.describes.stream
    refine ⟨h.describes.sealedFiles, ?_, htorn⟩
    simp only [ActiveWriter.stream] at hstream ⊢
    rw [hname, hbuffer, ← List.append_assoc, hstream, hpart, List.append_nil]
  names := by simpa [Session.disk, hname] using h.names
  le_length := h.le_length
  sent := by simpa [Session.sent, Layout.active, hname] using h.sent
  pending := by simpa [Layout.active, hname] using h.pending
  flushed := fun hk ↦ by simpa [hname] using h.flushed hk

/-! ## The order of the rows -/

/-- All rows so far, accepted or not. -/
def allRows (s : Session) : List ContentIndexRecord := s.sent ++ s.pending

theorem allRows_flushAndPublish (s : Session) (io : FlushIo) :
    (s.flushAndPublish io).1.allRows = s.allRows := by
  unfold Session.flushAndPublish
  split
  · rfl
  · simp only
    split <;> simp [allRows, sent]

theorem allRows_commitAndRotate (cfg : Config) (s : Session) (io : CommitIo) :
    (s.commitAndRotate cfg io).1.allRows = s.allRows := by
  have hflush := s.allRows_flushAndPublish io.flush
  unfold Session.commitAndRotate
  generalize s.flushAndPublish io.flush = r at hflush ⊢
  obtain ⟨s₁, e | ⟨⟨⟩⟩⟩ := r
  · exact hflush
  · have hdurable : ({ s₁ with rows := s₁.rows ++ s₁.queue, queue := [] } : Session).allRows =
        s.allRows := by
      rw [← hflush]
      simp [allRows, sent]
    simp only at hflush ⊢
    split_ifs
    · unfold Session.rotateAfterCommit
      split_ifs
      · exact hdurable
      · cases io.name with
        | none => exact hdurable
        | some name => exact hdurable
    · exact hflush

theorem allRows_rotateIfNeeded (cfg : Config) (s : Session) (encodedLen : ℕ) (io : CommitIo) :
    (s.rotateIfNeeded cfg encodedLen io).1.allRows = s.allRows := by
  unfold Session.rotateIfNeeded
  split_ifs
  · cases s.writer.checkRotationBudget cfg encodedLen with
    | error e => rfl
    | ok u => exact allRows_commitAndRotate cfg s io
  · rfl

theorem allRows_failOn {α : Type} (r : Session × Except SegmentError α) :
    (failOn r).allRows = r.1.allRows := by
  unfold failOn
  split <;> rfl

theorem publishBatch_rows (s : Session) (io : FlushIo) :
    (s.publishBatch io).allRows = s.allRows ∧
      (s.publishBatch io).writer.file.name = s.writer.file.name := by
  unfold publishBatch
  split_ifs
  · rw [allRows_failOn, (failOn_frame _).2.1]
    exact ⟨s.allRows_flushAndPublish io, s.flushAndPublish_name io⟩
  · exact ⟨rfl, rfl⟩

theorem allRows_handleRecord (cfg : Config) (s : Session) (r : ContentRecord) (rotate : CommitIo)
    (accepted : Option ℕ) (publish : FlushIo) :
    (s.handleRecord crc32 cfg r rotate accepted publish).1.session.allRows = s.allRows ++
      rowWritten (.record r rotate accepted publish)
        (s.handleRecord crc32 cfg r rotate accepted publish) := by
  unfold Session.handleRecord
  cases s.writer.prepareRecord cfg r with
  | error e => simp [rowWritten, Thread.session, allRows, sent, fail]
  | ok prepared =>
      have hrot := allRows_rotateIfNeeded cfg s prepared.encodedLen rotate
      simp only
      generalize s.rotateIfNeeded cfg prepared.encodedLen rotate = rot at hrot ⊢
      obtain ⟨s₁, e | ⟨⟨⟩⟩⟩ := rot
      · rw [← hrot]
        simp [rowWritten, Thread.session, allRows, sent, fail]
      · simp only at hrot ⊢
        generalize s₁.writer.writePrepared crc32 cfg r prepared accepted = wr
        obtain ⟨w, e | offset⟩ := wr
        · rw [← hrot]
          simp [rowWritten, allRows, sent, fail]
        · obtain ⟨hrows, hname⟩ := publishBatch_rows { s₁ with
            writer := w, pending := s₁.pending ++ [indexRow r w.file.name offset] } publish
          simp only [session_breakIfFatal, rowWritten, hrows, hname, ← hrot]
          simp [allRows, sent]

theorem allRows_handleSeal (cfg : Config) (s : Session) (io : CommitIo) (listed : Bool) :
    (s.handleSeal cfg io listed).1.session.allRows = s.allRows := by
  have hrot := allRows_commitAndRotate cfg s io
  unfold Session.handleSeal
  generalize s.commitAndRotate cfg io = r at hrot ⊢
  obtain ⟨s₁, e | ⟨⟨⟩⟩⟩ := r
  · simp only [session_breakIfFatal]
    exact hrot
  · simp only
    split_ifs
    · rw [session_breakIfFatal]
      exact hrot
    · rw [session_breakIfFatal]
      exact hrot

theorem allRows_handleTimeout (s : Session) (io : FlushIo) (shutdown : Bool) :
    (s.handleTimeout io shutdown).session.allRows = s.allRows := by
  have hflush : (if s.pending.isEmpty then s else failOn (s.flushAndPublish io)).allRows =
      s.allRows := by
    split_ifs
    · rfl
    · rw [allRows_failOn, allRows_flushAndPublish]
  unfold Session.handleTimeout
  simp only
  cases shutdown with
  | true => exact hflush
  | false =>
      simp only [Bool.false_eq_true, if_false, session_breakIfFatal]
      exact hflush

theorem allRows_drift (s : Session) (e : Event) : (s.drift e).allRows = s.allRows := by
  cases e with
  | persist n => simp [drift, allRows, sent]
  | _ => rfl

end Session

/-- A step adds the row of the record it writes and no other. -/
theorem Thread.allRows_step (cfg : Config) (t : Thread) (e : Event) :
    (t.step crc32 cfg e).1.session.allRows =
      t.session.allRows ++ rowWritten e (t.step crc32 cfg e) := by
  cases t with
  | looping s =>
      cases e with
      | record r rotate accepted publish => exact s.allRows_handleRecord cfg r rotate accepted publish
      | flush io =>
          simp only [Thread.step, rowWritten, Session.session_breakIfFatal, Session.allRows_failOn,
            Session.allRows_flushAndPublish, List.append_nil]
          rfl
      | sealSegment io listed =>
          simp only [Thread.step, rowWritten, List.append_nil]
          exact s.allRows_handleSeal cfg io listed
      | timeout io shutdown =>
          simp only [Thread.step, rowWritten, List.append_nil]
          exact s.allRows_handleTimeout io shutdown
      | disconnected => simp [Thread.step, rowWritten, Thread.session]
      | finish io => simp [Thread.step, rowWritten, Thread.session, Session.allRows_drift]
      | drain n => simp [Thread.step, rowWritten, Thread.session, Session.allRows_drift]
      | persist n => simp [Thread.step, rowWritten, Thread.session, Session.allRows_drift]
  | closing s =>
      cases e with
      | finish io =>
          simp [Thread.step, rowWritten, Thread.session, Session.allRows_flushAndPublish]
      | _ => simp [Thread.step, rowWritten, Thread.session, Session.allRows_drift]
  | stopped s =>
      cases e <;> simp [Thread.step, rowWritten, Thread.session, Session.allRows_drift]

theorem Thread.allRows_after (cfg : Config) (t : Thread) (es : List Event) :
    (t.after crc32 cfg es).session.allRows = t.session.allRows ++ t.written crc32 cfg es := by
  induction es generalizing t with
  | nil => simp [Thread.after, Thread.written]
  | cons e es ih =>
      rw [Thread.after, ih, Thread.allRows_step, Thread.written, List.append_assoc]

/-! ## The ledger along a run -/

variable {cfg : Config}

/-- The session of a thread has a ledger of appended records. -/
def Thread.Publishes (crc32 : Bytes → BitVec 32) (cfg : Config) (old : List SegmentFile)
    (t : Thread) (acc : List ContentRecord) : Prop :=
  ∃ (L : Layout cfg.maxRecordBytes) (k : ℕ), t.session.Ledger crc32 old L k ∧
    (∀ r ∈ L.records, r ∈ acc) ∧ ∀ s, t = .looping s → L.part = []

namespace Thread

theorem Publishes.breakIfFatal {s : Session} {acc : List ContentRecord}
    {L : Layout cfg.maxRecordBytes} {k : ℕ} (h : s.Ledger crc32 old L k)
    (hacc : ∀ r ∈ L.records, r ∈ acc) (hpart : s.fatal = false → L.part = []) :
    s.breakIfFatal.Publishes crc32 cfg old acc := by
  refine ⟨L, k, by simpa using h, hacc, fun s' hs ↦ ?_⟩
  obtain ⟨rfl, hf⟩ := Session.fatal_of_breakIfFatal hs
  exact hpart hf

theorem ledger_failOn {α : Type} {r : Session × Except SegmentError α}
    {L : Layout cfg.maxRecordBytes} {k : ℕ} (h : r.1.Ledger crc32 old L k) :
    (Session.failOn r).Ledger crc32 old L k := by
  unfold Session.failOn
  split
  · exact h
  · exact h.congr rfl rfl rfl (List.prefix_refl _) rfl rfl

theorem ledger_fail {s : Session} {L : Layout cfg.maxRecordBytes} {k : ℕ}
    (h : s.Ledger crc32 old L k) : s.fail.Ledger crc32 old L k :=
  h.congr rfl rfl rfl (List.prefix_refl _) rfl rfl

theorem ledger_drift {s : Session} {L : Layout cfg.maxRecordBytes} {k : ℕ}
    (h : s.Ledger crc32 old L k) (e : Event) : (s.drift e).Ledger crc32 old L k := by
  cases e with
  | drain n => exact h.drain n
  | persist n => exact h.persist n
  | _ => exact h

theorem record_publishes {s : Session} {acc : List ContentRecord}
    (h : (Thread.looping s).Publishes crc32 cfg old acc) {r : ContentRecord} (hr : stored r = r)
    {rotate : CommitIo} (hfresh : ∀ name ∈ rotate.name, name ∉ s.disk.map SegmentFile.name)
    (accepted : Option ℕ) (publish : FlushIo) :
    (s.handleRecord crc32 cfg r rotate accepted publish).1.Publishes crc32 cfg old
      (acc ++ [r]) := by
  obtain ⟨L, k, hledger, hacc, hpart⟩ := h
  change s.Ledger crc32 old L k at hledger
  have hpart := hpart s rfl
  have hlater : ∀ r' ∈ L.records, r' ∈ acc ++ [r] := fun r' hr' ↦
    List.mem_append_left _ (hacc r' hr')
  unfold Session.handleRecord
  cases hprep : s.writer.prepareRecord cfg r with
  | error e => exact ⟨L, k, ledger_fail hledger, hlater, fun _ _ ↦ hpart⟩
  | ok prepared =>
      obtain ⟨L₁, k₁, h₁, hpart₁, hrec₁⟩ :=
        hledger.rotateIfNeeded cfg hpart prepared.encodedLen hfresh
      simp only
      generalize s.rotateIfNeeded cfg prepared.encodedLen rotate = rot at h₁ ⊢
      obtain ⟨s₁, e | ⟨⟨⟩⟩⟩ := rot
      · exact ⟨L₁, k₁, ledger_fail h₁, hrec₁ ▸ hlater, fun _ _ ↦ hpart₁⟩
      · obtain ⟨f, rfl, hfields, -⟩ := Session.frame_of_prepareRecord crc32 hprep
        have hbytes : envelope crc32 (f.fields ++ f.record.data) = f.bytes crc32 := rfl
        simp only [ActiveWriter.writePrepared, ← hfields, hbytes] at h₁ ⊢
        by_cases hbudget : cfg.storeMaxBytes < satAdd s₁.writer.retainedBytes prepared.encodedLen
        · rw [if_pos hbudget]
          exact .breakIfFatal (ledger_fail h₁) (hrec₁ ▸ hlater) fun _ ↦ hpart₁
        · rw [if_neg hbudget]
          cases hcut : accepted.filter fun n ↦ decide (n < (f.bytes crc32).length) with
          | some n =>
              have hn := (Option.filter_eq_some_iff.mp hcut).2
              simp only [decide_eq_true_eq] at hn
              have htorn : Torn crc32 cfg.maxRecordBytes ((f.bytes crc32).take n) :=
                .inr ⟨f, List.take_prefix _ _, by rw [List.length_take]; omega⟩
              have hledger₂ := h₁.tear hpart₁ htorn (w := { s₁.writer with
                buffer := s₁.writer.buffer ++ (f.bytes crc32).take n }) rfl rfl
              exact .breakIfFatal (ledger_fail hledger₂) (hrec₁ ▸ hlater) fun hf ↦ by cases hf
          | none =>
              have hledger₂ := h₁.write hpart₁ f hr (w := { s₁.writer with
                buffer := s₁.writer.buffer ++ f.bytes crc32
                bytes := s₁.writer.bytes + prepared.encodedLen
                retainedBytes := satAdd s₁.writer.retainedBytes prepared.encodedLen }) rfl rfl
              have hrecords : ∀ r' ∈ (({ L₁ with frames := L₁.frames ++ [f] } :
                  Layout cfg.maxRecordBytes)).records, r' ∈ acc ++ [f.record] := by
                intro r' hr'
                have hsplit : (({ L₁ with frames := L₁.frames ++ [f] } :
                    Layout cfg.maxRecordBytes)).records = L₁.records ++ [f.record] := by
                  simp [Layout.records]
                rw [hsplit, hrec₁, List.mem_append] at hr'
                rcases hr' with hr' | hr'
                · exact hlater r' hr'
                · exact List.mem_append_right _ hr'
              simp only [Session.publishBatch]
              split_ifs
              · obtain ⟨k₃, h₃, -⟩ := hledger₂.flushAndPublish publish
                exact .breakIfFatal (ledger_failOn h₃) hrecords fun _ ↦ hpart₁
              · exact .breakIfFatal hledger₂ hrecords fun _ ↦ hpart₁

theorem seal_publishes {s : Session} {acc : List ContentRecord}
    (h : (Thread.looping s).Publishes crc32 cfg old acc) {io : CommitIo}
    (hfresh : ∀ name ∈ io.name, name ∉ s.disk.map SegmentFile.name) (listed : Bool) :
    (s.handleSeal cfg io listed).1.Publishes crc32 cfg old acc := by
  obtain ⟨L, k, hledger, hacc, hpart⟩ := h
  change s.Ledger crc32 old L k at hledger
  obtain ⟨L₁, k₁, h₁, hpart₁, hrec₁⟩ := hledger.commitAndRotate cfg (hpart s rfl) hfresh
  unfold Session.handleSeal
  generalize s.commitAndRotate cfg io = r at h₁ ⊢
  obtain ⟨s₁, e | ⟨⟨⟩⟩⟩ := r
  · exact .breakIfFatal (ledger_fail h₁) (hrec₁ ▸ hacc) fun _ ↦ hpart₁
  · simp only
    split_ifs
    · exact .breakIfFatal h₁ (hrec₁ ▸ hacc) fun _ ↦ hpart₁
    · exact .breakIfFatal (ledger_fail h₁) (hrec₁ ▸ hacc) fun _ ↦ hpart₁

/-- The step lemma. -/
theorem Publishes.step {t : Thread} {acc : List ContentRecord}
    (h : t.Publishes crc32 cfg old acc) (e : Event) (hfresh : t.Fresh e)
    (hstorable : ∀ r ∈ appended [e], stored r = r) :
    (t.step crc32 cfg e).1.Publishes crc32 cfg old (acc ++ appended [e]) := by
  have hmono : ∀ {t' : Thread}, t'.Publishes crc32 cfg old acc →
      t'.Publishes crc32 cfg old (acc ++ appended [e]) := by
    rintro t' ⟨L, k, hledger, hacc, hpart⟩
    exact ⟨L, k, hledger, fun r hr ↦ List.mem_append_left _ (hacc r hr), hpart⟩
  have hflush : ∀ {s : Session} (io : FlushIo), (Thread.looping s).Publishes crc32 cfg old acc →
      (Session.failOn (s.flushAndPublish io)).breakIfFatal.Publishes crc32 cfg old acc := by
    rintro s io ⟨L, k, hledger, hacc, hpart⟩
    obtain ⟨k₁, h₁, -⟩ := hledger.flushAndPublish io
    exact .breakIfFatal (ledger_failOn h₁) hacc fun _ ↦ hpart s rfl
  have hdrift : ∀ {s : Session}, (Thread.looping s).Publishes crc32 cfg old acc →
      (Thread.looping (s.drift e)).Publishes crc32 cfg old acc := by
    rintro s ⟨L, k, hledger, hacc, hpart⟩
    exact ⟨L, k, ledger_drift hledger e, hacc, fun _ _ ↦ hpart s rfl⟩
  cases t with
  | looping s =>
      cases e with
      | record r rotate accepted publish =>
          exact record_publishes h (hstorable r (by simp [appended])) hfresh accepted publish
      | flush io => exact hmono (hflush io h)
      | sealSegment io listed => exact hmono (seal_publishes h hfresh listed)
      | timeout io shutdown =>
          refine hmono ?_
          have hround : (if s.pending.isEmpty then s
              else Session.failOn (s.flushAndPublish io)).breakIfFatal.Publishes crc32 cfg old
                acc := by
            split_ifs
            · obtain ⟨L, k, hledger, hacc, hpart⟩ := h
              exact .breakIfFatal hledger hacc fun _ ↦ hpart s rfl
            · exact hflush io h
          simp only [Thread.step, Session.handleTimeout]
          generalize (if s.pending.isEmpty then s
            else Session.failOn (s.flushAndPublish io)) = s₁ at hround ⊢
          split_ifs
          · obtain ⟨L, k, hledger, hacc, -⟩ := hround
            rw [Session.session_breakIfFatal] at hledger
            exact ⟨L, k, hledger, hacc, by rintro s' ⟨⟩⟩
          · exact hround
      | disconnected =>
          obtain ⟨L, k, hledger, hacc, -⟩ := h
          exact hmono ⟨L, k, hledger, hacc, by rintro s' ⟨⟩⟩
      | finish io => exact hmono (hdrift h)
      | drain n => exact hmono (hdrift h)
      | persist n => exact hmono (hdrift h)
  | closing s =>
      obtain ⟨L, k, hledger, hacc, -⟩ := h
      have hnext := ledger_drift hledger e
      cases e with
      | finish io =>
          obtain ⟨k₁, h₁, -⟩ := hledger.flushAndPublish io
          exact hmono ⟨L, k₁, h₁, hacc, by rintro s' ⟨⟩⟩
      | _ => exact hmono ⟨L, k, hnext, hacc, by rintro s' ⟨⟩⟩
  | stopped s =>
      obtain ⟨L, k, hledger, hacc, -⟩ := h
      have hnext := ledger_drift hledger e
      cases e <;> exact hmono ⟨L, k, hnext, hacc, by rintro s' ⟨⟩⟩

/-- The run lemma. -/
theorem Publishes.after {t : Thread} {acc : List ContentRecord}
    (h : t.Publishes crc32 cfg old acc) {es : List Event} (hfresh : t.Along crc32 cfg Fresh es)
    (hstorable : ∀ r ∈ appended es, stored r = r) :
    (t.after crc32 cfg es).Publishes crc32 cfg old (acc ++ appended es) := by
  induction es generalizing t acc with
  | nil => simpa [appended, Thread.after] using h
  | cons e es ih =>
      have hsplit : appended (e :: es) = appended [e] ++ appended es := by
        rw [appended, appended, appended, ← List.filterMap_append]
        rfl
      rw [hsplit] at hstorable ⊢
      have hnext := ih (h.step e hfresh.1 fun r hr ↦ hstorable r (List.mem_append_left _ hr))
        hfresh.2 fun r hr ↦ hstorable r (List.mem_append_right _ hr)
      rwa [List.append_assoc] at hnext

end Thread

end

/-! ## The property -/

/-- In every state of the run each accepted row leads to the record it describes, accepted
and pending rows together are the rows of the records written, in this order, and no row
is accepted twice. -/
structure RowsReadable (crc32 : Bytes → BitVec 32) (cfg : Config) (t : Thread) (es : List Event) :
    Prop where
  readable : ∀ as bs, es = as ++ bs → ∀ row ∈ (t.after crc32 cfg as).session.sent,
    ∃ record ∈ appended as, readRecordAt crc32 cfg.maxRecordBytes
        (t.after crc32 cfg as).session.disk row.segmentPath row.segmentOffset = .ok record ∧
      row = indexRow record row.segmentPath row.segmentOffset
  inOrder : ∀ as bs, es = as ++ bs → (t.after crc32 cfg as).session.sent ++
    (t.after crc32 cfg as).session.pending = t.written crc32 cfg as
  once : ∀ as bs, es = as ++ bs → (t.after crc32 cfg as).session.sent.Nodup

theorem rowsReadable (crc32 : Bytes → BitVec 32) (cfg : Config) (old : List SegmentFile)
    (name createdNs retainedBytes : ℕ) (es : List Event)
    (hnames : ((old.map SegmentFile.name) ++ [name]).Nodup)
    (hfresh : (Thread.spawned old name createdNs retainedBytes).Along crc32 cfg Thread.Fresh es)
    (hstorable : ∀ r ∈ appended es, ContentRecord.Storable r) :
    RowsReadable crc32 cfg (Thread.spawned old name createdNs retainedBytes) es := by
  have hstart : (Thread.spawned old name createdNs retainedBytes).Publishes crc32 cfg old [] := by
    refine ⟨⟨[], createdNs, [], []⟩, 0, ⟨⟨?_, ?_, .inl rfl⟩, ?_, le_rfl, rfl, rfl, ?_⟩, ?_, ?_⟩
    · simp [Thread.spawned, Thread.session]
    · simp [Thread.spawned, Thread.session, ActiveWriter.stream, ActiveWriter.new, body]
    · simpa [Thread.spawned, Thread.session, Session.disk, ActiveWriter.new] using hnames
    · exact fun hk ↦ absurd hk (lt_irrefl 0)
    · simp [Layout.records]
    · exact fun _ _ ↦ rfl
  have hstate : ∀ as bs, es = as ++ bs → ((Thread.spawned old name createdNs retainedBytes).after
      crc32 cfg as).Publishes crc32 cfg old (appended as) := by
    rintro as bs rfl
    refine hstart.after (Thread.along_append.mp hfresh).1 fun r hr ↦ stored_of_storable ?_
    exact hstorable r (by rw [appended, List.filterMap_append]; exact List.mem_append_left _ hr)
  refine ⟨fun as bs hes row hrow ↦ ?_, fun as bs hes ↦ ?_, fun as bs hes ↦ ?_⟩
  · obtain ⟨L, k, hledger, hacc, -⟩ := hstate as bs hes
    obtain ⟨r, hr, hread, hrow⟩ := hledger.readable hrow
    have hmem : r ∈ appended es := by
      rw [hes, appended, List.filterMap_append]
      exact List.mem_append_left _ (hacc r hr)
    rw [stored_of_storable (hstorable r hmem)] at hread hrow
    exact ⟨r, hacc r hr, hread, hrow⟩
  · exact Thread.allRows_after cfg (Thread.spawned old name createdNs retainedBytes) as
  · obtain ⟨L, k, hledger, -, -⟩ := hstate as bs hes
    have hnodup : (L.rows crc32 _).Nodup := Layout.nodup_rows hledger.nodup_segments
    rw [← hledger.sent_append_pending] at hnodup
    exact (List.nodup_append.mp hnodup).1

/-- Two records, a rotation, a third record, and a sink that stops before its row. -/
def rotatingRun : List Event :=
  [.record (sampleRecord 1 [1]) ⟨{}, true, none, 0⟩ none {},
    .record (sampleRecord 2 [2, 2]) ⟨{}, true, none, 0⟩ none {},
    .sealSegment ⟨{}, true, some 2, 6⟩ true,
    .record (sampleRecord 3 [3]) ⟨{}, true, none, 0⟩ none {},
    .flush ⟨none, some 0⟩, .finish ⟨none, some 0⟩]

theorem rowsReadable_rotatingRun :
    ((Thread.spawned [] 1 5 0).after (fun _ ↦ 0) smallConfig rotatingRun).session.sent.length = 2 ∧
      ((Thread.spawned [] 1 5 0).after (fun _ ↦ 0) smallConfig
        rotatingRun).session.pending.length = 1 ∧
      RowsReadable (fun _ ↦ 0) smallConfig (Thread.spawned [] 1 5 0) rotatingRun :=
  ⟨by decide +kernel, by decide +kernel,
    rowsReadable (fun _ ↦ 0) smallConfig [] 1 5 0 rotatingRun (by decide)
      (by decide +kernel) (by decide +kernel)⟩

end Bazalt.Storage
