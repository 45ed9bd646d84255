import Bazalt.Lib.Run
import Bazalt.Storage.Directory
import Bazalt.Storage.RoundTrip

/-!
# The disk budget

The writer counts the bytes of the directory from what `open` finds there and from what it
writes itself.  The count is right as long as nothing else changes the directory: what
retention removes stays in it until the store is opened again.  The header of the first
file is counted without a look at the budget, and a write that fails halfway is not counted
although its bytes are.
-/

namespace Bazalt.Storage

open Lib

/-- The bytes of all files in the directory. -/
def Root.total (root : Root) (files : List SegmentFile) : ℕ :=
  (files.map fun f ↦ f.bytes.length).sum + root.others.sum

theorem foldl_satAdd (sizes : List ℕ) {acc : ℕ} (h : acc ≤ u64Max) :
    sizes.foldl satAdd acc = min (acc + sizes.sum) u64Max := by
  induction sizes generalizing acc with
  | nil => simpa using h
  | cons n sizes ih =>
      rw [List.foldl_cons, ih (satAdd_le acc n), List.sum_cons, satAdd]
      omega

theorem Root.directoryBytes_eq (root : Root) (files : List SegmentFile) :
    root.directoryBytes files = min (root.total files) u64Max := by
  rw [Root.directoryBytes, foldl_satAdd _ (Nat.zero_le _), List.sum_append, Root.total, zero_add]

/-! ## The count -/

/-- The count is that of the directory and the buffer, and within the budget. -/
structure Session.Counted (cfg : Config) (root : Root) (s : Session) : Prop where
  retained : s.writer.retainedBytes =
    (s.sealedFiles.map fun f ↦ f.bytes.length).sum + s.writer.stream.length + root.others.sum
  budget : s.writer.retainedBytes ≤ cfg.storeMaxBytes

namespace Session.Counted

variable {crc32 : Bytes → BitVec 32} {cfg : Config} {root : Root} {s : Session}

theorem retained_eq_total (h : s.Counted cfg root) (hbuffer : s.writer.buffer = []) :
    s.writer.retainedBytes = root.total s.disk := by
  rw [h.retained, ActiveWriter.stream, hbuffer, Root.total, Session.disk]
  simp

theorem of_settles {s' : Session} (h : s.Counted cfg root) (hs : s.Settles s') :
    s'.Counted cfg root :=
  ⟨by rw [hs.retained, hs.sealedFiles, hs.stream, h.retained], hs.retained ▸ h.budget⟩

theorem rotated (h : s.Counted cfg root) (hbuffer : s.writer.buffer = []) (name createdNs : ℕ)
    (hcfg : cfg.storeMaxBytes < u64Max)
    (hbudget : satAdd s.writer.retainedBytes headerSize ≤ cfg.storeMaxBytes) :
    (s.rotated name createdNs).Counted cfg root := by
  have hadd := satAdd_eq_of_lt (hbudget.trans_lt hcfg)
  have hretained := h.retained
  have hstream : s.writer.stream = s.writer.file.bytes := by
    rw [ActiveWriter.stream, hbuffer, List.append_nil]
  rw [hstream] at hretained
  refine ⟨?_, hbudget⟩
  change satAdd s.writer.retainedBytes headerSize = _
  rw [hadd, hretained]
  simp only [Session.rotated, ActiveWriter.new, ActiveWriter.stream, List.map_append, List.map_cons,
    List.map_nil, List.sum_append, List.sum_singleton, List.nil_append, length_segmentHeader]
  omega

theorem wrote (h : s.Counted cfg root) (f : Frame cfg.maxRecordBytes)
    (hcfg : cfg.storeMaxBytes < u64Max)
    (hbudget : satAdd s.writer.retainedBytes (f.bytes crc32).length ≤ cfg.storeMaxBytes) :
    (s.wrote crc32 f).Counted cfg root := by
  have hadd := satAdd_eq_of_lt (hbudget.trans_lt hcfg)
  refine ⟨?_, hbudget⟩
  change satAdd s.writer.retainedBytes (f.bytes crc32).length = _
  rw [hadd, h.retained]
  simp only [Session.wrote, ActiveWriter.stream, List.length_append]
  omega

/-- The moves of the writer keep the count if a write that fails has written nothing. -/
theorem kept (crc32 : Bytes → BitVec 32) (root : Root) (hcfg : cfg.storeMaxBytes < u64Max) :
    Kept crc32 cfg (fun _ _ ↦ True) (fun _ ↦ True) (· = 0) (Session.Counted cfg root)
      (Session.Counted cfg root) where
  settle := fun hs h ↦ h.of_settles hs
  rotate := fun h hbuffer _ hbudget _ ↦ h.rotated hbuffer _ _ hcfg hbudget
  write := fun f h _ hbudget ↦ h.wrote f hcfg hbudget
  tear := by
    rintro s f n h rfl -
    refine ⟨?_, h.budget⟩
    simpa [Session.tore, ActiveWriter.stream] using h.retained
  weaken := id
  settleAfter := fun hs h ↦ h.of_settles hs

theorem spawned {files : List SegmentFile} {name createdNs : ℕ} (hcfg : cfg.storeMaxBytes < u64Max)
    (hroom : root.directoryBytes files + headerSize ≤ cfg.storeMaxBytes) :
    (Thread.spawned files name createdNs (root.directoryBytes files)).session.Counted cfg root := by
  have hcount := root.directoryBytes_eq files
  have hheader : headerSize = 20 := rfl
  have hadd : satAdd (root.directoryBytes files) headerSize =
      root.directoryBytes files + headerSize := satAdd_of_le (by omega)
  have htotal : root.directoryBytes files = root.total files := by omega
  refine ⟨?_, ?_⟩
  · change satAdd (root.directoryBytes files) headerSize = _
    rw [hadd, htotal, Root.total]
    simp only [Thread.spawned, Thread.session, ActiveWriter.new, ActiveWriter.stream,
      List.nil_append, length_segmentHeader]
    omega
  · change satAdd (root.directoryBytes files) headerSize ≤ _
    omega

end Session.Counted

/-! ## Runs -/

namespace Store

/-- A store is opened with room for a header, a write fails before its first byte or not at
all, and what is deleted beside a writer is empty. -/
def Tidy (crc32 : Bytes → BitVec 32) (cfg : Config) (root : Root) : Store → StoreEvent → Prop
  | .closed files, .openStore _ _ =>
      ∀ repaired ∈ (recoverLastSegmentTail crc32 root cfg.maxRecordBytes files).toOption,
        root.directoryBytes repaired ≤ cfg.storeMaxBytes →
          root.directoryBytes repaired + headerSize ≤ cfg.storeMaxBytes
  | .running _, .writer e => ∀ n ∈ e.accepted, n = 0
  | .running t, .deleteSegments paths failing => ∀ f ∈ t.session.sealedFiles,
      f ∉ root.deleteSegments paths failing t.session.sealedFiles → f.bytes = []
  | _, _ => True

instance (crc32 : Bytes → BitVec 32) (cfg : Config) (root : Root) :
    ∀ (st : Store) (e : StoreEvent), Decidable (st.Tidy crc32 cfg root e)
  | .closed files, .openStore _ _ => inferInstanceAs (Decidable (∀ repaired ∈
      (recoverLastSegmentTail crc32 root cfg.maxRecordBytes files).toOption,
        root.directoryBytes repaired ≤ cfg.storeMaxBytes →
          root.directoryBytes repaired + headerSize ≤ cfg.storeMaxBytes))
  | .running _, .writer e => inferInstanceAs (Decidable (∀ n ∈ e.accepted, n = 0))
  | .running t, .deleteSegments paths failing =>
      inferInstanceAs (Decidable (∀ f ∈ t.session.sealedFiles,
        f ∉ root.deleteSegments paths failing t.session.sealedFiles → f.bytes = []))
  | .closed _, .writer _ => .isTrue trivial
  | .closed _, .deleteSegments _ _ => .isTrue trivial
  | .closed _, .exit => .isTrue trivial
  | .running _, .openStore _ _ => .isTrue trivial
  | .running _, .exit => .isTrue trivial

def Counted (cfg : Config) (root : Root) : Store → Prop
  | closed _ => True
  | running t => t.session.Counted cfg root

/-- Whenever the buffer is flushed, the count is that of the directory and within the budget,
and a record that fits into what is left of it is accepted. -/
def Accounted (cfg : Config) (root : Root) (st : Store) : Prop :=
  ∀ t, st = .running t → t.session.writer.buffer = [] →
    t.session.writer.retainedBytes = root.total st.files ∧
      t.session.writer.retainedBytes ≤ cfg.storeMaxBytes ∧
      ∀ r, Encodable cfg r → root.total st.files + recordSize r ≤ cfg.storeMaxBytes →
        ∃ prepared, t.session.writer.prepareRecord cfg r = .ok prepared

variable {crc32 : Bytes → BitVec 32} {cfg : Config} {root : Root}

/-- Empty files can be removed. -/
theorem sum_filter_of_empty {p : SegmentFile → Bool} (files : List SegmentFile)
    (h : ∀ f ∈ files, p f = false → f.bytes = []) :
    ((files.filter p).map fun f ↦ f.bytes.length).sum =
      (files.map fun f ↦ f.bytes.length).sum := by
  induction files with
  | nil => rfl
  | cons f files ih =>
      have hrest := ih fun g hg ↦ h g (List.mem_cons_of_mem f hg)
      cases hp : p f with
      | true => rw [List.filter_cons_of_pos hp, List.map_cons, List.map_cons, List.sum_cons,
          List.sum_cons, hrest]
      | false =>
          have hempty := h f List.mem_cons_self hp
          rw [List.filter_cons_of_neg (by simp [hp]), hrest, List.map_cons, List.sum_cons, hempty]
          simp

theorem sum_deleteSegments (root : Root) (names : List ℕ) (failing : Option ℕ)
    (files : List SegmentFile)
    (h : ∀ f ∈ files, f ∉ root.deleteSegments names failing files → f.bytes = []) :
    ((root.deleteSegments names failing files).map fun f ↦ f.bytes.length).sum =
      (files.map fun f ↦ f.bytes.length).sum := by
  induction names generalizing failing files with
  | nil => rfl
  | cons name names ih =>
      rw [Root.deleteSegments] at h ⊢
      split_ifs at h ⊢
      · rfl
      · rw [ih _ _ fun f hf ↦ h f (List.mem_of_mem_filter hf)]
        refine sum_filter_of_empty files fun f hf hp ↦ h f hf fun hmem ↦ ?_
        have hkept := (root.deleteSegments_sublist _ _ _).subset hmem
        rw [List.mem_filter, hp] at hkept
        exact Bool.false_ne_true hkept.2

theorem openStore_counted {files : List SegmentFile} {name : Option ℕ} {createdNs : ℕ}
    (hcfg : cfg.storeMaxBytes < u64Max)
    (he : (Store.closed files).Tidy crc32 cfg root (.openStore name createdNs)) :
    (openStore crc32 cfg root files name createdNs).Counted cfg root := by
  rcases openStore_cases crc32 cfg root files name createdNs with
    hsame | ⟨repaired, hrecover, hclosed | ⟨n, -, -, hbudget, hrunning⟩⟩
  · rw [hsame]
    trivial
  · rw [hclosed]
    trivial
  · rw [hrunning]
    refine Session.Counted.spawned hcfg (he repaired ?_ hbudget)
    rw [hrecover]
    rfl

/-- The step lemma. -/
theorem Counted.step {st : Store} {e : StoreEvent} (hcfg : cfg.storeMaxBytes < u64Max)
    (h : st.Counted cfg root) (he : st.Tidy crc32 cfg root e) :
    (st.step crc32 cfg root e).Counted cfg root := by
  cases st with
  | closed files =>
      cases e with
      | openStore name createdNs => exact openStore_counted hcfg he
      | _ => trivial
  | running t =>
      cases e with
      | openStore name createdNs => exact h
      | writer e =>
          have hmeets : (e.createNew (root.taken t.session.disk)).Meets (fun _ _ ↦ True)
              (fun _ ↦ True) (· = 0) (t.session.disk.map SegmentFile.name) :=
            Event.createNew_meets (fun _ _ _ ↦ trivial) (fun _ _ ↦ trivial) he
          have hstep := (Session.Counted.kept crc32 root hcfg).step ((Thread.holds_self t).mpr h) hmeets
          exact (Thread.holds_self _).mp hstep
      | deleteSegments paths failing =>
          change ((t.mapSession fun s ↦ s.deleteSegments root paths failing).session).Counted cfg root
          rw [Thread.session_mapSession]
          refine ⟨?_, h.budget⟩
          change t.session.writer.retainedBytes = _
          rw [h.retained]
          exact congrArg (· + t.session.writer.stream.length + root.others.sum)
            (sum_deleteSegments root paths failing t.session.sealedFiles he).symm
      | exit => trivial

theorem Counted.accounted {st : Store} (h : st.Counted cfg root) : st.Accounted cfg root := by
  rintro t rfl hbuffer
  have htotal := h.retained_eq_total hbuffer
  refine ⟨htotal, h.budget, fun r hr hroom ↦ ?_⟩
  have hwriter : t.session.writer.retainedBytes + recordSize r ≤ cfg.storeMaxBytes := htotal ▸ hroom
  obtain ⟨prepared, hprepared, -⟩ := ActiveWriter.prepareRecord_ok hr hwriter
  exact ⟨prepared, hprepared⟩

/-- In a run of tidy steps the count is right in every state, whatever the directory held
before. -/
theorem accounted_of_tidy (crc32 : Bytes → BitVec 32) (cfg : Config) (root : Root)
    (files : List SegmentFile) (es : List StoreEvent) (hcfg : cfg.storeMaxBytes < u64Max)
    (htidy : Along (step crc32 cfg root) (Tidy crc32 cfg root) (.closed files) es) :
    (runFrom (step crc32 cfg root) (.closed files) es).Accounted cfg root := by
  have hcounted : (runFrom (step crc32 cfg root) (.closed files) es).Counted cfg root :=
    invariant_runFrom (I := Counted cfg root) (P := Tidy crc32 cfg root)
      (fun st e h he ↦ h.step hcfg he) (show (Store.closed files).Counted cfg root from trivial)
      htidy
  exact hcounted.accounted

/-- The files are called `a.seg`, `b.seg` and so on, and the directory has a marker file. -/
def letteredRoot : Root := ⟨fun n ↦ Char.ofNat (97 + n) :: '.' :: seg, [3]⟩

/-- A record is written, its file sealed, and the store is opened by another process. -/
def reopenedRun : List StoreEvent :=
  [.openStore (some 0) 5, .writer (.record (sampleRecord 1 [1]) ⟨{}, true, none, 0⟩ none {}),
    .writer (.sealSegment ⟨{}, true, some 1, 6⟩ true), .writer (.flush {}), .exit,
    .openStore (some 2) 7, .writer (.flush {})]

theorem accounted_reopenedRun :
    Along (step (fun _ ↦ 0) smallConfig letteredRoot) (Tidy (fun _ ↦ 0) smallConfig letteredRoot)
        (.closed []) reopenedRun ∧
      (runFrom (step (fun _ ↦ 0) smallConfig letteredRoot) (.closed []) reopenedRun).Accounted
        smallConfig letteredRoot ∧
      letteredRoot.total (runFrom (step (fun _ ↦ 0) smallConfig letteredRoot) (.closed [])
        reopenedRun).files = 132 :=
  have htidy : Along (step (fun _ ↦ 0) smallConfig letteredRoot)
      (Tidy (fun _ ↦ 0) smallConfig letteredRoot) (.closed []) reopenedRun := by decide +kernel
  ⟨htidy, accounted_of_tidy (fun _ ↦ 0) smallConfig letteredRoot [] reopenedRun (by decide) htidy,
    by decide +kernel⟩

/-- The budget is enough for one record of this size and three headers. -/
def tightConfig : Config := ⟨4096, 64, 132⟩

/-- A record is written and its file sealed and deleted. -/
def cleanedRun : List StoreEvent :=
  [.openStore (some 0) 5, .writer (.record (sampleRecord 1 [1]) ⟨{}, true, none, 0⟩ none {}),
    .writer (.sealSegment ⟨{}, true, some 1, 6⟩ true), .deleteSegments [0] none,
    .writer (.flush {})]

/-- The deleted file stays in the count, and the record that would fit is refused. -/
theorem not_accounted_cleanedRun :
    ¬ (runFrom (step (fun _ ↦ 0) tightConfig letteredRoot) (.closed []) cleanedRun).Accounted
      tightConfig letteredRoot := by
  intro h
  have hrunning : ∃ t, runFrom (step (fun _ ↦ 0) tightConfig letteredRoot) (.closed []) cleanedRun =
      .running t ∧ t.session.writer.buffer = [] ∧ t.session.writer.retainedBytes = 112 ∧
        letteredRoot.total t.session.disk = 23 := by
    refine ⟨_, rfl, ?_⟩
    decide +kernel
  obtain ⟨t, hrun, hbuffer, hretained, htotal⟩ := hrunning
  obtain ⟨heq, -⟩ := h t hrun hbuffer
  rw [hrun] at heq
  change _ = letteredRoot.total t.session.disk at heq
  omega

end Store

end Bazalt.Storage
