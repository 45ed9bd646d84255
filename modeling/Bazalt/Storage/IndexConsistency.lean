import Bazalt.Storage.Startup

/-!
# What is indexed after a start

A rotation makes every row of the old file durable before there is a new one, so only the newest
file can hold records without a row, and a start indexes this file.  The start itself breaks the
rule: its writer creates a file before the old one has been indexed.  A crash between the two
leaves a file that is not the newest and whose records have no rows, and the next start indexes
the empty file beside it.
-/

namespace Bazalt.Storage

open Lib

/-! ## What a step of the writer makes durable -/

/-- The sealed files stay and no durable row is lost, or the active file is sealed and every row
is durable. -/
def Session.Seals (s s' : Session) : Prop :=
  (s'.sealedFiles = s.sealedFiles ∧ s.rows <+: s'.rows) ∨
    (s'.sealedFiles = s.shelf ∧ s'.rows = s.allRows)

namespace Session

variable {s s' : Session}

theorem Seals.refl (s : Session) : s.Seals s := .inl ⟨rfl, List.prefix_refl _⟩

/-- What follows changes neither the sealed files nor the durable rows. -/
theorem Seals.of_eq {s'' : Session} (h : s.Seals s') (hfiles : s''.sealedFiles = s'.sealedFiles)
    (hrows : s''.rows = s'.rows) : s.Seals s'' := by
  unfold Seals
  rw [hfiles, hrows]
  exact h

theorem rows_flushAndPublish (s : Session) (io : FlushIo) :
    (s.flushAndPublish io).1.rows = s.rows := by
  unfold flushAndPublish
  split
  · rfl
  · dsimp only
    split <;> rfl

theorem rows_failOn {α : Type} (r : Session × Except SegmentError α) :
    (failOn r).rows = r.1.rows := by
  unfold failOn
  split <;> rfl

theorem rows_publishBatch (s : Session) (io : FlushIo) : (s.publishBatch io).rows = s.rows := by
  unfold publishBatch
  split_ifs
  · exact (rows_failOn _).trans (s.rows_flushAndPublish io)
  · rfl

theorem seals_flush (s : Session) (io : FlushIo) :
    s.Seals (failOn (s.flushAndPublish io)) := by
  have hsettles := settles_failOn (s.settles_flushAndPublish io)
  exact (Seals.refl s).of_eq hsettles.sealedFiles
    ((rows_failOn _).trans (s.rows_flushAndPublish io))

/-- The old file is sealed after the barrier has answered. -/
theorem seals_commitAndRotate (s : Session) (cfg : Config) (io : CommitIo) :
    s.Seals (s.commitAndRotate cfg io).1 := by
  have hsettles := s.settles_flushAndPublish io.flush
  have hrows := s.rows_flushAndPublish io.flush
  unfold commitAndRotate
  generalize hr : s.flushAndPublish io.flush = r at hsettles hrows
  obtain ⟨s₁, e | ⟨⟨⟩⟩⟩ := r
  · exact (Seals.refl s).of_eq hsettles.sealedFiles hrows
  · obtain ⟨hbuffer, hpending⟩ := flushAndPublish_ok hr
    have hfiles := hsettles.sealedFiles
    have hname := hsettles.name
    have hstream := hsettles.stream
    have hall := hsettles.allRows
    simp only at hfiles hname hstream hall hrows
    have hdurable : s₁.rows ++ s₁.queue = s.allRows := by
      rw [← hall, allRows, Session.sent, hpending, List.append_nil]
    have hkept : s.rows <+: s₁.rows ++ s₁.queue := hrows ▸ List.prefix_append _ _
    dsimp only
    split_ifs
    · unfold rotateAfterCommit
      split_ifs
      · exact .inl ⟨hfiles, hkept⟩
      · cases io.name with
        | none => exact .inl ⟨hfiles, hkept⟩
        | some name =>
            have hfile : s₁.writer.file = ⟨s.writer.file.name, s.writer.stream⟩ := by
              have hbytes : s₁.writer.file.bytes = s.writer.stream := by
                rw [← hstream, ActiveWriter.stream, hbuffer, List.append_nil]
              rw [← hname, ← hbytes]
            refine .inr ⟨?_, hdurable⟩
            simp only [shelf, hfiles, hfile]
    · exact (Seals.refl s).of_eq hfiles hrows

theorem seals_rotateIfNeeded (s : Session) (cfg : Config) (encodedLen : ℕ) (io : CommitIo) :
    s.Seals (s.rotateIfNeeded cfg encodedLen io).1 := by
  unfold rotateIfNeeded
  split_ifs
  · cases s.writer.checkRotationBudget cfg encodedLen with
    | error e => exact Seals.refl s
    | ok u => exact s.seals_commitAndRotate cfg io
  · exact Seals.refl s

theorem seals_handleRecord (s : Session) (crc32 : Bytes → BitVec 32) (cfg : Config)
    (record : ContentRecord) (rotate : CommitIo) (accepted : Option ℕ) (publish : FlushIo) :
    s.Seals (s.handleRecord crc32 cfg record rotate accepted publish).1.session := by
  unfold handleRecord
  cases s.writer.prepareRecord cfg record with
  | error e => exact Seals.refl s
  | ok prepared =>
      have hrotated := s.seals_rotateIfNeeded cfg prepared.encodedLen rotate
      dsimp only
      generalize s.rotateIfNeeded cfg prepared.encodedLen rotate = rot at hrotated ⊢
      obtain ⟨s₁, e | ⟨⟨⟩⟩⟩ := rot
      · exact hrotated
      · dsimp only
        generalize s₁.writer.writePrepared crc32 cfg record prepared accepted = written
        obtain ⟨w, e | offset⟩ := written
        · dsimp only
          rw [session_breakIfFatal]
          exact hrotated
        · dsimp only
          rw [session_breakIfFatal]
          exact hrotated.of_eq (settles_publishBatch _ publish).sealedFiles
            (rows_publishBatch _ publish)

theorem seals_handleSeal (s : Session) (cfg : Config) (io : CommitIo) (listed : Bool) :
    s.Seals (s.handleSeal cfg io listed).1.session := by
  have hrotated := s.seals_commitAndRotate cfg io
  unfold handleSeal
  generalize s.commitAndRotate cfg io = r at hrotated ⊢
  obtain ⟨s₁, e | ⟨⟨⟩⟩⟩ := r
  · dsimp only
    rw [session_breakIfFatal]
    exact hrotated
  · dsimp only
    split_ifs
    · rw [session_breakIfFatal]
      exact hrotated
    · rw [session_breakIfFatal]
      exact hrotated

theorem seals_handleTimeout (s : Session) (io : FlushIo) (shutdown : Bool) :
    s.Seals (s.handleTimeout io shutdown).session := by
  have hround : s.Seals (if s.pending.isEmpty then s else failOn (s.flushAndPublish io)) := by
    split_ifs
    · exact Seals.refl s
    · exact s.seals_flush io
  unfold handleTimeout
  generalize (if s.pending.isEmpty then s else failOn (s.flushAndPublish io)) = s₁
    at hround ⊢
  dsimp only
  split_ifs
  · exact hround
  · rw [session_breakIfFatal]
    exact hround

theorem seals_drift (s : Session) (e : Event) : s.Seals (s.drift e) := by
  cases e with
  | persist n => exact .inl ⟨rfl, List.prefix_append _ _⟩
  | _ => exact Seals.refl s

end Session

theorem Thread.seals_step (crc32 : Bytes → BitVec 32) (cfg : Config) (t : Thread) (e : Event) :
    t.session.Seals (t.step crc32 cfg e).1.session := by
  cases t with
  | looping s =>
      cases e with
      | record r rotate accepted publish =>
          exact s.seals_handleRecord crc32 cfg r rotate accepted publish
      | flush io =>
          change s.Seals ((Session.failOn (s.flushAndPublish io)).breakIfFatal).session
          rw [Session.session_breakIfFatal]
          exact s.seals_flush io
      | sealSegment io listed => exact s.seals_handleSeal cfg io listed
      | timeout io shutdown => exact s.seals_handleTimeout io shutdown
      | disconnected => exact Session.Seals.refl s
      | finish io => exact s.seals_drift (.finish io)
      | drain n => exact s.seals_drift (.drain n)
      | persist n => exact s.seals_drift (.persist n)
  | closing s =>
      cases e with
      | finish io =>
          exact (Session.Seals.refl s).of_eq (s.settles_flushAndPublish io).sealedFiles
            (s.rows_flushAndPublish io)
      | drain n => exact s.seals_drift (.drain n)
      | persist n => exact s.seals_drift (.persist n)
      | _ => exact Session.Seals.refl s
  | stopped s =>
      cases e with
      | drain n => exact s.seals_drift (.drain n)
      | persist n => exact s.seals_drift (.persist n)
      | _ => exact Session.Seals.refl s

/-! ## Files whose records have rows -/

section

variable {crc32 : Bytes → BitVec 32} {m : ℕ} {rows rows' : List ContentIndexRecord}
  {files files' : List SegmentFile}

theorem AllIndexed.mono (h : AllIndexed crc32 m rows files) (hrows : rows ⊆ rows') :
    AllIndexed crc32 m rows' files :=
  fun f hf p hp ↦ List.map_subset _ hrows (h f hf p hp)

theorem AllIndexed.of_subset (h : AllIndexed crc32 m rows files) (hfiles : files' ⊆ files) :
    AllIndexed crc32 m rows files' :=
  fun f hf ↦ h f (hfiles hf)

theorem AllIndexed.append (h : AllIndexed crc32 m rows files) (h' : AllIndexed crc32 m rows files') :
    AllIndexed crc32 m rows (files ++ files') := by
  intro f hf
  rcases List.mem_append.mp hf with hf | hf
  · exact h f hf
  · exact h' f hf

theorem allIndexed_iff :
    AllIndexed crc32 m rows files ↔ ∀ f ∈ files, AllIndexed crc32 m rows [f] := by
  refine ⟨fun h f hf ↦ h.of_subset (by simpa using hf), fun h f hf ↦ h f hf f ?_⟩
  exact List.mem_singleton_self f

theorem AllIndexed.of_positions_nil {f : SegmentFile} (h : f.positions crc32 m = []) :
    AllIndexed crc32 m rows [f] := by
  intro g hg p hp
  obtain rfl := List.mem_singleton.mp hg
  rw [h] at hp
  cases hp

end

/-! ## A writer that has written nothing -/

/-- The file has a header at most, and no row waits. -/
structure Session.Unused (older : List SegmentFile) (name : ℕ) (s : Session) : Prop where
  sealedFiles : s.sealedFiles = older
  name : s.writer.file.name = name
  stream : ∃ createdNs, s.writer.stream = segmentHeader createdNs
  allRows : s.allRows = []

namespace Session.Unused

variable {crc32 : Bytes → BitVec 32} {cfg : Config} {m : ℕ} {older : List SegmentFile} {name : ℕ}
  {s : Session}

/-- Nothing is appended to it and no file is started after it. -/
theorem kept (crc32 : Bytes → BitVec 32) (cfg : Config) (older : List SegmentFile) (name : ℕ) :
    Kept crc32 cfg (fun _ _ ↦ False) (fun _ ↦ False) (fun _ ↦ False) (Session.Unused older name)
      (Session.Unused older name) where
  settle := fun hs h ↦ ⟨hs.sealedFiles.trans h.sealedFiles, hs.name.trans h.name,
    hs.stream ▸ h.stream, hs.allRows.trans h.allRows⟩
  rotate := fun _ _ _ _ h ↦ h.elim
  write := fun _ _ h _ ↦ h.elim
  tear := fun _ _ _ h _ ↦ h.elim
  weaken := id
  settleAfter := fun hs h ↦ ⟨hs.sealedFiles.trans h.sealedFiles, hs.name.trans h.name,
    hs.stream ▸ h.stream, hs.allRows.trans h.allRows⟩

theorem spawned (files : List SegmentFile) (name createdNs retainedBytes : ℕ) :
    (Thread.spawned files name createdNs retainedBytes).session.Unused files name :=
  ⟨rfl, rfl, ⟨createdNs, rfl⟩, rfl⟩

theorem rows (h : s.Unused older name) : s.rows = [] := by
  have hall := h.allRows
  rw [Session.allRows, Session.sent, List.append_eq_nil_iff, List.append_eq_nil_iff] at hall
  exact hall.1.1

theorem positions_file (h : s.Unused older name) : s.writer.file.positions crc32 m = [] := by
  obtain ⟨createdNs, hstream⟩ := h.stream
  have hfile : s.writer.file.bytes <+:
      segmentHeader createdNs ++ body crc32 ([] : List (Frame m)) ++ [] := by
    rw [body, List.map_nil, List.flatten_nil, List.append_nil, List.append_nil, ← hstream]
    exact List.prefix_append _ _
  have hsub : (SegmentFile.positions crc32 m s.writer.file).Sublist _ :=
    positions_sublist (.inl rfl) hfile
  rw [positions_stream (.inl rfl), placed, List.map_nil] at hsub
  exact List.eq_nil_of_sublist_nil hsub

theorem inOrder (h : s.Unused older name) :
    s.InOrder crc32 m (older.flatMap (SegmentFile.positions crc32 m)) (· = []) := by
  obtain ⟨createdNs, hstream⟩ := h.stream
  refine ⟨⟨createdNs, [], [], ?_, .inl rfl, rfl⟩, ?_⟩
  · rw [hstream, body, List.map_nil, List.flatten_nil, List.append_nil, List.append_nil]
  · rw [Session.shelf, hstream, List.flatMap_append, List.flatMap_singleton,
      Session.InOrder.positions_header, List.append_nil, h.sealedFiles]
    exact List.sublist_append_left _ _

/-- The thread goes on with what it does before anything is appended. -/
theorem step {t : Thread} (h : t.session.Unused older name) {e : Event} (hname : e.newName = none)
    (hrecord : appended [e] = []) (haccepted : e.accepted = none) :
    (t.step crc32 cfg e).1.session.Unused older name := by
  refine (Thread.holds_self _).mp ((kept crc32 cfg older name).step ((Thread.holds_self t).mpr h) ?_)
  exact ⟨by simp [hname], by simp [hrecord], by simp [haccepted]⟩

end Session.Unused

theorem Event.quiet_frame {e : Event} (h : e.quiet = true) (taken : ℕ → Bool) :
    (e.createNew taken).newName = none ∧ appended [e.createNew taken] = [] ∧
      (e.createNew taken).accepted = none := by
  cases e with
  | timeout io shutdown => exact ⟨rfl, rfl, rfl⟩
  | drain n => exact ⟨rfl, rfl, rfl⟩
  | persist n => exact ⟨rfl, rfl, rfl⟩
  | _ => cases h

/-! ## The states of a process -/

namespace Runtime

/-- What the start has done for the files so far. -/
def Progress (crc32 : Bytes → BitVec 32) (m : ℕ) (root : Root) (r : Runtime) : Prop :=
  match r.phase with
  | .rebuilding paths => ∀ f ∈ r.older, root.path f.name ∉ paths →
      AllIndexed crc32 m (r.indexed ++ r.queue) [f]
  | .marking => AllIndexed crc32 m r.indexed r.older
  | .recovered => AllIndexed crc32 m (r.indexed ++ r.queue) r.older
  | _ => True

/-- A start that has not returned: only the records of the segment that it indexes again can be
without rows. -/
structure Starting (crc32 : Bytes → BitVec 32) (m : ℕ) (root : Root) (r : Runtime) : Prop where
  unused : ∀ t, r.store = .running t → ∃ name, t.session.Unused r.older name
  marked : r.requiresFullIndexRecovery = false → r.marker = true
  other : r.marker = true → ∀ f ∈ r.older, r.requiresFullIndexRecovery = true ∨
    some (root.path f.name) ≠ r.recoverySegment → AllIndexed crc32 m r.indexed [f]
  newest : r.marker = true → ∀ files, r.store = .closed files →
    AllIndexed crc32 m r.indexed files.dropLast
  progress : r.Progress crc32 m root

/-- A start that has returned: every record of a sealed file has a row. -/
structure Serving (crc32 : Bytes → BitVec 32) (m : ℕ) (r : Runtime) : Prop where
  queue : r.queue = []
  older : AllIndexed crc32 m r.indexed r.older
  inOrder : ∀ t, r.store = .running t → ∃ base : List (Uuid × ℕ × ℕ),
    base ⊆ r.durable.map ContentIndexRecord.position ∧
      t.Holds (Session.InOrder crc32 m base (· = [])) (Session.InOrder crc32 m base fun _ ↦ True)

/-- No process: only the records of the newest file can be without rows. -/
structure Down (crc32 : Bytes → BitVec 32) (m : ℕ) (r : Runtime) : Prop where
  queue : r.queue = []
  waiting : r.waiting = false
  closed : ∃ files, r.store = .closed files ∧
    (r.marker = true → AllIndexed crc32 m r.durable files.dropLast)

structure Sound (crc32 : Bytes → BitVec 32) (m : ℕ) (root : Root) (created : List ℕ)
    (r : Runtime) : Prop where
  names : (r.store.files.map SegmentFile.name).Sublist created
  down : r.phase = .down → r.Down crc32 m
  starting : r.phase ≠ .down → r.phase ≠ .started → r.Starting crc32 m root
  started : r.phase = .started → r.Serving crc32 m

variable {crc32 : Bytes → BitVec 32} {m : ℕ} {cfg : Config} {root : Root} {created : List ℕ}
  {r : Runtime}

theorem mem_files_of_older {f : SegmentFile} (hf : f ∈ r.older) : f ∈ r.store.files := by
  unfold older at hf
  cases hstore : r.store with
  | closed files =>
      rw [hstore] at hf
      exact hf
  | running t =>
      rw [hstore] at hf
      exact List.mem_append_left _ hf

/-- The writer's own file has no records yet. -/
theorem Starting.allIndexed_files (h : r.Starting crc32 m root) {rows : List ContentIndexRecord}
    (hrows : AllIndexed crc32 m rows r.older) : AllIndexed crc32 m rows r.store.files := by
  unfold older at hrows
  cases hstore : r.store with
  | closed files =>
      rw [hstore] at hrows
      exact hrows
  | running t =>
      obtain ⟨name, hunused⟩ := h.unused t hstore
      rw [hstore] at hrows
      exact hrows.append (AllIndexed.of_positions_nil hunused.positions_file)

/-- The files are sorted by their names, as they were created. -/
theorem Sound.sorted (h : r.Sound crc32 m root created)
    (hclock : created.Pairwise fun a b ↦ root.path a < root.path b) :
    (r.store.files.map fun f ↦ root.path f.name).Pairwise (· < ·) := by
  have hnames := hclock.sublist h.names
  rw [List.pairwise_map] at hnames ⊢
  exact hnames

/-! ## Opening the directory -/

theorem latestSegmentPath_concat {older : List SegmentFile} {newest : SegmentFile}
    (hext : ∀ n, extension (root.path n) = some seg)
    (hsorted : ((older ++ [newest]).map fun f ↦ root.path f.name).Pairwise (· < ·)) :
    latestSegmentPath ((older ++ [newest]).map fun f ↦ root.path f.name) =
      some (root.path newest.name) := by
  have hreads : root.Reads (older ++ [newest])
      ((older ++ [newest]).map fun f ↦ root.path f.name) :=
    ⟨[], by rw [List.append_nil], by simp⟩
  rw [latestSegmentPath, listSegments_eq hext (hsorted.imp le_of_lt) hreads, List.getLast?_map,
    List.getLast?_concat]
  rfl

/-- Opening keeps the older files, and what is left of the newest one is the last file. -/
theorem openSegments_concat {older : List SegmentFile} {newest : SegmentFile}
    (hext : ∀ n, extension (root.path n) = some seg)
    (hsorted : ((older ++ [newest]).map fun f ↦ root.path f.name).Pairwise (· < ·)) :
    ∃ left : Option Bytes, (openSegments crc32 cfg root (older ++ [newest])).1 =
      older ++ (left.map fun bytes ↦ { newest with bytes }).toList := by
  have hrecover : recoverLastSegmentTail crc32 root cfg.maxRecordBytes (older ++ [newest]) = _ :=
    recoverLastSegmentTail_newest (hsorted.imp ne_of_lt) (latestSegmentPath_concat hext hsorted)
  unfold openSegments
  rw [hrecover]
  cases recoverTail crc32 cfg.maxRecordBytes newest.bytes with
  | error e => exact ⟨some newest.bytes, rfl⟩
  | ok left => exact ⟨left, rfl⟩

theorem openSegments_nil :
    (openSegments crc32 cfg root []).1 = [] := rfl

/-- The files that a start finds: those before the newest, and what is left of it. -/
theorem Down.opened (cfg : Config) (h : r.Down crc32 m) (hsorted : (r.store.files.map fun f ↦
      root.path f.name).Pairwise (· < ·)) (hext : ∀ n, extension (root.path n) = some seg)
    {files : List SegmentFile} (hstore : r.store = .closed files) :
    ((openSegments crc32 cfg root files).1.map SegmentFile.name).Sublist
        (files.map SegmentFile.name) ∧
      (r.marker = true →
        AllIndexed crc32 m r.durable (openSegments crc32 cfg root files).1.dropLast ∧
        ∀ f ∈ (openSegments crc32 cfg root files).1, some (root.path f.name) ≠
          latestSegmentPath (files.map fun f ↦ root.path f.name) → AllIndexed crc32 m r.durable [f]) := by
  obtain ⟨found, hfound, hcovered⟩ := h.closed
  obtain rfl : found = files := Store.closed.inj (hfound.symm.trans hstore)
  rw [hstore] at hsorted
  rcases found.eq_nil_or_concat' with rfl | ⟨older, newest, rfl⟩
  · rw [openSegments_nil]
    refine ⟨List.Sublist.refl _, fun _ ↦ ⟨?_, ?_⟩⟩
    · intro f hf
      cases hf
    · intro f hf
      cases hf
  · obtain ⟨left, hleft⟩ : ∃ left : Option Bytes,
        (openSegments crc32 cfg root (older ++ [newest])).1 = _ := openSegments_concat hext hsorted
    rw [hleft, latestSegmentPath_concat hext hsorted]
    simp only [List.dropLast_concat] at hcovered
    cases left with
    | none =>
        refine ⟨?_, fun hmarker ↦ ⟨?_, fun f hf _ ↦ ?_⟩⟩
        · simp
        · exact (hcovered hmarker).of_subset (by simpa using List.dropLast_subset older)
        · exact (hcovered hmarker).of_subset (by simpa using hf)
    | some bytes =>
        refine ⟨?_, fun hmarker ↦ ⟨?_, fun f hf hne ↦ ?_⟩⟩
        · simp
        · exact (hcovered hmarker).of_subset (by simp)
        · rcases List.mem_append.mp hf with hold | hnew
          · exact (hcovered hmarker).of_subset (by simpa using hold)
          · obtain rfl : f = { newest with bytes } := by simpa using hnew
            exact absurd rfl hne

theorem step_openStore_of_ne (h : r.phase ≠ .down) : r.step crc32 cfg root .openStore = r := by
  simp only [step]
  split
  · next hphase _ => exact absurd hphase h
  · rfl

theorem Sound.openStore (h : r.Sound crc32 cfg.maxRecordBytes root created)
    (hclock : created.Pairwise fun a b ↦ root.path a < root.path b)
    (hext : ∀ n, extension (root.path n) = some seg) :
    (r.step crc32 cfg root .openStore).Sound crc32 cfg.maxRecordBytes root created := by
  by_cases hphase : r.phase = .down
  swap
  · rw [step_openStore_of_ne hphase]
    exact h
  have hdown := h.down hphase
  obtain ⟨files, hstore, -⟩ := hdown.closed
  obtain ⟨hnames, hmarked⟩ := hdown.opened cfg (h.sorted hclock) hext hstore
  have hfiles := h.names
  rw [hstore] at hfiles
  simp only [step, hphase, hstore]
  generalize openSegments crc32 cfg root files = opened at hnames hmarked
  refine ⟨hnames.trans hfiles, ?_, fun _ _ ↦ ?_, ?_⟩
  · intro hfalse
    simp only at hfalse
    split_ifs at hfalse
  · refine ⟨?_, ?_, ?_, ?_, ?_⟩
    · intro t ht
      cases ht
    · intro hfull
      simpa using hfull
    · intro hmarker f hf hother
      simp only [indexed, List.append_nil]
      refine (hmarked hmarker).2 f hf ?_
      rcases hother with hfull | hother
      · rw [show r.marker = true from hmarker] at hfull
        cases hfull
      · exact hother
    · intro hmarker found hfound
      obtain rfl := Store.closed.inj hfound
      simp only [indexed, List.append_nil]
      exact (hmarked hmarker).1
    · unfold Progress
      cases opened.2 <;> trivial
  · intro hfalse
    simp only at hfalse
    split_ifs at hfalse

/-! ## The writer thread beside the start -/

theorem Sound.mono {more : List ℕ} (h : r.Sound crc32 m root created) :
    r.Sound crc32 m root (created ++ more) :=
  ⟨h.names.trans (List.sublist_append_left _ _), h.down, h.starting, h.started⟩

/-- The positions of covered files are those of rows. -/
theorem flatMap_positions_subset {rows : List ContentIndexRecord} {files : List SegmentFile}
    (h : AllIndexed crc32 m rows files) : files.flatMap (SegmentFile.positions crc32 m) ⊆
      rows.map ContentIndexRecord.position := by
  intro p hp
  obtain ⟨f, hf, hp⟩ := List.mem_flatMap.mp hp
  exact h f hf p hp

theorem Sound.spawnWriter (h : r.Sound crc32 cfg.maxRecordBytes root created) (name : Option ℕ)
    (createdNs : ℕ) : (r.step crc32 cfg root (.spawnWriter name createdNs)).Sound crc32
      cfg.maxRecordBytes root (created ++ name.toList) := by
  obtain ⟨store, marker, durable, phase, recoverySegment, full, waiting, queue⟩ := r
  cases store with
  | running t => exact h.mono
  | closed files =>
      cases waiting with
      | false => exact h.mono
      | true =>
          have hup : phase ≠ .down := by
            intro hphase
            have hwaiting := (h.down hphase).waiting
            cases hwaiting
          simp only [step, if_true]
          cases hname : name.filter (! root.taken files ·) with
          | none =>
              refine ⟨h.mono.names, fun hphase ↦ absurd hphase hup, fun hdown hstarted ↦ ?_,
                fun hstarted ↦ ?_⟩
              · have hs := h.starting hdown hstarted
                exact ⟨hs.unused, hs.marked, hs.other, hs.newest, hs.progress⟩
              · have hs := h.started hstarted
                exact ⟨hs.queue, hs.older, hs.inOrder⟩
          | some n =>
              obtain ⟨hsome, -⟩ := Option.filter_eq_some_iff.mp hname
              refine ⟨?_, fun hphase ↦ absurd hphase hup, fun hdown hstarted ↦ ?_,
                fun hstarted ↦ ?_⟩
              · rw [hsome]
                change ((Thread.spawned files n createdNs _).session.disk.map
                  SegmentFile.name).Sublist _
                rw [Store.disk_spawned]
                exact h.names.append (List.Sublist.refl _)
              · have hs := h.starting hdown hstarted
                refine ⟨?_, hs.marked, hs.other, ?_, hs.progress⟩
                · intro t ht
                  obtain rfl := Store.running.inj ht
                  exact ⟨n, Session.Unused.spawned files n createdNs _⟩
                · intro _ found hfound
                  cases hfound
              · have hs := h.started hstarted
                refine ⟨hs.queue, hs.older, ?_⟩
                intro t ht
                obtain rfl := Store.running.inj ht
                refine ⟨files.flatMap (SegmentFile.positions crc32 cfg.maxRecordBytes), ?_,
                  Session.InOrder.spawned (List.Sublist.refl _)⟩
                have holder := flatMap_positions_subset hs.older
                simp only [indexed, older, List.append_nil] at holder
                exact holder

/-- A step of a writer to which nothing has been appended. -/
theorem Starting.of_unused (h : r.Starting crc32 m root) {t t' : Thread}
    (hstore : r.store = .running t) {name : ℕ} (hunused : t.session.Unused r.older name)
    (hunused' : t'.session.Unused r.older name) :
    Starting crc32 m root { r with store := .running t' } := by
  have holder : older { r with store := .running t' } = r.older := hunused'.sealedFiles
  have hindexed : indexed { r with store := .running t' } = r.indexed := by
    simp only [indexed, hstore, hunused.rows, hunused'.rows]
  refine ⟨?_, h.marked, ?_, ?_, ?_⟩
  · intro found hfound
    obtain rfl := Store.running.inj hfound
    rw [holder]
    exact ⟨name, hunused'⟩
  · rw [holder, hindexed]
    exact h.other
  · intro _ files hfiles
    cases hfiles
  · have hprogress := h.progress
    unfold Progress at hprogress ⊢
    simp only [holder, hindexed]
    exact hprogress

/-- A step of the writer of a start that has returned. -/
theorem Serving.of_seals (h : r.Serving crc32 m) {t t' : Thread} (hstore : r.store = .running t)
    (hseals : t.session.Seals t'.session)
    (hkept : ∀ base, t.Holds (Session.InOrder crc32 m base (· = []))
        (Session.InOrder crc32 m base fun _ ↦ True) →
      t'.Holds (Session.InOrder crc32 m base (· = [])) (Session.InOrder crc32 m base fun _ ↦ True)) :
    Serving crc32 m { r with store := .running t' } := by
  obtain ⟨base, hbase, hholds⟩ := h.inOrder t hstore
  refine ⟨h.queue, ?_, ?_⟩
  · have hcovered := h.older
    simp only [Runtime.older, indexed, hstore] at hcovered ⊢
    rcases hseals with ⟨hfiles, hrows⟩ | ⟨hfiles, hrows⟩
    · rw [hfiles]
      exact hcovered.mono ((List.prefix_append_right_inj _).mpr hrows).subset
    · rw [hfiles, hrows]
      intro f hf p hp
      have horder := (hholds.session fun s hs ↦ hs.weaken).order.subset
        (List.mem_flatMap.mpr ⟨f, hf, hp⟩)
      rw [List.map_append]
      rcases List.mem_append.mp horder with hold | hnew
      · exact List.mem_append_left _ (hbase hold)
      · exact List.mem_append_right _ hnew
  · intro found hfound
    obtain rfl := Store.running.inj hfound
    exact ⟨base, hbase, hkept base hholds⟩

theorem Sound.writer (h : r.Sound crc32 cfg.maxRecordBytes root created)
    (hclock : created.Pairwise fun a b ↦ root.path a < root.path b) (e : Event) :
    (r.step crc32 cfg root (.writer e)).Sound crc32 cfg.maxRecordBytes root
      (created ++ e.newName.toList) := by
  simp only [step]
  split_ifs with hallowed
  swap
  · exact h.mono
  cases hstore : r.store with
  | closed files =>
      rw [show (Store.closed files).step crc32 cfg root (.writer e) = r.store from hstore.symm]
      exact h.mono
  | running t =>
      have hnodup : ((t.session.disk.map SegmentFile.name).map root.path).Nodup := by
        have hsorted := (h.sorted hclock).imp ne_of_lt
        rw [hstore] at hsorted
        rw [List.map_map]
        exact hsorted
      have hnames := h.names
      rw [hstore] at hnames
      have hnamed := (Named.kept crc32 cfg root created e.newName).step
        (t := t) (e := e.createNew (root.taken t.session.disk))
        ((Thread.holds_self t).mpr (Named.of_sublist hnodup hnames))
        (Event.createNew_meets (fun name hname hfree ↦ ⟨hname, by
          rw [List.map_map]
          exact Root.taken_eq_false.mp hfree⟩) (fun _ _ ↦ trivial) fun _ _ ↦ trivial)
      refine ⟨((Thread.holds_self _).mp hnamed).sublist_append, ?_, ?_, ?_⟩
      · intro hphase
        obtain ⟨files, hclosed, -⟩ := (h.down hphase).closed
        rw [hstore] at hclosed
        cases hclosed
      · intro hdown hstarted
        have hs := h.starting hdown hstarted
        obtain ⟨name, hunused⟩ := hs.unused t hstore
        obtain ⟨hname, hrecord, haccepted⟩ :=
          Event.quiet_frame (hallowed.resolve_left hstarted) (root.taken t.session.disk)
        exact hs.of_unused hstore hunused (hunused.step hname hrecord haccepted)
      · intro hstarted
        refine (h.started hstarted).of_seals hstore (t.seals_step crc32 cfg _) fun base hholds ↦ ?_
        exact (Session.InOrder.kept crc32 cfg base fun _ _ ↦ True).step hholds
          (Event.createNew_meets (fun _ _ _ ↦ trivial) (fun _ _ ↦ trivial) fun _ _ ↦ trivial)

theorem Sound.deleteSegments (h : r.Sound crc32 cfg.maxRecordBytes root created) (paths : List ℕ)
    (failing : Option ℕ) :
    (r.step crc32 cfg root (.deleteSegments paths failing)).Sound crc32 cfg.maxRecordBytes root
      created := by
  simp only [step]
  split_ifs with hstarted
  swap
  · exact h
  cases hstore : r.store with
  | closed files =>
      rw [show (Store.closed files).step crc32 cfg root (.deleteSegments paths failing) = r.store
        from hstore.symm]
      exact h
  | running t =>
      have hs := h.started hstarted
      obtain ⟨base, hbase, hholds⟩ := hs.inOrder t hstore
      have hsub := root.deleteSegments_sublist paths failing t.session.sealedFiles
      have hsession : (t.mapSession fun s ↦ s.deleteSegments root paths failing).session =
          t.session.deleteSegments root paths failing := Thread.session_mapSession _ _
      refine ⟨?_, ?_, fun _ hnot ↦ absurd hstarted hnot, fun _ ↦ ⟨hs.queue, ?_, ?_⟩⟩
      · have hnames := h.names
        rw [hstore] at hnames
        refine List.Sublist.trans ?_ hnames
        simp only [Store.step, Store.files, hsession]
        exact (hsub.append (List.Sublist.refl _)).map _
      · intro hdown
        rw [show r.phase = .down from hdown] at hstarted
        cases hstarted
      · have hcovered := hs.older
        simp only [older, indexed, hstore, Store.step, hsession] at hcovered ⊢
        exact hcovered.of_subset hsub.subset
      · intro found hfound
        obtain rfl := Store.running.inj hfound
        exact ⟨base, hbase, hholds.mapSession (fun s hs ↦ hs.deleteSegments root paths failing)
          fun s hs ↦ hs.deleteSegments root paths failing⟩

/-! ## The recovery -/

theorem Sound.of_starting (hnames : (r.store.files.map SegmentFile.name).Sublist created)
    (h : r.Starting crc32 m root) (hdown : r.phase ≠ .down) (hstarted : r.phase ≠ .started) :
    r.Sound crc32 m root created :=
  ⟨hnames, fun h ↦ absurd h hdown, fun _ _ ↦ h, fun h ↦ absurd h hstarted⟩

/-- Rows become durable, rows are sent, and the start goes on. -/
theorem Starting.advance (h : r.Starting crc32 m root) {durable queue : List ContentIndexRecord}
    {phase : Phase} (hdurable : r.durable ⊆ durable)
    (hprogress : Progress crc32 m root { r with durable, queue, phase }) :
    Starting crc32 m root { r with durable, queue, phase } := by
  have hindexed : r.indexed ⊆ indexed { r with durable, queue, phase } :=
    List.append_subset.mpr ⟨fun row hrow ↦ List.mem_append_left _ (hdurable hrow),
      List.subset_append_right _ _⟩
  exact ⟨h.unused, h.marked, fun hmarker f hf hother ↦ (h.other hmarker f hf hother).mono hindexed,
    fun hmarker files hfiles ↦ (h.newest hmarker files hfiles).mono hindexed, hprogress⟩

theorem Starting.setPhase (h : r.Starting crc32 m root) {phase : Phase}
    (hprogress : Progress crc32 m root { r with phase }) :
    Starting crc32 m root { r with phase } :=
  h.advance (List.Subset.refl _) hprogress

theorem Starting.indexed_eq (h : r.Starting crc32 m root) : r.indexed = r.durable := by
  unfold indexed
  cases hstore : r.store with
  | closed files => exact List.append_nil _
  | running t =>
      obtain ⟨name, hunused⟩ := h.unused t hstore
      dsimp only
      rw [hunused.rows, List.append_nil]

theorem Sound.flushVisible (h : r.Sound crc32 cfg.maxRecordBytes root created)
    (hext : ∀ n, extension (root.path n) = some seg) (io : FlushIo) :
    (r.step crc32 cfg root (.flushVisible io)).Sound crc32 cfg.maxRecordBytes root created := by
  by_cases hopened : r.phase = .opened ∧ r.requiresFullIndexRecovery = true
  swap
  · simp only [step, if_neg hopened]
    exact h
  simp only [step, if_pos hopened]
  have hs := h.starting (by rw [hopened.1]; decide) (by rw [hopened.1]; decide)
  cases hstore : r.store with
  | closed files =>
      dsimp only
      by_cases hwaiting : r.waiting = true
      · rw [if_pos hwaiting]
        exact h
      · rw [if_neg hwaiting, ← hstore]
        exact .of_starting h.names (hs.setPhase trivial) (by simp) (by simp)
  | running t =>
      obtain ⟨name, hunused⟩ := hs.unused t hstore
      have hunused' : (t.step crc32 cfg (.flush io)).1.session.Unused r.older name :=
        hunused.step rfl rfl rfl
      have hfiles := h.names
      rw [hstore] at hfiles
      dsimp only
      generalize t.step crc32 cfg (.flush io) = flushed at hunused'
      obtain ⟨t', outcome⟩ := flushed
      dsimp only at hunused' ⊢
      have hsame := hs.of_unused hstore hunused hunused'
      have hnames : t'.session.disk.map SegmentFile.name =
          t.session.disk.map SegmentFile.name := by
        simp [Session.disk, hunused.sealedFiles, hunused'.sealedFiles, hunused.name, hunused'.name]
      have hnamed : (t'.session.disk.map SegmentFile.name).Sublist created := by
        rw [hnames]
        exact hfiles
      split
      · refine .of_starting hnamed (hsame.setPhase fun f hf hnot ↦ absurd ?_ hnot) (by simp) (by simp)
        rw [listSegments, List.mem_insertionSort, List.mem_filter]
        exact ⟨List.mem_map.mpr ⟨f, List.mem_append_left _ hf, rfl⟩, by simp [hext]⟩
      · exact .of_starting hnamed (hsame.setPhase trivial) (by simp) (by simp)

/-- The rows that are sent for a file are those of its records. -/
theorem allIndexed_rebuildIndexPath {files : List SegmentFile}
    (hnodup : (files.map fun f ↦ root.path f.name).Nodup) {f : SegmentFile} (hf : f ∈ files) :
    AllIndexed crc32 cfg.maxRecordBytes
      (rebuildIndexPath crc32 cfg root files (root.path f.name)).1 [f] := by
  intro g hg p hp
  obtain rfl := List.mem_singleton.mp hg
  rw [rebuildIndexPath, find?_path hnodup hf, List.map_map]
  exact hp

theorem Sound.rebuildPath (h : r.Sound crc32 cfg.maxRecordBytes root created)
    (hs : r.Starting crc32 cfg.maxRecordBytes root) {path : Text} {next : Phase}
    (hdown : next ≠ .down) (hstarted : next ≠ .started)
    (hnext : Progress crc32 cfg.maxRecordBytes root { r with
      queue := r.queue ++ (rebuildIndexPath crc32 cfg root r.store.files path).1
      phase := next }) :
    (r.rebuildPath crc32 cfg root path next).Sound crc32 cfg.maxRecordBytes root created := by
  unfold Runtime.rebuildPath
  dsimp only
  split_ifs
  · exact .of_starting h.names (hs.advance (List.Subset.refl _) hnext) hdown hstarted
  · exact .of_starting h.names (hs.advance (List.Subset.refl _) trivial) (by simp) (by simp)

theorem Sound.index (h : r.Sound crc32 cfg.maxRecordBytes root created)
    (hclock : created.Pairwise fun a b ↦ root.path a < root.path b) :
    (r.step crc32 cfg root .index).Sound crc32 cfg.maxRecordBytes root created := by
  have hnodup := (h.sorted hclock).imp ne_of_lt
  have hrows : ∀ f ∈ r.older, AllIndexed crc32 cfg.maxRecordBytes (r.indexed ++ (r.queue ++
      (rebuildIndexPath crc32 cfg root r.store.files (root.path f.name)).1)) [f] := by
    intro f hf
    refine (allIndexed_rebuildIndexPath hnodup (mem_files_of_older hf)).mono ?_
    exact List.Subset.trans (List.subset_append_right _ _) (List.subset_append_right _ _)
  simp only [step]
  cases hphase : r.phase with
  | opened =>
      have hs := h.starting (by rw [hphase]; decide) (by rw [hphase]; decide)
      dsimp only
      split_ifs with hfull
      · exact h
      have hother := hs.other (hs.marked (by simpa using hfull))
      split
      · next hnone =>
          refine .of_starting h.names (hs.setPhase ?_) (by simp) (by simp)
          refine AllIndexed.mono ?_ (List.subset_append_left _ _)
          refine allIndexed_iff.mpr fun f hf ↦ hother f hf (.inr fun hpath ↦ ?_)
          rw [← hpath, Option.filter_eq_none_iff] at hnone
          refine hnone _ rfl ?_
          exact List.any_eq_true.mpr ⟨f, mem_files_of_older hf, decide_eq_true rfl⟩
      · next path hpath =>
          refine h.rebuildPath hs (by simp) (by simp) (allIndexed_iff.mpr fun f hf ↦ ?_)
          by_cases heq : root.path f.name = path
          · subst heq
            exact hrows f hf
          · refine (hother f hf (.inr fun hsome ↦ heq ?_)).mono (List.subset_append_left _ _)
            exact Option.some.inj (hsome.trans (Option.filter_eq_some_iff.mp hpath).1)
  | rebuilding paths =>
      have hs := h.starting (by rw [hphase]; simp) (by rw [hphase]; simp)
      cases paths with
      | nil => exact h
      | cons path paths =>
          refine h.rebuildPath hs (by simp) (by simp) fun f hf hnot ↦ ?_
          by_cases heq : root.path f.name = path
          · subst heq
            exact hrows f hf
          · have hprogress := hs.progress
            simp only [Progress, hphase] at hprogress
            refine (hprogress f hf (by simp [heq, hnot])).mono ?_
            rw [← List.append_assoc]
            exact List.subset_append_left _ _
  | _ => exact h

theorem Sound.durableBarrier (h : r.Sound crc32 cfg.maxRecordBytes root created) :
    (r.step crc32 cfg root .durableBarrier).Sound crc32 cfg.maxRecordBytes root created := by
  simp only [step]
  cases hphase : r.phase with
  | rebuilding paths =>
      have hs := h.starting (by rw [hphase]; simp) (by rw [hphase]; simp)
      cases paths with
      | cons path paths => exact h
      | nil =>
          refine .of_starting h.names (hs.advance (List.subset_append_left _ _) ?_)
            (by simp [settled]) (by simp [settled])
          have hprogress := hs.progress
          simp only [Progress, hphase, hs.indexed_eq] at hprogress
          refine AllIndexed.mono ?_ (List.subset_append_left _ _)
          exact allIndexed_iff.mpr fun f hf ↦ hprogress f hf List.not_mem_nil
  | recovered =>
      have hs := h.starting (by rw [hphase]; simp) (by rw [hphase]; simp)
      have hprogress := hs.progress
      simp only [Progress, hphase, hs.indexed_eq] at hprogress
      refine ⟨h.names, fun hdown ↦ ?_, fun _ hnot ↦ absurd rfl hnot, fun _ ↦ ⟨rfl, ?_, ?_⟩⟩
      · cases hdown
      · exact hprogress.mono (List.subset_append_left _ _)
      · intro t ht
        obtain ⟨name, hunused⟩ := hs.unused t ht
        refine ⟨_, flatMap_positions_subset hprogress, ?_⟩
        cases t with
        | looping s => exact hunused.inOrder
        | closing s => exact hunused.inOrder.weaken
        | stopped s => exact hunused.inOrder.weaken
  | _ => exact h

theorem Sound.writeMarker (h : r.Sound crc32 cfg.maxRecordBytes root created) :
    (r.step crc32 cfg root .writeMarker).Sound crc32 cfg.maxRecordBytes root created := by
  simp only [step]
  cases hphase : r.phase with
  | marking =>
      have hs := h.starting (by rw [hphase]; simp) (by rw [hphase]; simp)
      have hprogress := hs.progress
      simp only [Progress, hphase] at hprogress
      refine .of_starting h.names ⟨hs.unused, fun _ ↦ rfl, ?_, ?_, ?_⟩ (by simp) (by simp)
      · exact fun _ f hf _ ↦ allIndexed_iff.mp hprogress f hf
      · intro _ files hfiles
        refine hprogress.of_subset ?_
        simp only [older, show r.store = .closed files from hfiles]
        exact List.dropLast_subset files
      · exact hprogress.mono (List.subset_append_left _ _)
  | _ => exact h

theorem step_persist_of_nil (h : r.queue = []) (n : ℕ) : r.step crc32 cfg root (.persist n) = r := by
  obtain ⟨store, marker, durable, phase, recoverySegment, full, waiting, queue⟩ := r
  obtain rfl : queue = [] := h
  simp [step]

theorem Sound.persist (h : r.Sound crc32 cfg.maxRecordBytes root created) (n : ℕ) :
    (r.step crc32 cfg root (.persist n)).Sound crc32 cfg.maxRecordBytes root created := by
  by_cases hdown : r.phase = .down
  · rw [step_persist_of_nil (h.down hdown).queue]
    exact h
  by_cases hstarted : r.phase = .started
  · rw [step_persist_of_nil (h.started hstarted).queue]
    exact h
  have hs := h.starting hdown hstarted
  refine .of_starting h.names (hs.advance (List.subset_append_left _ _) ?_) hdown hstarted
  -- what leaves the queue is durable, so the rows that were sent are the same
  have hsent : r.durable ++ r.queue.take n ++ r.queue.drop n = r.durable ++ r.queue := by
    rw [List.append_assoc, List.take_append_drop]
  have hindexed : r.indexed ⊆ indexed { r with
      durable := r.durable ++ r.queue.take n, queue := r.queue.drop n } := by
    rw [hs.indexed_eq, indexed, List.append_assoc]
    exact List.subset_append_left _ _
  have hall : r.indexed ++ r.queue ⊆ indexed { r with
      durable := r.durable ++ r.queue.take n, queue := r.queue.drop n } ++ r.queue.drop n := by
    rw [hs.indexed_eq, ← hsent]
    exact List.append_subset.mpr ⟨fun row hrow ↦ List.mem_append_left _ (List.mem_append_left _ hrow),
      List.subset_append_right _ _⟩
  have hprogress := hs.progress
  unfold Progress at hprogress ⊢
  cases hphase : r.phase with
  | rebuilding paths =>
      simp only [hphase] at hprogress
      exact fun f hf hnot ↦ (hprogress f hf hnot).mono hall
  | marking =>
      simp only [hphase] at hprogress
      exact hprogress.mono hindexed
  | recovered =>
      simp only [hphase] at hprogress
      exact hprogress.mono hall
  | _ => trivial

/-- The process ends.  Only here the condition is needed: what the start was to index again is the
newest file no more once the writer has one of its own. -/
theorem Sound.exit (h : r.Sound crc32 cfg.maxRecordBytes root created)
    (hsheltered : r.Sheltered crc32 cfg.maxRecordBytes root .exit) :
    (r.step crc32 cfg root .exit).Sound crc32 cfg.maxRecordBytes root created := by
  refine ⟨h.names, fun _ ↦ ⟨rfl, rfl, r.store.files, rfl, fun hmarker ↦ ?_⟩,
    fun hnot ↦ absurd rfl hnot, fun hfalse ↦ ?_⟩
  swap
  · cases hfalse
  by_cases hdown : r.phase = .down
  · obtain ⟨files, hstore, hcovered⟩ := (h.down hdown).closed
    have hindexed : r.indexed = r.durable := by simp only [indexed, hstore, List.append_nil]
    change AllIndexed crc32 _ r.indexed r.store.files.dropLast
    rw [hindexed, hstore]
    exact hcovered hmarker
  cases hstore : r.store with
  | closed files =>
      by_cases hstarted : r.phase = .started
      · have hcovered := (h.started hstarted).older
        simp only [older, hstore] at hcovered
        exact hcovered.of_subset (List.dropLast_subset files)
      · exact (h.starting hdown hstarted).newest hmarker files hstore
  | running t =>
      have holder : (Store.running t).files.dropLast = r.older := by
        simp only [older, hstore, Store.files, Session.disk, List.dropLast_concat]
      rw [holder]
      by_cases hstarted : r.phase = .started
      · exact (h.started hstarted).older
      have hs := h.starting hdown hstarted
      refine allIndexed_iff.mpr fun f hf ↦ ?_
      cases hfull : r.requiresFullIndexRecovery with
      | true => exact hs.other hmarker f hf (.inl hfull)
      | false =>
          by_cases hpath : some (root.path f.name) = r.recoverySegment
          · exact hsheltered rfl hstarted hfull t hstore f hf hpath
          · exact hs.other hmarker f hf (.inr hpath)

/-- The step lemma. -/
theorem Sound.step (h : r.Sound crc32 cfg.maxRecordBytes root created)
    (hclock : created.Pairwise fun a b ↦ root.path a < root.path b)
    (hext : ∀ n, extension (root.path n) = some seg) {e : RuntimeEvent}
    (hsheltered : r.Sheltered crc32 cfg.maxRecordBytes root e) :
    (r.step crc32 cfg root e).Sound crc32 cfg.maxRecordBytes root (created ++ e.newName.toList) := by
  cases e with
  | openStore => exact (h.openStore hclock hext).mono
  | spawnWriter name createdNs => exact h.spawnWriter name createdNs
  | flushVisible io => exact (h.flushVisible hext io).mono
  | index => exact (h.index hclock).mono
  | durableBarrier => exact h.durableBarrier.mono
  | writeMarker => exact h.writeMarker.mono
  | persist n => exact (h.persist n).mono
  | writer e => exact h.writer hclock e
  | deleteSegments paths failing => exact (h.deleteSegments paths failing).mono
  | exit => exact (h.exit hsheltered).mono

/-- The run lemma. -/
theorem Sound.after (h : r.Sound crc32 cfg.maxRecordBytes root created) {es : List RuntimeEvent}
    (hclock : (created ++ newNames es).Pairwise fun a b ↦ root.path a < root.path b)
    (hext : ∀ n, extension (root.path n) = some seg)
    (hsheltered : Along (Runtime.step crc32 cfg root)
      (Runtime.Sheltered crc32 cfg.maxRecordBytes root) r es) :
    (runFrom (Runtime.step crc32 cfg root) r es).Sound crc32 cfg.maxRecordBytes root
      (created ++ newNames es) := by
  induction es generalizing r created with
  | nil => simpa [newNames] using h
  | cons e es ih =>
      have hnames : newNames (e :: es) = e.newName.toList ++ newNames es := by
        rw [newNames, List.filterMap_cons]
        cases e.newName with
        | none => rfl
        | some name => rfl
      rw [hnames, ← List.append_assoc] at hclock ⊢
      have hbefore := hclock.sublist ((List.sublist_append_left created _).trans
        (List.sublist_append_left _ _))
      exact ih (h.step hbefore hext hsheltered.1) hclock hsheltered.2

/-- A directory without the marker can hold anything. -/
theorem sound_closed (files : List SegmentFile) : Sound crc32 m root
    (files.map SegmentFile.name) { store := .closed files } where
  names := List.Sublist.refl _
  down := fun _ ↦ ⟨rfl, rfl, files, rfl, fun hfalse ↦ by cases hfalse⟩
  starting := fun hnot ↦ absurd rfl hnot
  started := fun hfalse ↦ by cases hfalse

/-- When the last barrier of a start answers, every record has a row. -/
theorem Sound.consistent (h : r.Sound crc32 cfg.maxRecordBytes root created)
    (hphase : r.phase = .recovered) :
    (r.step crc32 cfg root .durableBarrier).Consistent crc32 cfg.maxRecordBytes := by
  have hs := h.starting (by rw [hphase]; simp) (by rw [hphase]; simp)
  have hprogress := hs.progress
  simp only [Progress, hphase, hs.indexed_eq] at hprogress
  have hfiles := hs.allIndexed_files hprogress
  simp only [Runtime.step, hphase, settled, Consistent, indexed]
  exact hfiles.mono (List.subset_append_left _ _)

end Runtime

/-- From a directory that was not recovered yet, when every process that ends in a start, after its
writer has created a file, ends with the rows of the segment before that file durable: whenever the
last barrier of a start answers, every record of every segment file has a row in the spool or
projected. -/
theorem index_consistent (crc32 : Bytes → BitVec 32) (cfg : Config) (fmt : Formats)
    (hfmt : fmt.Documented) (label : ℕ → Label) (others : List ℕ) (files : List SegmentFile)
    (es : List RuntimeEvent)
    (hclock : (files.map SegmentFile.name ++ newNames es).Pairwise
      fun a b ↦ (label a).created.millis < (label b).created.millis)
    (hsheltered : Along (Runtime.step crc32 cfg (fmt.root label others))
      (Runtime.Sheltered crc32 cfg.maxRecordBytes (fmt.root label others))
      { store := .closed files } es) :
    Along (Runtime.step crc32 cfg (fmt.root label others))
      (fun r e ↦ r.phase = .recovered → e = .durableBarrier →
        (r.step crc32 cfg (fmt.root label others) e).Consistent crc32 cfg.maxRecordBytes)
      { store := .closed files } es := by
  have hext : ∀ n, extension ((fmt.root label others).path n) = some seg := fun n ↦
    extension_segmentName fmt (label n)
  have hpath : (files.map SegmentFile.name ++ newNames es).Pairwise
      fun a b ↦ (fmt.root label others).path a < (fmt.root label others).path b :=
    hclock.imp fun hlt ↦ hfmt.segmentName_lt (.inl hlt)
  refine along_iff.mpr fun before e later hsplit hphase hbarrier ↦ ?_
  subst hsplit hbarrier
  have hbefore : newNames (before ++ .durableBarrier :: later) = newNames before ++ newNames later :=
    List.filterMap_append
  rw [hbefore, ← List.append_assoc] at hpath
  have hsound := (Runtime.sound_closed files).after (List.pairwise_append.mp hpath).1 hext
    (along_append.mp hsheltered).1
  exact hsound.consistent hphase

/-! ## A crash in a start -/

/-- Every file is created a millisecond after the one before. -/
def tickLabels (n : ℕ) : Label := ⟨newYear (n % 1000) (Nat.mod_lt n (by omega)), 0⟩

/-- The first start, and a record that is flushed to its file. -/
def servingRun : List RuntimeEvent :=
  [.openStore, .spawnWriter (some 0) 5, .flushVisible {}, .index, .durableBarrier, .writeMarker,
    .durableBarrier, .writer (.record (sampleRecord 1 [1]) ⟨{}, true, none, 0⟩ none {}),
    .writer (.flush {})]

/-- A crash before the row of the record is durable, and a start. -/
def restartedRun : List RuntimeEvent :=
  servingRun ++ [.exit] ++ [.openStore, .spawnWriter (some 1) 6, .index, .durableBarrier]

/-- The start crashes after its writer has created the file, and there is another start. -/
def crashedStartRun : List RuntimeEvent :=
  servingRun ++ [.exit, .openStore, .spawnWriter (some 1) 6, .exit, .openStore,
    .spawnWriter (some 2) 7, .index]

theorem along_sheltered_of_not_mem {crc32 : Bytes → BitVec 32} {m : ℕ} {cfg : Config} {root : Root}
    {r : Runtime} {es : List RuntimeEvent} (h : RuntimeEvent.exit ∉ es) :
    Along (Runtime.step crc32 cfg root) (Runtime.Sheltered crc32 m root) r es := by
  refine along_iff.mpr fun before e later hsplit hexit ↦ absurd ?_ h
  rw [hsplit, hexit]
  simp

theorem index_consistent_restartedRun :
    Along (Runtime.step (fun _ ↦ 0) smallConfig (gregorian.root tickLabels [3]))
      (fun r e ↦ r.phase = .recovered → e = .durableBarrier →
        (r.step (fun _ ↦ 0) smallConfig (gregorian.root tickLabels [3]) e).Consistent (fun _ ↦ 0) 64)
      { store := .closed [] } restartedRun := by
  refine index_consistent (fun _ ↦ 0) smallConfig gregorian gregorian_documented tickLabels [3] []
    restartedRun (by decide) (along_append.mpr ⟨along_append.mpr ⟨?_, ?_⟩, ?_⟩)
  · exact along_sheltered_of_not_mem (by decide)
  · have hstarted : (runFrom (Runtime.step (fun _ ↦ 0) smallConfig (gregorian.root tickLabels [3]))
        { store := .closed [] } servingRun).phase = .started := by
      decide +kernel
    exact ⟨fun _ hnot ↦ absurd hstarted hnot, trivial⟩
  · exact along_sheltered_of_not_mem (by decide)

/-- The last start indexes nothing, and the record has no row. -/
theorem not_index_consistent_crashedStartRun :
    (newNames (crashedStartRun ++ [.durableBarrier])).Pairwise
        (fun a b ↦ (tickLabels a).created.millis < (tickLabels b).created.millis) ∧
      ¬ Along (Runtime.step (fun _ ↦ 0) smallConfig (gregorian.root tickLabels [3]))
        (fun r e ↦ r.phase = .recovered → e = .durableBarrier →
          (r.step (fun _ ↦ 0) smallConfig (gregorian.root tickLabels [3]) e).Consistent
            (fun _ ↦ 0) 64)
        { store := .closed [] } (crashedStartRun ++ [.durableBarrier]) := by
  refine ⟨by decide, fun h ↦ ?_⟩
  have hconsistent := along_iff.mp h crashedStartRun .durableBarrier [] rfl (by decide +kernel) rfl
  unfold Runtime.Consistent AllIndexed at hconsistent
  revert hconsistent
  decide +kernel

end Bazalt.Storage
