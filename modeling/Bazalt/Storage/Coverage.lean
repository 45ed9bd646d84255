import Bazalt.Storage.Directory

/-!
# Rows and the files they point into

A row that was sent has its record in a file of the directory: the writer sends a row when
the bytes are in the file, files only grow, and a repair cuts off no record.
-/

namespace Bazalt.Storage

open Lib

/-- The row has the time of a record in the file that it names. -/
def Covered (crc32 : Bytes → BitVec 32) (m : ℕ) (files : List SegmentFile)
    (row : ContentIndexRecord) : Prop :=
  ∃ f ∈ files, f.name = row.segmentPath ∧ ∃ r ∈ (scanFile crc32 m f.bytes).1, r.2.tsNs = row.tsNs

/-- The records of the files are all still there. -/
def Grows (crc32 : Bytes → BitVec 32) (m : ℕ) (files files' : List SegmentFile) : Prop :=
  ∀ f ∈ files, ∀ r ∈ (scanFile crc32 m f.bytes).1,
    ∃ f' ∈ files', f'.name = f.name ∧ r ∈ (scanFile crc32 m f'.bytes).1

section

variable {crc32 : Bytes → BitVec 32} {m : ℕ} {files files' files'' : List SegmentFile}

theorem Grows.refl (files : List SegmentFile) : Grows crc32 m files files :=
  fun f hf _ hr ↦ ⟨f, hf, rfl, hr⟩

theorem Grows.trans (h : Grows crc32 m files files') (h' : Grows crc32 m files' files'') :
    Grows crc32 m files files'' := by
  intro f hf r hr
  obtain ⟨f', hf', hname, hr'⟩ := h f hf r hr
  obtain ⟨f'', hf'', hname', hr''⟩ := h' f' hf' r hr'
  exact ⟨f'', hf'', hname'.trans hname, hr''⟩

theorem Covered.grows {row : ContentIndexRecord} (h : Covered crc32 m files row)
    (hgrows : Grows crc32 m files files') : Covered crc32 m files' row := by
  obtain ⟨f, hf, hname, r, hr, hts⟩ := h
  obtain ⟨f', hf', hname', hr'⟩ := hgrows f hf r hr
  exact ⟨f', hf', hname'.trans hname, r, hr', hts⟩

/-- More of a file is read when more of it is written. -/
theorem scanFile_mono {file file' part : Bytes} {createdNs : ℕ} {fs : List (Frame m)}
    (hpart : Torn crc32 m part) (hle : file <+: file')
    (hfile : file' <+: segmentHeader createdNs ++ body crc32 fs ++ part) :
    ∀ r ∈ (scanFile crc32 m file).1, r ∈ (scanFile crc32 m file').1 := by
  obtain ⟨k, -, hscan⟩ := scanFile_prefix crc32 hpart (hle.trans hfile)
  rcases Nat.lt_or_ge file'.length headerSize with hshort | hlong
  · obtain ⟨e, he⟩ := readHeader_short (hle.length_le.trans_lt hshort)
    intro r hr
    rw [scanFile, he] at hr
    cases hr
  · have hhead : segmentHeader createdNs <+: file' := by
      rw [List.append_assoc] at hfile
      exact List.prefix_of_prefix_length_le (List.prefix_append _ _) hfile (by simpa using hlong)
    obtain ⟨l, rfl⟩ := hhead
    rw [List.append_assoc, List.prefix_append_right_inj] at hfile
    obtain ⟨k', torn, rfl, -, htorn⟩ := exists_take_of_prefix_body crc32 hpart hfile
    rw [← List.append_assoc] at hle ⊢
    obtain ⟨j, -, hscan'⟩ := scanFile_prefix crc32 htorn hle
    rw [hscan', (scanFile_body crc32 torn (htorn.readRecord crc32) createdNs _).1,
      ← Session.take_placed]
    exact fun r hr ↦ List.mem_of_mem_take hr

end

/-! ## The writer -/

/-- The active file holds records, and the rows that wait to be sent are about some of them. -/
structure Session.Poised (crc32 : Bytes → BitVec 32) (m : ℕ) (torn : Bytes → Prop) (s : Session) :
    Prop where
  active : ∃ (createdNs : ℕ) (fs : List (Frame m)) (part : Bytes),
    s.writer.stream = segmentHeader createdNs ++ body crc32 fs ++ part ∧ Torn crc32 m part ∧ torn part
  pending : ∀ row ∈ s.pending, row.segmentPath = s.writer.file.name ∧
    ∃ r ∈ (scanFile crc32 m s.writer.stream).1, r.2.tsNs = row.tsNs

/-- What a step of the writer does, that starts with the files `base` and `n` rows sent: the
rows that it sends are about records in the files, and neither they nor the active file have
one of the names `avoid`. -/
structure Session.Tells (crc32 : Bytes → BitVec 32) (m : ℕ) (base : List SegmentFile) (n : ℕ)
    (avoid : List ℕ) (torn : Bytes → Prop) (s : Session) : Prop where
  poised : s.Poised crc32 m torn
  grows : Grows crc32 m base s.disk
  told : ∀ row ∈ s.sent.drop n, Covered crc32 m s.disk row ∧ row.segmentPath ∉ avoid
  counted : n ≤ s.sent.length
  apart : s.writer.file.name ∉ avoid
  same : ∀ f ∈ s.disk, f.name ∈ avoid → f ∈ base

namespace Session.Tells

variable {crc32 : Bytes → BitVec 32} {m n : ℕ} {base : List SegmentFile} {avoid : List ℕ}
  {torn : Bytes → Prop} {s : Session}

theorem start (h : s.Poised crc32 m torn) (hapart : s.writer.file.name ∉ avoid) :
    s.Tells crc32 m s.disk s.sent.length avoid torn where
  poised := h
  grows := Grows.refl _
  told := fun row hrow ↦ by simp at hrow
  counted := le_rfl
  apart := hapart
  same := fun _ hf _ ↦ hf

theorem mem_disk {f : SegmentFile} : f ∈ s.disk ↔ f ∈ s.sealedFiles ∨ f = s.writer.file := by
  simp [Session.disk]

theorem grows_of_settles {s' : Session} (h : s.Poised crc32 m torn) (hs : s.Settles s') :
    Grows crc32 m s.disk s'.disk := by
  obtain ⟨createdNs, fs, part, hstream, htorn, -⟩ := h.active
  intro f hf r hr
  rcases mem_disk.mp hf with hsealed | rfl
  · exact ⟨f, mem_disk.mpr (.inl (hs.sealedFiles ▸ hsealed)), rfl, hr⟩
  · refine ⟨s'.writer.file, mem_disk.mpr (.inr rfl), hs.name, ?_⟩
    have hfile : s'.writer.file.bytes <+: segmentHeader createdNs ++ body crc32 fs ++ part := by
      rw [← hstream, ← hs.stream]
      exact List.prefix_append _ _
    exact scanFile_mono htorn hs.drained hfile r hr

/-- The rows that are sent were waiting, and the others wait on. -/
theorem exists_sent_of_settles {s' : Session} (hs : s.Settles s') :
    ∃ new, s'.sent = s.sent ++ new ∧ s.pending = new ++ s'.pending := by
  obtain ⟨new, hnew⟩ := hs.sent
  have hrows := hs.allRows
  rw [Session.allRows, Session.allRows, ← hnew, List.append_assoc, List.append_cancel_left_eq] at hrows
  exact ⟨new, hnew.symm, hrows.symm⟩

theorem of_settles {s' : Session} (h : s.Tells crc32 m base n avoid torn) (hs : s.Settles s') :
    s'.Tells crc32 m base n avoid torn := by
  obtain ⟨new, hsent, hpending⟩ := exists_sent_of_settles hs
  have hgrows := grows_of_settles h.poised hs
  refine ⟨⟨hs.stream ▸ h.poised.active, ?_⟩, h.grows.trans hgrows, ?_, ?_, hs.name ▸ h.apart, ?_⟩
  · intro row hrow
    rw [hs.name, hs.stream]
    exact h.poised.pending row (hpending ▸ List.mem_append_right _ hrow)
  · intro row hrow
    rw [hsent, List.drop_append_of_le_length h.counted] at hrow
    rcases List.mem_append.mp hrow with hold | hnew
    · exact ⟨(h.told row hold).1.grows hgrows, (h.told row hold).2⟩
    · obtain ⟨hpath, r, hr, hts⟩ := h.poised.pending row (hpending ▸ List.mem_append_left _ hnew)
      have hflushed : s'.writer.buffer = [] := by
        rcases hs.published with hsame | hempty
        · rw [hsent, List.append_right_eq_self] at hsame
          rw [hsame] at hnew
          cases hnew
        · exact hempty
      have hbytes : s'.writer.file.bytes = s.writer.stream := by
        rw [← hs.stream, ActiveWriter.stream, hflushed, List.append_nil]
      refine ⟨⟨s'.writer.file, mem_disk.mpr (.inr rfl), ?_, r, ?_, hts⟩, hpath ▸ h.apart⟩
      · rw [hs.name, hpath]
      · rw [hbytes]
        exact hr
  · rw [hsent, List.length_append]
    exact h.counted.trans (Nat.le_add_right _ _)
  · intro f hf hname
    rcases mem_disk.mp hf with hsealed | rfl
    · exact h.same f (mem_disk.mpr (.inl (hs.sealedFiles ▸ hsealed))) hname
    · exact absurd (hs.name ▸ hname) h.apart

theorem rotated (h : s.Tells crc32 m base n avoid (· = [])) (hpending : s.pending = []) {name : ℕ}
    (hname : name ∉ avoid) (createdNs : ℕ) :
    (s.rotated name createdNs).Tells crc32 m base n avoid (· = []) := by
  have hdisk : (s.rotated name createdNs).disk = s.disk ++ [⟨name, []⟩] := rfl
  have hgrows : Grows crc32 m s.disk (s.rotated name createdNs).disk := fun f hf r hr ↦
    ⟨f, hdisk ▸ List.mem_append_left _ hf, rfl, hr⟩
  refine ⟨⟨⟨createdNs, [], [], ?_, .inl rfl, rfl⟩, ?_⟩, h.grows.trans hgrows,
    fun row hrow ↦ ⟨(h.told row hrow).1.grows hgrows, (h.told row hrow).2⟩, h.counted, hname, ?_⟩
  · simp [Session.rotated, ActiveWriter.new, ActiveWriter.stream, body]
  · intro row hrow
    have hnone : row ∈ s.pending := hrow
    rw [hpending] at hnone
    cases hnone
  · intro f hf hmem
    rw [hdisk, List.mem_append, List.mem_singleton] at hf
    rcases hf with hf | rfl
    · exact h.same f hf hmem
    · exact absurd hmem hname

theorem wrote (h : s.Tells crc32 m base n avoid (· = [])) (f : Frame m)
    (hts : f.record.tsNs < 2 ^ 64) : (s.wrote crc32 f).Tells crc32 m base n avoid (· = []) := by
  obtain ⟨createdNs, fs, part, hstream, -, rfl⟩ := h.poised.active
  have hnext : (s.wrote crc32 f).writer.stream =
      segmentHeader createdNs ++ body crc32 (fs ++ [f]) ++ [] := by
    have happ : (s.wrote crc32 f).writer.stream = s.writer.stream ++ f.bytes crc32 := by
      simp [Session.wrote, ActiveWriter.stream]
    rw [happ, hstream, body_append]
    simp [body]
  have hscan : (scanFile crc32 m (s.wrote crc32 f).writer.stream).1 =
      (scanFile crc32 m s.writer.stream).1 ++
        [(headerSize + (body crc32 fs).length, stored f.record)] := by
    rw [hnext, hstream, (scanFile_body crc32 [] (.inl rfl) createdNs _).1,
      (scanFile_body crc32 [] (.inl rfl) createdNs _).1, placed_append]
    rfl
  refine ⟨⟨⟨createdNs, fs ++ [f], [], hnext, .inl rfl, rfl⟩, ?_⟩, h.grows, h.told, h.counted, h.apart,
    h.same⟩
  intro row hrow
  rw [hscan]
  rcases List.mem_append.mp hrow with hold | hnew
  · obtain ⟨hpath, r, hr, hrts⟩ := h.poised.pending row hold
    exact ⟨hpath, r, List.mem_append_left _ hr, hrts⟩
  · obtain rfl := List.mem_singleton.mp hnew
    refine ⟨rfl, _, List.mem_append_right _ List.mem_cons_self, ?_⟩
    simpa [stored, indexRow] using hts

theorem tore (h : s.Tells crc32 m base n avoid (· = [])) (f : Frame m) {k : ℕ}
    (hk : k < (f.bytes crc32).length) :
    (s.tore ((f.bytes crc32).take k)).Tells crc32 m base n avoid fun _ ↦ True := by
  obtain ⟨createdNs, fs, part, hstream, -, rfl⟩ := h.poised.active
  have htorn : Torn crc32 m ((f.bytes crc32).take k) :=
    .inr ⟨f, List.take_prefix _ _, by rw [List.length_take]; omega⟩
  have hnext : (s.tore ((f.bytes crc32).take k)).writer.stream =
      segmentHeader createdNs ++ body crc32 fs ++ (f.bytes crc32).take k := by
    have happ : (s.tore ((f.bytes crc32).take k)).writer.stream =
        s.writer.stream ++ (f.bytes crc32).take k := by
      simp [Session.tore, ActiveWriter.stream]
    rw [happ, hstream, List.append_nil]
  have hscan : (scanFile crc32 m (s.tore ((f.bytes crc32).take k)).writer.stream).1 =
      (scanFile crc32 m s.writer.stream).1 := by
    rw [hnext, hstream, (scanFile_body crc32 _ (htorn.readRecord crc32) createdNs _).1,
      (scanFile_body crc32 [] (.inl rfl) createdNs _).1]
  refine ⟨⟨⟨createdNs, fs, _, hnext, htorn, trivial⟩, fun row hrow ↦ ?_⟩, h.grows, h.told, h.counted,
    h.apart, h.same⟩
  rw [hscan]
  exact h.poised.pending row hrow

theorem weaken (h : s.Tells crc32 m base n avoid torn) :
    s.Tells crc32 m base n avoid fun _ ↦ True := by
  obtain ⟨createdNs, fs, part, hstream, htorn, -⟩ := h.poised.active
  exact ⟨⟨⟨createdNs, fs, part, hstream, htorn, trivial⟩, h.poised.pending⟩, h.grows, h.told,
    h.counted, h.apart, h.same⟩

theorem kept (crc32 : Bytes → BitVec 32) (cfg : Config) (base : List SegmentFile) (n : ℕ)
    (avoid : List ℕ) : Kept crc32 cfg (fun _ name ↦ name ∉ avoid) (fun r ↦ r.tsNs < 2 ^ 64)
      (fun _ ↦ True) (Session.Tells crc32 cfg.maxRecordBytes base n avoid (· = []))
      (Session.Tells crc32 cfg.maxRecordBytes base n avoid fun _ ↦ True) where
  settle := fun hs h ↦ h.of_settles hs
  rotate := fun h _ hpending _ hname ↦ h.rotated hpending hname _
  write := fun f h hts _ ↦ h.wrote f hts
  tear := fun f _ h _ hk ↦ h.tore f hk
  weaken := weaken
  settleAfter := fun hs h ↦ h.of_settles hs

end Session.Tells

end Bazalt.Storage
