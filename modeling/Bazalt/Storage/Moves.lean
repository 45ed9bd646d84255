import Bazalt.Storage.Published

/-!
# What a step of the writer is made of

A step settles what the writer has, starts a new file, writes a record or tears one, in
this order and each at most a few times.  An invariant that these moves keep is kept by
every step.  A torn record ends the loop, so two invariants go together: one for the loop,
and a weaker one for what comes after it.
-/

namespace Bazalt.Storage

open Lib

/-- Bytes go from the buffer to the file and rows to the metadata pipeline; rows only when
the buffer is empty. -/
structure Session.Settles (s s' : Session) : Prop where
  sealedFiles : s'.sealedFiles = s.sealedFiles
  name : s'.writer.file.name = s.writer.file.name
  stream : s'.writer.stream = s.writer.stream
  drained : s.writer.file.bytes <+: s'.writer.file.bytes
  retained : s'.writer.retainedBytes = s.writer.retainedBytes
  allRows : s'.allRows = s.allRows
  sent : s.sent <+: s'.sent
  published : s'.sent = s.sent ∨ s'.writer.buffer = []

namespace Session

/-- The active file is sealed and a new one is started. -/
def rotated (s : Session) (name createdNs : ℕ) : Session :=
  { s with
    sealedFiles := s.sealedFiles ++ [s.writer.file]
    writer := .new name createdNs s.writer.retainedBytes }

def wrote (crc32 : Bytes → BitVec 32) {m : ℕ} (s : Session) (f : Frame m) : Session :=
  { s with
    writer := { s.writer with
      buffer := s.writer.buffer ++ f.bytes crc32
      bytes := s.writer.bytes + (f.bytes crc32).length
      retainedBytes := satAdd s.writer.retainedBytes (f.bytes crc32).length }
    pending := s.pending ++ [indexRow f.record s.writer.file.name s.writer.stream.length] }

/-- The writing of a record fails after these bytes. -/
def tore (s : Session) (part : Bytes) : Session :=
  { s with writer := { s.writer with buffer := s.writer.buffer ++ part } }

theorem Settles.refl (s : Session) : s.Settles s :=
  ⟨rfl, rfl, rfl, List.prefix_refl _, rfl, rfl, List.prefix_refl _, .inl rfl⟩

theorem settles_drain (s : Session) (n : ℕ) : s.Settles { s with writer := s.writer.drain n } :=
  ⟨rfl, rfl, s.writer.stream_drain n, List.prefix_append _ _, rfl, rfl, List.prefix_refl _, .inl rfl⟩

theorem settles_fail (s : Session) : s.Settles s.fail :=
  ⟨rfl, rfl, rfl, List.prefix_refl _, rfl, rfl, List.prefix_refl _, .inl rfl⟩

theorem settles_persist (s : Session) (n : ℕ) :
    s.Settles { s with rows := s.rows ++ s.queue.take n, queue := s.queue.drop n } := by
  have hsent : ({ s with rows := s.rows ++ s.queue.take n, queue := s.queue.drop n } :
      Session).sent = s.sent := by
    simp [Session.sent]
  refine ⟨rfl, rfl, rfl, List.prefix_refl _, rfl, ?_, ?_, .inl hsent⟩
  · rw [Session.allRows, hsent]
    rfl
  · rw [hsent]

theorem settles_drift (s : Session) (e : Event) : s.Settles (s.drift e) := by
  cases e with
  | drain n => exact s.settles_drain n
  | persist n => exact s.settles_persist n
  | _ => exact Settles.refl s

theorem settles_flushAndPublish (s : Session) (io : FlushIo) :
    s.Settles (s.flushAndPublish io).1 := by
  have hrows := s.allRows_flushAndPublish io
  have hname := s.flushAndPublish_name io
  obtain ⟨hsealed, hstream, -, -⟩ := s.flushAndPublish_frame io
  have hempty : (s.writer.drain s.writer.buffer.length).buffer = [] := by
    simp [ActiveWriter.drain]
  refine ⟨hsealed, hname, hstream, ?_, ?_, hrows, ?_, ?_⟩ <;> unfold flushAndPublish
  · split
    · exact List.prefix_append _ _
    · dsimp only
      split <;> exact List.prefix_append _ _
  · split
    · rfl
    · dsimp only
      split <;> rfl
  · split
    · exact List.prefix_refl _
    · dsimp only
      split <;> simp [Session.sent]
  · split
    · exact .inl rfl
    · dsimp only
      split
      · exact .inr hempty
      · exact .inr hempty

/-- A flush that succeeds leaves nothing behind. -/
theorem flushAndPublish_ok {s s' : Session} {io : FlushIo} (h : s.flushAndPublish io = (s', .ok ())) :
    s'.writer.buffer = [] ∧ s'.pending = [] := by
  unfold flushAndPublish at h
  split at h
  · cases h
  · dsimp only at h
    split at h
    · cases h
    · obtain rfl := (Prod.mk.inj h).1
      exact ⟨by simp [ActiveWriter.drain], rfl⟩

theorem settles_failOn {α : Type} {s : Session} {r : Session × Except SegmentError α}
    (h : s.Settles r.1) : s.Settles (failOn r) := by
  unfold failOn
  split
  · exact h
  · exact ⟨h.1, h.2, h.3, h.4, h.5, h.6, h.7, h.8⟩

theorem settles_publishBatch (s : Session) (io : FlushIo) : s.Settles (s.publishBatch io) := by
  unfold publishBatch
  split_ifs
  · exact settles_failOn (s.settles_flushAndPublish io)
  · exact Settles.refl s

end Session

/-! ## Invariants of the writer -/

/-- `I` holds in the loop and `J` after it.  `P` says which names a new file can have beside
those that there are, `Q` which records are written and `R` after how many bytes a write can
fail. -/
structure Kept (crc32 : Bytes → BitVec 32) (cfg : Config) (P : List ℕ → ℕ → Prop)
    (Q : ContentRecord → Prop) (R : ℕ → Prop) (I J : Session → Prop) : Prop where
  settle : ∀ {s s' : Session}, s.Settles s' → I s → I s'
  rotate : ∀ {s : Session} {name createdNs : ℕ}, I s → s.writer.buffer = [] → s.pending = [] →
    satAdd s.writer.retainedBytes headerSize ≤ cfg.storeMaxBytes →
    P (s.disk.map SegmentFile.name) name → I (s.rotated name createdNs)
  write : ∀ {s : Session} (f : Frame cfg.maxRecordBytes), I s → Q f.record →
    satAdd s.writer.retainedBytes (f.bytes crc32).length ≤ cfg.storeMaxBytes → I (s.wrote crc32 f)
  tear : ∀ {s : Session} (f : Frame cfg.maxRecordBytes) {n : ℕ}, I s → R n →
    n < (f.bytes crc32).length → J (s.tore ((f.bytes crc32).take n))
  weaken : ∀ {s : Session}, I s → J s
  settleAfter : ∀ {s s' : Session}, s.Settles s' → J s → J s'

def Event.accepted : Event → Option ℕ
  | .record _ _ accepted _ => accepted
  | _ => none

/-- The number of a new file, if the event wants one. -/
def Event.newName : Event → Option ℕ
  | .record _ io _ _ => io.name
  | .sealSegment io _ => io.name
  | _ => none

/-- The event is within the conditions of the invariants. -/
structure Event.Meets (P : List ℕ → ℕ → Prop) (Q : ContentRecord → Prop) (R : ℕ → Prop)
    (names : List ℕ) (e : Event) : Prop where
  newName : ∀ name ∈ e.newName, P names name
  record : ∀ r ∈ appended [e], Q r
  accepted : ∀ n ∈ e.accepted, R n

def Thread.Holds (I J : Session → Prop) : Thread → Prop
  | looping s => I s
  | closing s => J s
  | stopped s => J s

theorem Thread.holds_self {I : Session → Prop} (t : Thread) : t.Holds I I ↔ I t.session := by
  cases t <;> rfl

theorem Thread.Holds.imp {I J I' J' : Session → Prop} {t : Thread} (h : t.Holds I J)
    (hI : ∀ s, I s → I' s) (hJ : ∀ s, J s → J' s) : t.Holds I' J' := by
  cases t with
  | looping s => exact hI s h
  | closing s => exact hJ s h
  | stopped s => exact hJ s h

/-- What holds whatever the thread does. -/
theorem Thread.Holds.session {I J : Session → Prop} {t : Thread} (h : t.Holds I J)
    (hweaken : ∀ s, I s → J s) : J t.session :=
  t.holds_self.mp (h.imp hweaken fun _ hs ↦ hs)

namespace Kept

variable {crc32 : Bytes → BitVec 32} {cfg : Config} {P : List ℕ → ℕ → Prop}
  {Q : ContentRecord → Prop} {R : ℕ → Prop} {I J : Session → Prop} {s : Session}

theorem breakIfFatal (h : Kept crc32 cfg P Q R I J) (hs : I s) : s.breakIfFatal.Holds I J := by
  unfold Session.breakIfFatal
  split_ifs
  · exact h.weaken hs
  · exact hs

theorem commitAndRotate (h : Kept crc32 cfg P Q R I J) (hs : I s) {io : CommitIo}
    (hname : ∀ name ∈ io.name, P (s.disk.map SegmentFile.name) name) :
    I (s.commitAndRotate cfg io).1 := by
  have hsettles := s.settles_flushAndPublish io.flush
  have hflushed := h.settle hsettles hs
  unfold Session.commitAndRotate
  generalize hr : s.flushAndPublish io.flush = r at hsettles hflushed
  obtain ⟨s₁, e | ⟨⟨⟩⟩⟩ := r
  · exact hflushed
  · obtain ⟨hbuffer, hpending⟩ := Session.flushAndPublish_ok hr
    have hnames : s₁.disk.map SegmentFile.name = s.disk.map SegmentFile.name := by
      have h₁ := hsettles.sealedFiles
      have h₂ := hsettles.name
      simp only at h₁ h₂
      simp [Session.disk, h₁, h₂]
    have hdurable := h.settle (s₁.settles_persist s₁.queue.length) hflushed
    rw [List.take_length, List.drop_length] at hdurable
    dsimp only
    split_ifs
    · unfold Session.rotateAfterCommit
      split_ifs with hbudget
      · exact hdurable
      · cases hio : io.name with
        | none => exact hdurable
        | some name =>
            refine h.rotate hdurable hbuffer hpending (not_lt.mp hbudget) ?_
            exact hnames ▸ hname name hio
    · exact hflushed

theorem rotateIfNeeded (h : Kept crc32 cfg P Q R I J) (hs : I s) (encodedLen : ℕ) {io : CommitIo}
    (hname : ∀ name ∈ io.name, P (s.disk.map SegmentFile.name) name) :
    I (s.rotateIfNeeded cfg encodedLen io).1 := by
  unfold Session.rotateIfNeeded
  split_ifs
  · cases s.writer.checkRotationBudget cfg encodedLen with
    | error e => exact hs
    | ok u => exact h.commitAndRotate hs hname
  · exact hs

theorem handleRecord (h : Kept crc32 cfg P Q R I J) (hs : I s) {r : ContentRecord}
    {rotate : CommitIo} {accepted : Option ℕ} (publish : FlushIo) (hr : Q r)
    (hname : ∀ name ∈ rotate.name, P (s.disk.map SegmentFile.name) name)
    (haccepted : ∀ n ∈ accepted, R n) :
    (s.handleRecord crc32 cfg r rotate accepted publish).1.Holds I J := by
  unfold Session.handleRecord
  cases hprep : s.writer.prepareRecord cfg r with
  | error e => exact h.settle s.settles_fail hs
  | ok prepared =>
      have hrotated := h.rotateIfNeeded hs prepared.encodedLen hname
      dsimp only
      generalize s.rotateIfNeeded cfg prepared.encodedLen rotate = rot at hrotated ⊢
      obtain ⟨s₁, e | ⟨⟨⟩⟩⟩ := rot
      · exact h.settle s₁.settles_fail hrotated
      · obtain ⟨f, rfl, hfields, hlen⟩ := Session.frame_of_prepareRecord crc32 hprep
        have hbytes : envelope crc32 (f.fields ++ f.record.data) = f.bytes crc32 := rfl
        simp only [ActiveWriter.writePrepared, ← hfields, hbytes, hlen] at hrotated ⊢
        by_cases hbudget : cfg.storeMaxBytes < satAdd s₁.writer.retainedBytes (f.bytes crc32).length
        · rw [if_pos hbudget]
          exact h.breakIfFatal (h.settle s₁.settles_fail hrotated)
        · rw [if_neg hbudget]
          cases hcut : accepted.filter fun n ↦ decide (n < (f.bytes crc32).length) with
          | some n =>
              obtain ⟨hmem, hn⟩ := Option.filter_eq_some_iff.mp hcut
              have htorn := h.tear f hrotated (haccepted n hmem) (of_decide_eq_true hn)
              exact h.settleAfter (Session.settles_fail _) htorn
          | none =>
              have hwrote := h.write f hrotated hr (not_lt.mp hbudget)
              exact h.breakIfFatal (h.settle (Session.settles_publishBatch _ publish) hwrote)

theorem handleSeal (h : Kept crc32 cfg P Q R I J) (hs : I s) {io : CommitIo} (listed : Bool)
    (hname : ∀ name ∈ io.name, P (s.disk.map SegmentFile.name) name) :
    (s.handleSeal cfg io listed).1.Holds I J := by
  have hrotated := h.commitAndRotate hs hname
  unfold Session.handleSeal
  generalize s.commitAndRotate cfg io = r at hrotated ⊢
  obtain ⟨s₁, e | ⟨⟨⟩⟩⟩ := r
  · exact h.breakIfFatal (h.settle s₁.settles_fail hrotated)
  · dsimp only
    split_ifs
    · exact h.breakIfFatal hrotated
    · exact h.breakIfFatal (h.settle s₁.settles_fail hrotated)

theorem handleTimeout (h : Kept crc32 cfg P Q R I J) (hs : I s) (io : FlushIo) (shutdown : Bool) :
    (s.handleTimeout io shutdown).Holds I J := by
  have hround : I (if s.pending.isEmpty then s else Session.failOn (s.flushAndPublish io)) := by
    split_ifs
    · exact hs
    · exact h.settle (Session.settles_failOn (s.settles_flushAndPublish io)) hs
  unfold Session.handleTimeout
  generalize (if s.pending.isEmpty then s else Session.failOn (s.flushAndPublish io)) = s₁
    at hround ⊢
  dsimp only
  split_ifs
  · exact h.weaken hround
  · exact h.breakIfFatal hround

/-- The step lemma. -/
theorem step (h : Kept crc32 cfg P Q R I J) {t : Thread} (ht : t.Holds I J) {e : Event}
    (he : e.Meets P Q R (t.session.disk.map SegmentFile.name)) :
    (t.step crc32 cfg e).1.Holds I J := by
  cases t with
  | looping s =>
      cases e with
      | record r rotate accepted publish =>
          exact h.handleRecord ht publish (he.record r (by simp [appended])) he.newName he.accepted
      | flush io =>
          exact h.breakIfFatal (h.settle (Session.settles_failOn (s.settles_flushAndPublish io)) ht)
      | sealSegment io listed => exact h.handleSeal ht listed he.newName
      | timeout io shutdown => exact h.handleTimeout ht io shutdown
      | disconnected => exact h.weaken ht
      | finish io => exact h.settle (s.settles_drift _) ht
      | drain n => exact h.settle (s.settles_drift _) ht
      | persist n => exact h.settle (s.settles_drift _) ht
  | closing s =>
      cases e with
      | finish io => exact h.settleAfter (s.settles_flushAndPublish io) ht
      | _ => exact h.settleAfter (s.settles_drift _) ht
  | stopped s => cases e <;> exact h.settleAfter (s.settles_drift _) ht

end Kept

end Bazalt.Storage
