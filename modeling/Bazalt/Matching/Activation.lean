import Bazalt.Lib.Run
import Bazalt.Matching.Masking
import Mathlib.Data.List.TakeWhile

/-!
# Activating a pattern

An L7 worker hands each record to the segment queue and to the live matcher.  It decides
whether the matcher gets a copy before it appends the record, and reads mask, set and
generation again after that.  A rebuild stores the set, then the mask, then counts the
generation; later a seal is put into the segment queue, and the records before it are the
history that the new pattern is replayed on.
-/

namespace Bazalt.Matching

open Lib

/-- What is put into the segment queue.  A seal is for the pattern that was activated with
the generation. -/
inductive Command where
  | record (record : ContentRecord)
  | sealFor (generation : ℕ)
  deriving DecidableEq, Repr

/-- `MatcherWork::Content`. -/
structure Work where
  record : ContentRecord
  snapshot : CompiledPatternSet
  generation : ℕ
  deriving DecidableEq

/-- Where a worker is with a record: after the first look at the mask, after the append,
after the second look, after the load of the set, and before the send. -/
inductive Fanout where
  | idle
  | checked (record : ContentRecord) (interested : Bool)
  | appended (record : ContentRecord)
  | masked (record : ContentRecord)
  | snapshotted (record : ContentRecord) (snapshot : CompiledPatternSet)
  | prepared (work : Work)
  deriving DecidableEq

structure Worker where
  stage : Fanout := .idle
  todo : List ContentRecord := []
  deriving DecidableEq

/-- How far `install_prepared` is. -/
inductive Install where
  | idle
  | storedActive (set : CompiledPatternSet)
  | storedMask
  deriving DecidableEq

/-- The workers and the rebuilds, with what they share; `plan` are the sets that will be
installed, one after the other. -/
structure Pipeline (ι : Type) where
  active : CompiledPatternSet
  interestMask : UInt64
  generation : ℕ
  queue : List Command := []
  submitted : List Work := []
  workers : ι → Worker
  install : Install := .idle
  plan : List CompiledPatternSet := []

/-- A worker goes on, its append accepted or not; a rebuild goes on; a seal is enqueued. -/
inductive Event (ι : Type) where
  | worker (i : ι) (accepted : Bool)
  | install
  | sealFor (generation : ℕ)
  deriving DecidableEq

section

variable {ι : Type} [DecidableEq ι]

namespace Pipeline

def isInterestedView (s : Pipeline ι) (view : ContentView) : Bool :=
  s.interestMask &&& contentViewBit view != 0

def setWorker (s : Pipeline ι) (i : ι) (w : Worker) : Pipeline ι :=
  { s with workers := Function.update s.workers i w }

/-- One step of `fanout_content` with `send_content`. -/
def fanout (s : Pipeline ι) (i : ι) (accepted : Bool) : Pipeline ι :=
  let w := s.workers i
  match w.stage with
  | .idle =>
      match w.todo with
      | [] => s
      | record :: todo =>
          s.setWorker i ⟨.checked record (s.isInterestedView record.view), todo⟩
  | .checked record interested =>
      if accepted then
        ({ s with queue := s.queue ++ [Command.record record] } : Pipeline ι).setWorker i
          ⟨if interested then .appended record else .idle, w.todo⟩
      else s.setWorker i ⟨.idle, w.todo⟩
  | .appended record =>
      s.setWorker i ⟨if s.isInterestedView record.view then .masked record else .idle, w.todo⟩
  | .masked record =>
      s.setWorker i
        ⟨if s.active.isInterested record then .snapshotted record s.active else .idle, w.todo⟩
  | .snapshotted record snapshot =>
      s.setWorker i ⟨.prepared ⟨record, snapshot, s.generation⟩, w.todo⟩
  | .prepared work =>
      { s with submitted := s.submitted ++ [work] }.setWorker i ⟨.idle, w.todo⟩

/-- One step of `install_prepared`. -/
def installNext (s : Pipeline ι) : Pipeline ι :=
  match s.install, s.plan with
  | .idle, [] => s
  | .idle, set :: plan => { s with active := set, install := .storedActive set, plan }
  | .storedActive set, _ => { s with interestMask := set.interestMask, install := .storedMask }
  | .storedMask, _ => { s with generation := s.generation + 1, install := .idle }

/-- The seal for a pattern comes after its rebuild, once. -/
def enqueueSeal (s : Pipeline ι) (generation : ℕ) : Pipeline ι :=
  if generation ≤ s.generation ∧ .sealFor generation ∉ s.queue then
    { s with queue := s.queue ++ [.sealFor generation] }
  else s

def step (s : Pipeline ι) : Event ι → Pipeline ι
  | .worker i accepted => s.fanout i accepted
  | .install => s.installNext
  | .sealFor generation => s.enqueueSeal generation

end Pipeline

/-- The set was compiled from patterns with this one. -/
def CompiledPatternSet.Contains (E : Engines) (set : CompiledPatternSet) (p : PatternRevision) :
    Prop :=
  ∃ ps, CompiledPatternSet.compile E ps = some set ∧ p ∈ ps

/-- The records before the seal. -/
def Pipeline.history (s : Pipeline ι) (generation : ℕ) : List Command :=
  s.queue.takeWhile (· ≠ .sealFor generation)

/-- The record is in the history of the pattern, or was submitted with a set that has it. -/
def Pipeline.Covered (E : Engines) (p : PatternRevision) (generation : ℕ) (s : Pipeline ι)
    (record : ContentRecord) : Prop :=
  .record record ∈ s.history generation ∨
    ∃ w ∈ s.submitted, w.record = record ∧ w.snapshot.Contains E p

/-- When no worker is busy, every accepted record in scope is covered. -/
def Pipeline.ActivationCovered (E : Engines) (p : PatternRevision) (generation : ℕ)
    (s : Pipeline ι) : Prop :=
  (∀ i, (s.workers i).stage = .idle) →
    ∀ record, .record record ∈ s.queue → InScope p record → s.Covered E p generation record

/-- Nothing has happened yet; the pattern will be in the sets from this generation on. -/
structure Pipeline.Activates (E : Engines) (p : PatternRevision) (generation : ℕ) (s : Pipeline ι) :
    Prop where
  queue : s.queue = []
  install : s.install = .idle
  idle : ∀ i, (s.workers i).stage = .idle
  later : s.generation < generation
  plan : ∀ k set, s.plan[k]? = some set → generation ≤ s.generation + k + 1 → set.Contains E p

/-- When the seal is enqueued, no worker holds a record in scope that it found to be of no
interest and has not appended yet. -/
def Pipeline.SealsQuiet (p : PatternRevision) (generation : ℕ) (s : Pipeline ι) : Event ι → Prop
  | .sealFor g => g = generation → ∀ i record,
      (s.workers i).stage = .checked record false → ¬ InScope p record
  | _ => True

end

/-! ## Sets that have the pattern -/

theorem contentViewBit_and (v w : ContentView) :
    contentViewBit v &&& contentViewBit w ≠ 0 ↔ v = w := by
  cases v <;> cases w <;> decide

theorem and_foldl_viewBit (views : List ContentView) (mask : UInt64) (view : ContentView) :
    views.foldl (fun mask v ↦ mask ||| contentViewBit v) mask &&& contentViewBit view ≠ 0 ↔
      mask &&& contentViewBit view ≠ 0 ∨ view ∈ views := by
  induction views generalizing mask with
  | nil => simp
  | cons v views ih =>
      have hdistrib : (mask ||| contentViewBit v) &&& contentViewBit view =
          (mask &&& contentViewBit view) ||| (contentViewBit v &&& contentViewBit view) := by
        apply UInt64.toBitVec_inj.mp
        simp [BitVec.and_or_distrib_right]
      have hbit := contentViewBit_and v view
      rw [List.foldl_cons, ih, hdistrib, List.mem_cons, ne_eq, UInt64.or_eq_zero_iff]
      tauto

theorem mem_keys_of_lookup {κ β : Type} [BEq κ] [LawfulBEq κ] {l : List (κ × β)} {k : κ}
    (h : (l.lookup k).isSome) : k ∈ l.map Prod.fst := by
  obtain ⟨e, he, heq⟩ := List.lookup_isSome_iff.mp h
  exact List.mem_map.mpr ⟨e, he, (beq_iff_eq.mp heq).symm⟩

namespace CompiledPatternSet

variable {E : Engines} {set : CompiledPatternSet} {p : PatternRevision} {record : ContentRecord}

theorem Contains.group (h : set.Contains E p) (hscope : InScope p record) :
    (set.group p.service record.view).isSome := by
  obtain ⟨ps, hset, hp⟩ := h
  exact (group_spec hset p.service record.view).2 ⟨p, hp, hscope.1, rfl, hscope.2.2⟩

theorem Contains.isInterested (h : set.Contains E p) (hscope : InScope p record) :
    set.isInterested record = true := by
  have hgroup := h.group hscope
  rw [CompiledPatternSet.isInterested, Bool.or_eq_true]
  cases hservice : p.service with
  | none =>
      rw [hservice] at hgroup
      exact .inl hgroup
  | some name =>
      rw [hservice] at hgroup
      have hrecord : record.service = some name := by
        rcases hscope.2.1 with hnone | hsame
        · rw [hservice] at hnone
          cases hnone
        · rw [← hsame, hservice]
      right
      rw [groupsFor, hrecord]
      exact hgroup

theorem Contains.interestMask (h : set.Contains E p) (hscope : InScope p record) :
    set.interestMask &&& contentViewBit record.view ≠ 0 := by
  have hgroup := h.group hscope
  rw [CompiledPatternSet.interestMask, and_foldl_viewBit]
  right
  cases hservice : p.service with
  | none =>
      rw [hservice] at hgroup
      exact List.mem_append_left _ (mem_keys_of_lookup hgroup)
  | some name =>
      rw [hservice] at hgroup
      have hkey := mem_keys_of_lookup hgroup
      refine List.mem_append_right _ ?_
      obtain ⟨e, he, heq⟩ := List.mem_map.mp hkey
      exact List.mem_map.mpr ⟨e, he, by rw [heq]⟩

end CompiledPatternSet

/-! ## What holds along a run -/

section

variable {ι : Type} {E : Engines} {p : PatternRevision} {g : ℕ} {s : Pipeline ι}

namespace Pipeline

/-- The generation of the set that is stored. -/
def activeGeneration (s : Pipeline ι) : ℕ :=
  match s.install with
  | .idle => s.generation
  | _ => s.generation + 1

/-- The generation of the mask that is stored. -/
def maskGeneration (s : Pipeline ι) : ℕ :=
  match s.install with
  | .storedMask => s.generation + 1
  | _ => s.generation

/-- The worker has appended the record, and what it has read since has the pattern. -/
def Carries (E : Engines) (p : PatternRevision) (record : ContentRecord) : Fanout → Prop
  | .appended r => r = record
  | .masked r => r = record
  | .snapshotted r snapshot => r = record ∧ snapshot.Contains E p
  | .prepared work => work.record = record ∧ work.snapshot.Contains E p
  | _ => False

/-- What the rebuilds have stored. -/
structure Stored (E : Engines) (p : PatternRevision) (g : ℕ) (s : Pipeline ι) : Prop where
  active : g ≤ s.activeGeneration → s.active.Contains E p
  mask : g ≤ s.maskGeneration → ∀ record, InScope p record →
    s.interestMask &&& contentViewBit record.view ≠ 0
  same : ∀ set, s.install = .storedActive set → set = s.active
  plan : ∀ k set, s.plan[k]? = some set → g ≤ s.activeGeneration + k + 1 → set.Contains E p
  sealAfter : .sealFor g ∈ s.queue → g ≤ s.generation

structure Covering (E : Engines) (p : PatternRevision) (g : ℕ) (s : Pipeline ι) : Prop where
  stored : s.Stored E p g
  quiet : .sealFor g ∈ s.queue → ∀ i record, (s.workers i).stage = .checked record false →
    ¬ InScope p record
  covered : ∀ record, .record record ∈ s.queue → InScope p record →
    s.Covered E p g record ∨ ∃ i, Carries E p record (s.workers i).stage

theorem generation_le (s : Pipeline ι) :
    s.generation ≤ s.activeGeneration ∧ s.generation ≤ s.maskGeneration := by
  unfold activeGeneration maskGeneration
  cases s.install with
  | idle => exact ⟨le_rfl, le_rfl⟩
  | storedActive set => exact ⟨Nat.le_succ _, le_rfl⟩
  | storedMask => exact ⟨Nat.le_succ _, Nat.le_succ _⟩

/-- Once the pattern is sealed, a record in scope passes all looks. -/
theorem Stored.looks (h : s.Stored E p g) (hseal : .sealFor g ∈ s.queue) :
    s.active.Contains E p ∧
      ∀ record, InScope p record → s.isInterestedView record.view = true := by
  have hgen := h.sealAfter hseal
  obtain ⟨hactive, hmask⟩ := s.generation_le
  refine ⟨h.active (hgen.trans hactive), fun record hscope ↦ ?_⟩
  simpa [isInterestedView] using h.mask (hgen.trans hmask) record hscope

theorem mem_history_of_not_sealed {c : Command} (hc : c ∈ s.queue)
    (hseal : .sealFor g ∉ s.queue) : c ∈ s.history g := by
  have hall : s.history g = s.queue := by
    refine List.takeWhile_eq_self_iff.mpr fun c' hc' ↦ ?_
    simp only [ne_eq, decide_not, Bool.not_eq_eq_eq_not, Bool.not_true, decide_eq_false_iff_not]
    rintro rfl
    exact hseal hc'
  rwa [hall]

theorem history_append {queue more : List Command} {c : Command}
    (hc : c ∈ queue.takeWhile (· ≠ .sealFor g)) :
    c ∈ (queue ++ more).takeWhile (· ≠ .sealFor g) := by
  rw [List.takeWhile_append]
  split_ifs with hall
  · exact List.mem_append_left _ (List.takeWhile_sublist _ |>.subset hc)
  · exact hc

/-- A step that only adds to what was appended and submitted keeps a record covered. -/
theorem Covered.mono {s' : Pipeline ι} {record : ContentRecord} (h : s.Covered E p g record)
    (hqueue : s.queue <+: s'.queue) (hsubmitted : s.submitted ⊆ s'.submitted) :
    s'.Covered E p g record := by
  obtain ⟨more, hmore⟩ := hqueue
  rcases h with hhist | ⟨w, hw, hrest⟩
  · left
    rw [history, ← hmore]
    exact history_append hhist
  · exact .inr ⟨w, hsubmitted hw, hrest⟩

theorem Stored.congr {s' : Pipeline ι} (h : s.Stored E p g) (hactive : s'.active = s.active)
    (hmask : s'.interestMask = s.interestMask) (hgen : s'.generation = s.generation)
    (hinstall : s'.install = s.install) (hplan : s'.plan = s.plan)
    (hseal : .sealFor g ∈ s'.queue → .sealFor g ∈ s.queue) : s'.Stored E p g where
  active := by
    rw [hactive, activeGeneration, hinstall, hgen]
    exact h.active
  mask := by
    rw [hmask, maskGeneration, hinstall, hgen]
    exact h.mask
  same := by
    rw [hactive, hinstall]
    exact h.same
  plan := by
    rw [hplan, activeGeneration, hinstall, hgen]
    exact h.plan
  sealAfter := fun hs ↦ hgen ▸ h.sealAfter (hseal hs)

variable [DecidableEq ι]

/-- What a worker's step has to show. -/
theorem Covering.setWorker (h : s.Covering E p g) (i : ι) (w : Worker) (more : List Command)
    {queue : List Command} {submitted : List Work} (hqueue : queue = s.queue ++ more)
    (hsubmitted : s.submitted ⊆ submitted) (hmore : .sealFor g ∉ more)
    (hquiet : .sealFor g ∈ s.queue → ∀ record, w.stage = .checked record false →
      ¬ InScope p record)
    (hnew : ∀ record, .record record ∈ more → InScope p record →
      Carries E p record w.stage ∨ .record record ∈ queue ∧ .sealFor g ∉ s.queue)
    (hkeep : ∀ record, InScope p record → Carries E p record (s.workers i).stage →
      Carries E p record w.stage ∨ .sealFor g ∉ s.queue ∨
        ∃ work ∈ submitted, work.record = record ∧ work.snapshot.Contains E p) :
    ({ s with queue, submitted } : Pipeline ι).setWorker i w |>.Covering E p g := by
  have hseal : .sealFor g ∈ queue → .sealFor g ∈ s.queue := fun hs ↦ by
    rw [hqueue, List.mem_append] at hs
    exact hs.resolve_right hmore
  have hmono : ∀ record, s.Covered E p g record →
      (({ s with queue, submitted } : Pipeline ι).setWorker i w).Covered E p g record :=
    fun record hc ↦ hc.mono (by rw [hqueue]; exact List.prefix_append _ _) hsubmitted
  have hhistory : ∀ record, .record record ∈ queue → .sealFor g ∉ s.queue →
      (({ s with queue, submitted } : Pipeline ι).setWorker i w).Covered E p g record :=
    fun record hr hs ↦ .inl (mem_history_of_not_sealed hr fun hs' ↦ hs (hseal hs'))
  refine ⟨h.stored.congr rfl rfl rfl rfl rfl hseal, fun hs j record hj ↦ ?_,
    fun record hr hscope ↦ ?_⟩
  · by_cases hij : j = i
    · subst hij
      simp only [Pipeline.setWorker, Function.update_self] at hj
      exact hquiet (hseal hs) record hj
    · simp only [Pipeline.setWorker, Function.update_of_ne hij] at hj
      exact h.quiet (hseal hs) j record hj
  · have hself : ∀ {record}, Carries E p record w.stage → ∃ j, Carries E p record
        ((({ s with queue, submitted } : Pipeline ι).setWorker i w).workers j).stage :=
      fun hc ↦ ⟨i, by simpa [Pipeline.setWorker] using hc⟩
    have hmem := hr
    change .record record ∈ queue at hmem
    rw [hqueue, List.mem_append] at hmem
    rcases hmem with hmem | hmem
    · rcases h.covered record hmem hscope with hc | ⟨j, hj⟩
      · exact .inl (hmono record hc)
      · by_cases hij : j = i
        · subst hij
          rcases hkeep record hscope hj with hc | hs | hsub
          · exact .inr (hself hc)
          · exact .inl (hhistory record hr hs)
          · exact .inl (.inr hsub)
        · exact .inr ⟨j, by simpa [Pipeline.setWorker, Function.update_of_ne hij] using hj⟩
    · rcases hnew record hmem hscope with hc | ⟨hq, hs⟩
      · exact .inr (hself hc)
      · exact .inl (hhistory record hq hs)

theorem Covering.fanout (h : s.Covering E p g) (i : ι) (accepted : Bool) :
    (s.fanout i accepted).Covering E p g := by
  unfold Pipeline.fanout
  cases hstage : (s.workers i).stage with
  | idle =>
      cases htodo : (s.workers i).todo with
      | nil => simpa [hstage, htodo] using h
      | cons record todo =>
          simp only [hstage, htodo]
          refine h.setWorker i _ [] (by simp) (fun _ ↦ id) (by simp) ?_ (by simp) ?_
          · rintro hs r hr hscope
            obtain ⟨rfl, hno⟩ := Fanout.checked.inj hr
            rw [(h.stored.looks hs).2 _ hscope] at hno
            cases hno
          · rintro r - hc
            rw [hstage] at hc
            exact hc.elim
  | checked record interested =>
      simp only [hstage]
      cases accepted with
      | true =>
          simp only [if_true]
          refine h.setWorker i _ [.record record] rfl (fun _ ↦ id) (by simp) ?_ ?_ ?_
          · rintro - r hr
            cases interested <;> cases hr
          · intro r hr hscope
            obtain rfl : r = record := by simpa using hr
            cases hint : interested with
            | true => exact .inl rfl
            | false =>
                refine .inr ⟨by simp, fun hs ↦ ?_⟩
                exact h.quiet hs i r (hint ▸ hstage) hscope
          · rintro r - hc
            rw [hstage] at hc
            exact hc.elim
      | false =>
          simp only [Bool.false_eq_true, if_false]
          refine h.setWorker i _ [] (by simp) (fun _ ↦ id) (by simp) ?_ (by simp) ?_
          · rintro - r ⟨⟩
          · rintro r - hc
            rw [hstage] at hc
            exact hc.elim
  | appended record =>
      simp only [hstage]
      refine h.setWorker i _ [] (by simp) (fun _ ↦ id) (by simp) ?_ (by simp) ?_
      · intro hs r hr
        split_ifs at hr
      · intro r hscope hc
        rw [hstage] at hc
        obtain rfl : record = r := hc
        by_cases hs : .sealFor g ∈ s.queue
        · rw [(h.stored.looks hs).2 _ hscope]
          exact .inl rfl
        · exact .inr (.inl hs)
  | masked record =>
      simp only [hstage]
      refine h.setWorker i _ [] (by simp) (fun _ ↦ id) (by simp) ?_ (by simp) ?_
      · intro hs r hr
        split_ifs at hr
      · intro r hscope hc
        rw [hstage] at hc
        obtain rfl : record = r := hc
        by_cases hs : .sealFor g ∈ s.queue
        · have hactive := (h.stored.looks hs).1
          rw [hactive.isInterested hscope]
          exact .inl ⟨rfl, hactive⟩
        · exact .inr (.inl hs)
  | snapshotted record snapshot =>
      simp only [hstage]
      refine h.setWorker i _ [] (by simp) (fun _ ↦ id) (by simp) ?_ (by simp) ?_
      · rintro - r ⟨⟩
      · intro r hscope hc
        rw [hstage] at hc
        exact .inl hc
  | prepared work =>
      simp only [hstage]
      refine h.setWorker i _ [] (by simp) (fun _ hw ↦ List.mem_append_left _ hw) (by simp)
        ?_ (by simp) ?_
      · rintro - r ⟨⟩
      · intro r hscope hc
        rw [hstage] at hc
        exact .inr (.inr ⟨work, by simp, hc⟩)

omit [DecidableEq ι] in
theorem Stored.installNext (h : s.Stored E p g) : s.installNext.Stored E p g := by
  unfold Pipeline.installNext
  split
  · exact h
  · rename_i set plan hinstall hplan
    have hset : g ≤ s.generation + 1 → set.Contains E p := fun hle ↦ by
      refine h.plan 0 set (by simp [hplan]) ?_
      simpa [activeGeneration, hinstall] using hle
    refine ⟨fun hle ↦ hset hle, fun hle ↦ h.mask ?_, fun set' hset' ↦ ?_, fun k set' hk hle ↦ ?_,
      h.sealAfter⟩
    · simpa [maskGeneration, hinstall] using hle
    · exact (Install.storedActive.inj hset').symm
    · refine h.plan (k + 1) set' (by simpa [hplan] using hk) ?_
      simp only [activeGeneration, hinstall] at hle ⊢
      omega
  · rename_i set hinstall
    have hactive := h.active
    have hplan := h.plan
    simp only [activeGeneration, hinstall] at hactive hplan
    have hsame := h.same set hinstall
    refine ⟨hactive, fun hle record hscope ↦ ?_, fun set' hset' ↦ ?_, hplan, h.sealAfter⟩
    · rw [hsame]
      exact (hactive hle).interestMask hscope
    · cases hset'
  · rename_i hinstall
    have hactive := h.active
    have hmask := h.mask
    have hplan := h.plan
    simp only [activeGeneration, maskGeneration, hinstall] at hactive hmask hplan
    refine ⟨hactive, hmask, fun set' hset' ↦ ?_, hplan, fun hs ↦ ?_⟩
    · cases hset'
    · have := h.sealAfter hs
      simp only
      omega

omit [DecidableEq ι] in
theorem installNext_frame (s : Pipeline ι) : s.installNext.queue = s.queue ∧
    s.installNext.submitted = s.submitted ∧ s.installNext.workers = s.workers := by
  unfold Pipeline.installNext
  split <;> exact ⟨rfl, rfl, rfl⟩

/-- The step lemma. -/
theorem Covering.step (h : s.Covering E p g) (e : Event ι) (hquiet : s.SealsQuiet p g e) :
    (s.step e).Covering E p g := by
  cases e with
  | worker i accepted => exact h.fanout i accepted
  | install =>
      obtain ⟨hqueue, hsubmitted, hworkers⟩ := s.installNext_frame
      refine ⟨h.stored.installNext, ?_, ?_⟩
      · simpa only [Pipeline.step, hqueue, hworkers] using h.quiet
      · simpa only [Pipeline.step, hqueue, hworkers, Covered, history, hsubmitted] using h.covered
  | sealFor g' =>
      simp only [Pipeline.step, enqueueSeal]
      split_ifs with hnew
      · have hmono : ∀ record, s.Covered E p g record →
            ({ s with queue := s.queue ++ [.sealFor g'] } : Pipeline ι).Covered E p g record :=
          fun record hc ↦ hc.mono (List.prefix_append _ _) fun _ ↦ id
        have hcovered : ∀ record, .record record ∈ s.queue ++ [Command.sealFor g'] →
            InScope p record →
            ({ s with queue := s.queue ++ [.sealFor g'] } : Pipeline ι).Covered E p g record ∨
              ∃ i, Carries E p record (s.workers i).stage := by
          intro record hr hscope
          have hold : .record record ∈ s.queue := by simpa using hr
          exact (h.covered record hold hscope).imp (hmono record) id
        by_cases hg : g' = g
        · refine ⟨⟨h.stored.active, h.stored.mask, h.stored.same, h.stored.plan, fun _ ↦ ?_⟩,
            fun _ ↦ hquiet hg, hcovered⟩
          exact hg ▸ hnew.1
        · have hseal : .sealFor g ∈ s.queue ++ [Command.sealFor g'] → .sealFor g ∈ s.queue :=
            fun hs ↦ by simpa [Ne.symm hg] using hs
          exact ⟨h.stored.congr rfl rfl rfl rfl rfl hseal, fun hs ↦ h.quiet (hseal hs), hcovered⟩
      · exact h

omit [DecidableEq ι] in
theorem Activates.covering (h : s.Activates E p g) : s.Covering E p g := by
  have hlater := h.later
  have hgen : s.activeGeneration = s.generation ∧ s.maskGeneration = s.generation := by
    simp [activeGeneration, maskGeneration, h.install]
  refine ⟨⟨fun hle ↦ ?_, fun hle ↦ ?_, fun set hset ↦ ?_, ?_, ?_⟩, ?_, ?_⟩
  · omega
  · omega
  · rw [h.install] at hset
    cases hset
  · rw [hgen.1]
    exact h.plan
  · simp [h.queue]
  · simp [h.queue]
  · simp [h.queue]

end Pipeline

theorem activationCovered_of_sealsQuiet [DecidableEq ι] (E : Engines) (p : PatternRevision) (g : ℕ)
    (s : Pipeline ι) (hstart : s.Activates E p g) (es : List (Event ι))
    (hquiet : Along Pipeline.step (Pipeline.SealsQuiet p g) s es) :
    (runFrom Pipeline.step s es).ActivationCovered E p g := by
  have hend := invariant_runFrom (I := Pipeline.Covering E p g) (fun s e hs he ↦ hs.step e he)
    hstart.covering hquiet
  intro hidle record hr hscope
  rcases hend.covered record hr hscope with hc | ⟨i, hi⟩
  · exact hc
  · rw [hidle i] at hi
    exact hi.elim

end

/-! ## Runs -/

def flagPattern : PatternRevision := { id := 1, revision := 1, expression := "flag", kind := .text }

/-- A set for one text pattern. -/
def flagSet : CompiledPatternSet where
  globalGroups := [.tcpRaw, .httpRequestDecodedBody, .httpResponseDecodedBody].map fun view ↦
    (view, { literals := [[102, 108, 97, 103]], literalMeta := [flagPattern], maxLiteralLen := 4 })
  serviceGroups := []
  ignoreRevisions := []

def rawRecord (id : Uuid) (streamOffset : ℕ) (data : Bytes) : ContentRecord :=
  ⟨id, 7, 1000, none, .aToB, .tcpRaw, streamOffset, data⟩

/-- One worker with two records; the first pattern is about to be activated. -/
def firstActivation : Pipeline (Fin 1) where
  active := ⟨[], [], []⟩
  interestMask := 0
  generation := 1
  workers := fun _ ↦ ⟨.idle, [rawRecord 1 0 [102, 108], rawRecord 2 2 [97, 103]]⟩
  plan := [flagSet]

theorem flagSet_contains : flagSet.Contains referenceEngines flagPattern :=
  ⟨[flagPattern], by decide +kernel, by simp⟩

theorem activates_firstActivation :
    firstActivation.Activates referenceEngines flagPattern 2 where
  queue := rfl
  install := rfl
  idle := fun _ ↦ rfl
  later := by decide
  plan := by
    intro k set hk _
    have hmem := List.mem_of_getElem? hk
    rw [List.mem_singleton.mp hmem]
    exact flagSet_contains

/-- The first record is appended before the seal, the second is submitted after it. -/
def coveredRun : List (Event (Fin 1)) :=
  [.worker 0 true, .install, .worker 0 true, .install, .install, .sealFor 2, .worker 0 true,
    .worker 0 true, .worker 0 true, .worker 0 true, .worker 0 true, .worker 0 true]

theorem activationCovered_coveredRun :
    (runFrom Pipeline.step firstActivation coveredRun).queue =
        [.record (rawRecord 1 0 [102, 108]), .sealFor 2, .record (rawRecord 2 2 [97, 103])] ∧
      (runFrom Pipeline.step firstActivation coveredRun).ActivationCovered referenceEngines
        flagPattern 2 := by
  refine ⟨by decide +kernel, ?_⟩
  refine activationCovered_of_sealsQuiet referenceEngines flagPattern 2 firstActivation
    activates_firstActivation coveredRun ?_
  refine ⟨trivial, trivial, trivial, trivial, trivial, ?_, trivial, trivial, trivial, trivial,
    trivial, trivial, trivial⟩
  intro _ i record hstage
  have hidle : ((runFrom Pipeline.step firstActivation [.worker 0 true, .install, .worker 0 true,
      .install, .install]).workers i).stage = .idle := by
    fin_cases i
    decide +kernel
  cases hidle.symm.trans hstage

/-- The worker looks at the mask, the pattern is activated and sealed, and only then is
the record appended. -/
def missedRun : List (Event (Fin 1)) :=
  [.worker 0 true, .install, .install, .install, .sealFor 2, .worker 0 true]

theorem not_activationCovered_missedRun :
    ¬ (runFrom Pipeline.step firstActivation missedRun).ActivationCovered referenceEngines
      flagPattern 2 := by
  intro h
  have hidle : ∀ i, ((runFrom Pipeline.step firstActivation missedRun).workers i).stage = .idle := by
    decide +kernel
  have hqueue : .record (rawRecord 1 0 [102, 108]) ∈
      (runFrom Pipeline.step firstActivation missedRun).queue := by
    decide +kernel
  have hnone : (runFrom Pipeline.step firstActivation missedRun).submitted = [] := by
    decide +kernel
  rcases h hidle _ hqueue (by decide +kernel) with hhist | ⟨w, hw, -⟩
  · revert hhist
    decide +kernel
  · rw [hnone] at hw
    cases hw

end Bazalt.Matching
