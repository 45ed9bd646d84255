import Bazalt.Replay.Checkpoint
import Bazalt.Replay.Jobs

/-!
# The worker of a job and the replay pipeline

The scheduler of the jobs knows the run of a job by its reports.  The run itself has a reader, its
workers, the collector and the metadata writer, and all of them go on as they like.  Every step of
theirs is a step of the worker that the scheduler knows, or one that it does not see.
-/

namespace Bazalt.Replay

open Lib Matching Storage

/-! ## Where the reader is -/

/-- The reader has taken a segment that it has not counted, has left its loop, or has returned. -/
inductive ReaderPlace where
  | loop (taken : ℕ)
  | leaving
  | returned (ok : Bool)

def ReaderState.place : ReaderState → ReaderPlace
  | .next => .loop 0
  | .scanning _ => .loop 1
  | .scanFailed => .loop 1
  | .sendingBarriers _ => .loop 1
  | .waitingForWorkers _ => .loop 1
  | .sendingHitBarrier => .loop 1
  | .waitingForHits => .loop 1
  | .committing _ => .loop 1
  | .waitingForMetadata _ _ => .loop 1
  | .reporting _ => .loop 1
  | .joiningWorkers => .leaving
  | .joiningCollector => .leaving
  | .finalBarrier _ => .leaving
  | .waitingForFinal _ _ => .leaving
  | .finalReport _ => .leaving
  | .returned ok => .returned ok

/-- What is left and what was returned, by the place of the reader. -/
def ReaderPlace.Shows (left : ℕ) (shutdown : Bool) (w : JobWorker) : ReaderPlace → Prop
  | .loop taken => w.result = none ∧ w.paths.length = left + taken
  | .leaving => w.result = none ∧ (shutdown = true ∨ w.paths = [])
  | .returned true => w.result = some (.ok ())
  | .returned false => w.result.isSome = true

/-- The scheduler sees the run as the worker `w`. -/
structure Shown (progress : List ReplayProgress) (r : ReplayRun) (w : JobWorker) : Prop where
  segmentsDone : w.segmentsDone = r.segmentsDone
  bytesProcessed : w.bytesProcessed = r.bytesProcessed
  initialMatchesFound : w.initialMatchesFound = r.initialMatchesFound
  reports : w.reports = progress
  place : r.reader.place.Shows r.paths.length r.shutdown w

/-! ## The worker with the flag -/

inductive WorkerEvent where
  | shutdown
  | step (e : WorkerStep)

/-- The worker and the flag that it reads. -/
def JobWorker.next (s : JobWorker × Bool) : WorkerEvent → JobWorker × Bool
  | .shutdown => (s.1, true)
  | .step e => (s.1.step s.2 e, s.2)

/-- The run goes on, and the worker can do the same. -/
def Simulated (s : ReplaySystem) (w : JobWorker) (shutdown : Bool) : Prop :=
  ∃ r events, s.run = some r ∧
    Shown s.progress r (runFrom JobWorker.next (w, shutdown) events).1 ∧
    (runFrom JobWorker.next (w, shutdown) events).2 = r.shutdown

section

variable {s s' : ReplaySystem} {r r' : ReplayRun} {w : JobWorker}

/-- A step that the scheduler does not see. -/
theorem Shown.unseen (h : Shown s.progress r w) (hrun : s'.run = some r')
    (hprogress : s'.progress = s.progress) (hshutdown : r'.shutdown = r.shutdown)
    (hcounts : r'.segmentsDone = r.segmentsDone ∧ r'.bytesProcessed = r.bytesProcessed ∧
      r'.initialMatchesFound = r.initialMatchesFound)
    (hplace : r'.reader.place.Shows r'.paths.length r'.shutdown w) : Simulated s' w r.shutdown := by
  refine ⟨r', [], hrun, ⟨?_, ?_, ?_, ?_, hplace⟩, hshutdown.symm⟩
  · rw [hcounts.1]
    exact h.segmentsDone
  · rw [hcounts.2.1]
    exact h.bytesProcessed
  · rw [hcounts.2.2]
    exact h.initialMatchesFound
  · rw [hprogress]
    exact h.reports

/-- The reader goes on from its place. -/
theorem Shown.setReader (h : Shown s.progress r w) {reader : ReaderState}
    (hplace : reader.place.Shows r.paths.length r.shutdown w) :
    Simulated (s.setRun { r with reader }) w r.shutdown :=
  h.unseen rfl rfl rfl ⟨rfl, rfl, rfl⟩ hplace

/-- Nothing happens. -/
theorem Shown.idle (h : Shown s.progress r w) (hrun : s.run = some r) : Simulated s w r.shutdown :=
  h.unseen hrun rfl rfl ⟨rfl, rfl, rfl⟩ h.place

/-- The reader returns an error. -/
theorem Shown.fail (h : Shown s.progress r w) : Simulated (s.setRun { r with reader := .returned false })
    w r.shutdown := by
  refine ⟨_, [.step (.fail "")], rfl, ?_, rfl⟩
  cases hresult : w.result with
  | none =>
      simp only [runFrom_cons, runFrom_nil, JobWorker.next, JobWorker.step, hresult]
      exact ⟨h.segmentsDone, h.bytesProcessed, h.initialMatchesFound, h.reports, rfl⟩
  | some result =>
      simp only [runFrom_cons, runFrom_nil, JobWorker.next, JobWorker.step, hresult]
      refine ⟨h.segmentsDone, h.bytesProcessed, h.initialMatchesFound, h.reports, ?_⟩
      exact Option.isSome_iff_exists.mpr ⟨result, hresult⟩

theorem Shown.sendWork (h : Shown s.progress r w) {i : ℕ} {work : ReplayWork}
    {sent failed : ReaderState} (hsent : sent.place.Shows r.paths.length r.shutdown w)
    (hfailed : Simulated (s.setRun { r with reader := failed }) w r.shutdown) :
    Simulated (s.sendWork r i work sent failed) w r.shutdown := by
  unfold ReplaySystem.sendWork
  split_ifs
  · exact h.unseen rfl rfl rfl ⟨rfl, rfl, rfl⟩ hsent
  · exact hfailed

theorem Shown.requestBarrier (h : Shown s.progress r w) (hrun : s.run = some r)
    {waiting : List ReplayEvent → ReaderState}
    (hwaiting : ∀ before, (waiting before).place.Shows r.paths.length r.shutdown w) :
    Simulated (s.requestBarrier r waiting) w r.shutdown := by
  unfold ReplaySystem.requestBarrier
  split
  · exact h.idle hrun
  · exact h.unseen rfl rfl rfl ⟨rfl, rfl, rfl⟩ (hwaiting _)

theorem Shown.awaitBarrier (h : Shown s.progress r w) (hrun : s.run = some r)
    {before : List ReplayEvent} {returned : ReaderState}
    (hreturned : returned.place.Shows r.paths.length r.shutdown w) :
    Simulated (s.awaitBarrier r before returned) w r.shutdown := by
  unfold ReplaySystem.awaitBarrier
  split_ifs
  · exact h.setReader hreturned
  · exact h.idle hrun

/-- The reader counts the segment and reports it. -/
theorem Shown.report (h : Shown s.progress r w) {matchesSoFar : ℤ}
    (hreader : r.reader = .reporting matchesSoFar) :
    Simulated { s.setRun { r with
        segmentsDone := r.segmentsDone + 1
        bytesProcessed := r.bytesProcessed + r.fileBytes
        reader := .next } with
      progress := s.progress ++ [⟨r.segmentsDone + 1, r.bytesProcessed + r.fileBytes,
        i64SaturatingAdd r.initialMatchesFound matchesSoFar⟩] } w r.shutdown := by
  have hplace := h.place
  rw [hreader] at hplace
  obtain ⟨hresult, hlength⟩ := hplace
  obtain ⟨path, paths, hpaths⟩ := List.exists_cons_of_length_eq_add_one hlength
  refine ⟨_, [.step (.commit r.fileBytes matchesSoFar)], rfl, ?_, rfl⟩
  simp only [runFrom_cons, runFrom_nil, JobWorker.next, JobWorker.step, hresult, hpaths]
  refine ⟨?_, ?_, h.initialMatchesFound, ?_, rfl, ?_⟩
  · dsimp only
    rw [h.segmentsDone]
    rfl
  · dsimp only
    rw [h.bytesProcessed]
  · dsimp only
    rw [h.segmentsDone, h.bytesProcessed, h.initialMatchesFound, h.reports]
  · rw [hpaths] at hlength
    exact Nat.succ.inj hlength

/-- The last report. -/
theorem Shown.finish (h : Shown s.progress r w) {newMatches : ℤ}
    (hreader : r.reader = .finalReport newMatches) :
    Simulated { s.setRun { r with reader := .returned true } with
      progress := s.progress ++ [⟨r.segmentsDone, r.bytesProcessed,
        i64SaturatingAdd r.initialMatchesFound newMatches⟩] } w r.shutdown := by
  have hplace := h.place
  rw [hreader] at hplace
  obtain ⟨hresult, hend⟩ := hplace
  have hgo : (r.shutdown || w.paths.isEmpty) = true := by
    rw [Bool.or_eq_true, List.isEmpty_iff]
    exact hend
  refine ⟨_, [.step (.finish newMatches)], rfl, ?_, rfl⟩
  simp only [runFrom_cons, runFrom_nil, JobWorker.next, JobWorker.step, hresult, if_pos hgo]
  refine ⟨h.segmentsDone, h.bytesProcessed, h.initialMatchesFound, ?_, rfl⟩
  dsimp only
  rw [h.segmentsDone, h.bytesProcessed, h.initialMatchesFound, h.reports]

/-- A step of the reader. -/
theorem Shown.reader (h : Shown s.progress r w) (hrun : s.run = some r) (n : ℕ) :
    Simulated (s.reader n r) w r.shutdown := by
  have hplace := h.place
  unfold ReplaySystem.reader
  cases hreader : r.reader with
  | next =>
      rw [hreader] at hplace
      obtain ⟨hresult, hlength⟩ := hplace
      dsimp only
      split_ifs with hshutdown
      · exact h.setReader ⟨hresult, .inl hshutdown⟩
      · cases hpaths : r.paths with
        | nil =>
            rw [hpaths] at hlength
            exact h.unseen rfl rfl rfl ⟨rfl, rfl, rfl⟩
              ⟨hresult, .inr (List.length_eq_zero_iff.mp hlength)⟩
        | cons path paths =>
            rw [hpaths] at hlength
            exact h.unseen rfl rfl rfl ⟨rfl, rfl, rfl⟩ ⟨hresult, hlength⟩
  | scanning records =>
      rw [hreader] at hplace
      cases records with
      | nil =>
          refine h.unseen rfl rfl rfl ⟨rfl, rfl, rfl⟩ ?_
          dsimp only
          split_ifs with hshutdown
          · exact ⟨hplace.1, .inl hshutdown⟩
          · exact hplace
      | cons record records =>
          dsimp only
          split_ifs with hshutdown
          · exact h.setReader ⟨hplace.1, .inl hshutdown⟩
          · exact h.sendWork hplace (h.setReader hplace)
  | scanFailed =>
      rw [hreader] at hplace
      dsimp only
      split_ifs with hshutdown
      · exact h.setReader ⟨hplace.1, .inl hshutdown⟩
      · exact h.fail
  | sendingBarriers i =>
      rw [hreader] at hplace
      dsimp only
      split_ifs
      · exact h.sendWork hplace h.fail
      · exact h.setReader hplace
  | waitingForWorkers acked =>
      rw [hreader] at hplace
      dsimp only
      split_ifs
      · exact h.setReader hplace
      · split
        · exact h.idle hrun
        · exact h.unseen rfl rfl rfl ⟨rfl, rfl, rfl⟩ hplace
  | sendingHitBarrier =>
      rw [hreader] at hplace
      dsimp only
      split_ifs
      · exact h.unseen rfl rfl rfl ⟨rfl, rfl, rfl⟩ hplace
      · exact h.fail
  | waitingForHits =>
      rw [hreader] at hplace
      dsimp only
      split
      · exact h.idle hrun
      · exact h.setReader hplace
  | committing matchesSoFar =>
      rw [hreader] at hplace
      exact h.requestBarrier hrun fun _ ↦ hplace
  | waitingForMetadata matchesSoFar before =>
      rw [hreader] at hplace
      exact h.awaitBarrier hrun hplace
  | reporting matchesSoFar => exact h.report hreader
  | joiningWorkers =>
      rw [hreader] at hplace
      dsimp only
      split_ifs
      · exact h.setReader hplace
      · exact h.idle hrun
  | joiningCollector =>
      rw [hreader] at hplace
      dsimp only
      split_ifs
      · exact h.idle hrun
      · exact h.setReader hplace
      · exact h.setReader hplace
  | finalBarrier newMatches =>
      rw [hreader] at hplace
      exact h.requestBarrier hrun fun _ ↦ hplace
  | waitingForFinal newMatches before =>
      rw [hreader] at hplace
      exact h.awaitBarrier hrun hplace
  | finalReport newMatches => exact h.finish hreader
  | returned ok => exact h.idle hrun

theorem Shown.worker (h : Shown s.progress r w) (hrun : s.run = some r) (E : Engines) (i : ℕ) :
    Simulated (s.worker E r i) w r.shutdown := by
  unfold ReplaySystem.worker
  by_cases hrunning : (r.workers i).running = true
  · simp only [if_pos hrunning]
    split
    · split_ifs
      · exact h.unseen rfl rfl rfl ⟨rfl, rfl, rfl⟩ h.place
      · exact h.unseen rfl rfl rfl ⟨rfl, rfl, rfl⟩ h.place
    · exact h.unseen rfl rfl rfl ⟨rfl, rfl, rfl⟩ h.place
    · exact h.unseen rfl rfl rfl ⟨rfl, rfl, rfl⟩ h.place
    · exact h.idle hrun
  · simp only [if_neg hrunning]
    exact h.idle hrun

theorem Shown.collector (h : Shown s.progress r w) (hrun : s.run = some r) :
    Simulated (s.collector r) w r.shutdown := by
  unfold ReplaySystem.collector
  split_ifs
  · split
    · exact h.idle hrun
    · exact h.unseen rfl rfl rfl ⟨rfl, rfl, rfl⟩ h.place
    · split
      · exact h.unseen rfl rfl rfl ⟨rfl, rfl, rfl⟩ h.place
      · exact h.unseen rfl rfl rfl ⟨rfl, rfl, rfl⟩ h.place
      · exact h.unseen rfl rfl rfl ⟨rfl, rfl, rfl⟩ h.place
  · exact h.idle hrun

/-- The flag is set. -/
theorem Shown.shutdown (h : Shown s.progress r w) :
    Simulated (s.setRun { r with shutdown := true }) w r.shutdown := by
  refine ⟨_, [.shutdown], rfl,
    ⟨h.segmentsDone, h.bytesProcessed, h.initialMatchesFound, h.reports, ?_⟩, rfl⟩
  have hplace := h.place
  dsimp only
  cases hreader : r.reader.place with
  | loop taken =>
      rw [hreader] at hplace
      exact hplace
  | leaving =>
      rw [hreader] at hplace
      exact ⟨hplace.1, .inl rfl⟩
  | returned ok =>
      rw [hreader] at hplace
      cases ok
      · exact hplace
      · exact hplace

/-- A step of the whole: the process ends, or the worker can do the same. -/
theorem Shown.step (h : Shown s.progress r w) (hrun : s.run = some r) (E : Engines) (n : ℕ)
    (e : ReplayStep) : (s.step E n e).run = none ∨ Simulated (s.step E n e) w r.shutdown := by
  have hmetadata : ∀ e : MetadataStep ReplayEvent,
      Simulated { s with metadata := s.metadata.step e } w r.shutdown :=
    fun _ ↦ h.unseen hrun rfl rfl ⟨rfl, rfl, rfl⟩ h.place
  unfold ReplaySystem.step
  split
  · exact .inl rfl
  · exact .inr (h.idle hrun)
  · exact .inr (hmetadata _)
  · rw [hrun]
    refine .inr ?_
    dsimp only
    split
    · exact h.reader hrun n
    · split
      next records hreader =>
        have hplace := h.place
        rw [hreader] at hplace
        exact h.setReader hplace
      · exact h.idle hrun
    · exact h.fail
    · exact h.shutdown
    · split_ifs
      · exact h.worker hrun E _
      · exact h.idle hrun
    · exact h.unseen rfl rfl rfl ⟨rfl, rfl, rfl⟩ h.place
    · exact h.collector hrun
    · exact h.unseen rfl rfl rfl ⟨rfl, rfl, rfl⟩ h.place
    · exact h.idle hrun

end

theorem run_eq_none (E : Engines) (n : ℕ) {s : ReplaySystem} (h : s.run = none)
    (es : List ReplayStep) : (runFrom (ReplaySystem.step E n) s es).run = none := by
  apply invariant_runFrom_of_step (I := fun s : ReplaySystem ↦ s.run = none) _ es h
  intro s e hs
  unfold ReplaySystem.step
  split
  · rfl
  · exact hs
  · exact hs
  · rw [hs]
    exact hs

theorem Shown.run {s : ReplaySystem} {r : ReplayRun} {w : JobWorker} (h : Shown s.progress r w)
    (hrun : s.run = some r) (E : Engines) (n : ℕ) (es : List ReplayStep) :
    (runFrom (ReplaySystem.step E n) s es).run = none ∨
      Simulated (runFrom (ReplaySystem.step E n) s es) w r.shutdown := by
  induction es generalizing s r w with
  | nil => exact .inr (h.idle hrun)
  | cons e es ih =>
      rw [runFrom_cons]
      rcases h.step hrun E n e with hnone | ⟨r', events, hrun', hshown, hflag⟩
      · exact .inl (run_eq_none E n hnone es)
      · refine (ih hshown hrun').imp_right ?_
        rintro ⟨r'', events', hrun'', hshown', hflag'⟩
        refine ⟨r'', events ++ events', hrun'', ?_⟩
        rw [runFrom_append, show runFrom JobWorker.next (w, r.shutdown) events =
          ((runFrom JobWorker.next (w, r.shutdown) events).1, r'.shutdown) from Prod.ext rfl hflag]
        exact ⟨hshown', hflag'⟩

/-- Whatever the reader, the workers, the collector and the metadata writer do, and in whatever
order: until the process ends, the scheduler sees a run of the worker of its job, with the same
reports and the same flag, which has returned when the reader has.  A segment has its name, its
size and its records. -/
theorem replay_simulated (E : Engines) (n : ℕ) (before : List (MetadataStep ReplayEvent))
    (sc : ReplayScanner) (segments : List (ℕ × ℤ × List ContentRecord)) (segmentsDone : ℕ)
    (bytesProcessed initialMatchesFound : ℤ) (es : List ReplayStep) :
    let s := runFrom (ReplaySystem.step E n)
      (.begin before sc (segments.map Prod.snd) segmentsDone bytesProcessed initialMatchesFound) es
    s.run = none ∨ Simulated s
      ⟨segments.map Prod.fst, segmentsDone, bytesProcessed, initialMatchesFound, [], none⟩ false := by
  have hlength : (segments.map Prod.fst).length = (segments.map Prod.snd).length := by
    rw [List.length_map, List.length_map]
  have hbegin : Shown
      (ReplaySystem.begin before sc (segments.map Prod.snd) segmentsDone bytesProcessed
        initialMatchesFound).progress
      { paths := segments.map Prod.snd
        segmentsDone := segmentsDone
        bytesProcessed := bytesProcessed
        initialMatchesFound := initialMatchesFound
        workers := fun _ ↦ { scanner := sc } }
      ⟨segments.map Prod.fst, segmentsDone, bytesProcessed, initialMatchesFound, [], none⟩ :=
    ⟨rfl, rfl, rfl, rfl, rfl, hlength⟩
  exact hbegin.run rfl E n es

end Bazalt.Replay
