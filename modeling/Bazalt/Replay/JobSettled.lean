import Bazalt.Replay.JobProgress

/-!
# Settled jobs

When a process starts, it takes up every job that an earlier process left, and then all patterns
that it is sent.  As long as the database and the snapshots do not fail, no job is forgotten: when
the scheduler has nothing to do, every job is completed or failed, and every enabled pattern is
named by one of them.
-/

namespace Bazalt.Replay

open Lib Matching

namespace JobSystem

/-- The requests that have to succeed for it; those that store a report may fail. -/
def Reliable (s : JobSystem) : JobEvent → Prop
  | .crash => False
  | .list ok => ok = true
  | .recover _ _ _ o => o = .done
  | .execute snapshot id _ created started =>
      snapshot.isSome = true ∧ id ∉ s.table.map JobRow.id ∧ created = .done ∧ started = .done
  | .finish o => o = .done
  | _ => True

instance (s : JobSystem) : (event : JobEvent) → Decidable (s.Reliable event)
  | .crash => inferInstanceAs (Decidable False)
  | .list ok => inferInstanceAs (Decidable (ok = true))
  | .recover _ _ _ o => inferInstanceAs (Decidable (o = .done))
  | .execute snapshot id _ created started => inferInstanceAs (Decidable
      (snapshot.isSome = true ∧ id ∉ s.table.map JobRow.id ∧ created = .done ∧ started = .done))
  | .finish o => inferInstanceAs (Decidable (o = .done))
  | .start => .isTrue trivial
  | .shutdown => .isTrue trivial
  | .enqueue _ => .isTrue trivial
  | .recovered => .isTrue trivial
  | .receive => .isTrue trivial
  | .coalesce => .isTrue trivial
  | .worker _ => .isTrue trivial
  | .report _ => .isTrue trivial
  | .stop => .isTrue trivial

end JobSystem

/-- The jobs that are left to do are those that the scheduler knows of. -/
def JobPhase.Known (table : JobTable) : JobPhase → Prop
  | .listing => table.length ≤ 1000
  | .recovering jobs => ∀ row ∈ table, row.Open → row ∈ jobs
  | .executing e rest => ∀ row ∈ table, row.Open → row.id = e.row.id ∨ row ∈ rest
  | _ => ∀ row ∈ table, ¬ row.Open

def JobPhase.window : JobPhase → List PatternRevision
  | .coalescing patterns => patterns
  | _ => []

/-- Some job looks for the pattern. -/
def Named (table : JobTable) (pattern : PatternRevision) : Prop :=
  ∃ row ∈ table, (pattern.id, pattern.revision) ∈ row.patternRevisions

/-- No job and no pattern is forgotten. -/
structure Attended (table : JobTable) (p : JobProcess) : Prop where
  known : p.phase.Known table
  named : ∀ pattern ∈ p.accepted, pattern.enabled = true →
    pattern ∈ p.channel ∨ pattern ∈ p.phase.window ∨ Named table pattern

theorem Named.grew {table table' : JobTable} {pattern : PatternRevision} (h : Named table pattern)
    (hgrew : Grew table table') : Named table' pattern := by
  obtain ⟨row, hrow, hmem⟩ := h
  obtain ⟨row', hrow', ⟨_, _, _, rfl⟩, -⟩ := hgrew row hrow
  exact ⟨_, hrow', hmem⟩

/-- A step of the scheduler that takes no pattern. -/
theorem Attended.advance {table table' : JobTable} {p p' : JobProcess} (h : Attended table p)
    (hgrew : Grew table table') (hwindow : p.phase.window = []) (haccepted : p'.accepted = p.accepted)
    (hchannel : p'.channel = p.channel) (hknown : p'.phase.Known table') : Attended table' p' := by
  refine ⟨hknown, fun pattern hpattern henabled ↦ ?_⟩
  rw [haccepted] at hpattern
  rcases h.named pattern hpattern henabled with hwaiting | hwindowed | hnamed
  · exact .inl (hchannel ▸ hwaiting)
  · rw [hwindow] at hwindowed
    exact absurd hwindowed List.not_mem_nil
  · exact .inr (.inr (hnamed.grew hgrew))

theorem mem_updateReplayProgress_done {table : JobTable} {id : Uuid} {status : JobStatus}
    {p : ReplayProgress} {error : Option JobError} {row : JobRow}
    (h : row ∈ table.updateReplayProgress .done id status p error) :
    row ∈ table ∧ row.id ≠ id ∨ ∃ old ∈ table, old.id = id ∧ row = old.update status p error := by
  obtain ⟨old, hold, rfl⟩ := List.mem_map.mp h
  split_ifs with hid
  · exact .inr ⟨old, hold, hid, rfl⟩
  · exact .inl ⟨hold, hid⟩

/-- The update that settles a job leaves the others. -/
theorem known_settled {table : JobTable} {id : Uuid} {status : JobStatus} {p : ReplayProgress}
    {error : Option JobError} {rest : List JobRow} (hstatus : ¬ (status = .queued ∨ status = .running))
    (hknown : ∀ row ∈ table, row.Open → row.id = id ∨ row ∈ rest) :
    ∀ row ∈ table.updateReplayProgress .done id status p error, row.Open → row ∈ rest := by
  intro row hrow hopen
  rcases mem_updateReplayProgress_done hrow with ⟨hmem, hne⟩ | ⟨old, -, -, rfl⟩
  · exact (hknown row hmem hopen).resolve_left hne
  · exact absurd hopen hstatus

theorem known_running {table : JobTable} {o : Outcome} {id : Uuid} {status : JobStatus}
    {p : ReplayProgress} {error : Option JobError} {rest : List JobRow}
    (hknown : ∀ row ∈ table, row.Open → row.id = id ∨ row ∈ rest) :
    ∀ row ∈ table.updateReplayProgress o id status p error, row.Open → row.id = id ∨ row ∈ rest := by
  intro row hrow hopen
  rcases mem_updateReplayProgress hrow with hmem | ⟨old, -, hid, rfl⟩
  · exact hknown row hmem hopen
  · exact .inl hid

namespace JobSystem

variable {s : JobSystem} {p : JobProcess} {row : JobRow} {rest : List JobRow}

/-- The process goes on and no pattern is lost, or it is shutting down. -/
def Settling (s : JobSystem) : Prop :=
  ∃ p, s.process = some p ∧ (p.shutdown = true ∨ Attended s.table p)

theorem known_cons {table : JobTable} (h : JobPhase.Known table (.recovering (row :: rest))) :
    ∀ other ∈ table, other.Open → other.id = row.id ∨ other ∈ rest := by
  intro other hother hopen
  rcases List.mem_cons.mp (h other hother hopen) with rfl | hlater
  · exact .inl rfl
  · exact .inr hlater

theorem settling_executeJob (h : Attended s.table p) (hwindow : p.phase.window = [])
    (hknown : ∀ other ∈ s.table, other.Open → other.id = row.id ∨ other ∈ rest) {paths : List ℕ}
    (hgrew : Grew s.table (s.executeJob p row paths .done rest).table) :
    (s.executeJob p row paths .done rest).Settling := by
  refine ⟨_, rfl, .inr (h.advance hgrew hwindow rfl rfl ?_)⟩
  exact known_running (o := .done) (p := row.progress) hknown

theorem settling_failJob (h : Attended s.table p) (hwindow : p.phase.window = [])
    (hknown : ∀ other ∈ s.table, other.Open → other.id = row.id ∨ other ∈ rest) {error : JobError}
    (hgrew : Grew s.table (s.failJob p row error .done rest).table) :
    (s.failJob p row error .done rest).Settling := by
  refine ⟨_, rfl, .inr (h.advance hgrew hwindow rfl rfl ?_)⟩
  exact known_settled (by decide) hknown

theorem settling_recoverJob (h : Attended s.table p) (hphase : p.phase = .recovering (row :: rest))
    {patterns : Option PatternTable} {listed : List ℕ} {present : ℕ → Bool}
    (hgrew : Grew s.table (s.recoverJob p patterns listed present .done row rest).table) :
    (s.recoverJob p patterns listed present .done row rest).Settling := by
  have hwindow : p.phase.window = [] := by
    rw [hphase]
    rfl
  have hknown := h.known
  rw [hphase] at hknown
  unfold JobSystem.recoverJob at hgrew ⊢
  split at hgrew
  · exact settling_failJob h hwindow (known_cons hknown) hgrew
  · split at hgrew
    · exact settling_executeJob h hwindow (known_cons hknown) hgrew
    · exact settling_failJob h hwindow (known_cons hknown) hgrew
  · exact settling_failJob h hwindow (known_cons hknown) hgrew

theorem verdictOf_ne (result : Except String Unit) :
    ¬ ((verdictOf result).1 = .queued ∨ (verdictOf result).1 = .running) := by
  rcases result with message | _
  · simp [verdictOf]
  · simp [verdictOf]

theorem settling_finishJob (h : Attended s.table p) (hprocess : s.process = some p)
    (hup : p.shutdown = false) {e : Execution} (hphase : p.phase = .executing e rest)
    (hgrew : Grew s.table (s.finishJob p e rest .done).table) :
    (s.finishJob p e rest .done).Settling := by
  have hknown := h.known
  rw [hphase] at hknown
  unfold JobSystem.finishJob at hgrew ⊢
  cases hresult : e.worker.result with
  | none => exact ⟨p, hprocess, .inr h⟩
  | some result =>
      rw [hresult] at hgrew
      refine ⟨_, rfl, .inr (h.advance hgrew (by rw [hphase]; rfl) rfl rfl ?_)⟩
      simp only [hup, Bool.false_eq_true, if_false]
      exact known_settled (verdictOf_ne result) hknown

theorem settling_executeNew (hok : s.Ok) (h : Attended s.table p) (hprocess : s.process = some p)
    {patterns : List PatternRevision} (hphase : p.phase = .coalescing patterns)
    {snapshot : Option SegmentSet} {id : Uuid} {createdAt : ℕ} (hsnapshot : snapshot.isSome = true)
    (hid : id ∉ s.table.map JobRow.id) :
    (s.executeNew p patterns snapshot id createdAt .done .done).Settling := by
  have hknown := h.known
  have hnamed := h.named
  rw [hphase] at hknown hnamed
  obtain ⟨segments, rfl⟩ := Option.isSome_iff_exists.mp hsnapshot
  unfold JobSystem.executeNew
  cases henabled : patterns.filter PatternRevision.enabled with
  | nil =>
      refine ⟨_, rfl, .inr ⟨hknown, fun pattern hpattern hon ↦ ?_⟩⟩
      rcases hnamed pattern hpattern hon with hwaiting | hwindow | hnamed
      · exact .inl hwaiting
      · have hmem : pattern ∈ patterns.filter PatternRevision.enabled :=
          List.mem_filter.mpr ⟨hwindow, hon⟩
        rw [henabled] at hmem
        exact absurd hmem List.not_mem_nil
      · exact .inr (.inr hnamed)
  | cons first others =>
      have hcreate := hok.create (fun p' hp' ↦ by
        rw [hprocess, Option.mem_some_iff] at hp'
        exact ⟨patterns, hp' ▸ hphase⟩) hid createdAt (first :: others) segments
      have hpending := pendingOk_create s.table id createdAt (first :: others) segments
      have hsome : s.table.createReplayJob .done
          (JobTable.newJob id createdAt (first :: others) segments) =
            (s.table ++ [JobTable.newJob id createdAt (first :: others) segments],
              some (JobTable.newJob id createdAt (first :: others) segments)) :=
        JobTable.createReplayJob_of_not_mem .done hid
      have hrefs : (JobTable.newJob id createdAt (first :: others) segments).patternRevisions =
          (first :: others).map fun p ↦ (p.id, p.revision) := rfl
      have hstart := hcreate.ok.executeJob (p := p) hpending rfl .done
      simp only [hsome]
      generalize JobTable.newJob id createdAt (first :: others) segments = row at *
      -- with the new row the patterns of the window are named
      have hattended : Attended (s.table ++ [row]) { p with phase := .recovering [row] } := by
        refine ⟨fun other hother hopen ↦ ?_, fun pattern hpattern hon ↦ ?_⟩
        · rcases List.mem_append.mp hother with hold | hnew
          · exact absurd hopen (hknown other hold)
          · exact hnew
        · rcases hnamed pattern hpattern hon with hwaiting | hwindow | hnamed
          · exact .inl hwaiting
          · refine .inr (.inr ⟨row, List.mem_append_right _ (List.mem_singleton.mpr rfl), ?_⟩)
            have hmem : pattern ∈ patterns.filter PatternRevision.enabled :=
              List.mem_filter.mpr ⟨hwindow, hon⟩
            rw [henabled] at hmem
            rw [hrefs]
            exact List.mem_map_of_mem hmem
          · exact .inr (.inr (hnamed.grew hcreate.grew))
      exact settling_executeJob (p := { p with phase := .recovering [row] }) hattended rfl
        (known_cons hattended.known) hstart.grew

/-- The process runs, and it is shutting down if it was before. -/
def Runs (s : JobSystem) (shutdown : Bool) : Prop :=
  ∃ p, s.process = some p ∧ p.shutdown = shutdown

theorem runs_executeJob (paths : List ℕ) (o : Outcome) :
    (s.executeJob p row paths o rest).Runs p.shutdown := by
  unfold JobSystem.executeJob
  split_ifs
  · exact ⟨_, rfl, rfl⟩
  · exact ⟨_, rfl, rfl⟩

theorem runs_schedule (hprocess : s.process = some p) (event : JobEvent) :
    (s.schedule p event).Runs p.shutdown := by
  have hsame : s.Runs p.shutdown := ⟨p, hprocess, rfl⟩
  have hset : ∀ (s : JobSystem) (phase : JobPhase), (s.setPhase p phase).Runs p.shutdown :=
    fun _ _ ↦ ⟨_, rfl, rfl⟩
  unfold JobSystem.schedule
  split
  next => exact hset _ _
  next => exact hset _ _
  next =>
    unfold JobSystem.recoverJob
    split
    · exact hset _ _
    · split
      · exact runs_executeJob _ _
      · exact hset _ _
    · exact hset _ _
  next => exact hset _ _
  next => split_ifs <;> first | exact hset _ _ | exact hsame
  next => split <;> first | exact ⟨_, rfl, rfl⟩ | exact hsame
  next => split_ifs <;> first | exact hset _ _ | exact hsame
  next => split <;> first | exact ⟨_, rfl, rfl⟩ | exact hsame
  next =>
    unfold JobSystem.executeNew
    split
    · exact hset _ _
    · exact hset _ _
    · dsimp only
      split
      · exact hset _ _
      · exact runs_executeJob _ _
  next => exact hset _ _
  next => split <;> first | exact hset _ _ | exact hsame
  next =>
    unfold JobSystem.finishJob
    split
    · exact hsame
    · exact hset _ _
  next => exact hsame

/-- Every job that is left is listed, if there are no more than the limit. -/
theorem mem_list {table : JobTable} (hfew : table.length ≤ 1000) (hrow : row ∈ table)
    (hopen : row.Open) : row ∈ ((table.listReplayJobs 1000).insertionSort
      fun a b ↦ a.createdAt ≤ b.createdAt).filter fun row ↦ decide row.Open := by
  rw [List.mem_filter, List.mem_insertionSort, JobTable.listReplayJobs, List.take_of_length_le,
    List.mem_insertionSort]
  · exact ⟨hrow, decide_eq_true hopen⟩
  · rw [List.length_insertionSort]
    exact hfew

/-- A pattern goes from the channel into the window. -/
theorem Attended.take {table : JobTable} (h : Attended table p) {pattern : PatternRevision}
    {channel : List PatternRevision} (hchannel : p.channel = pattern :: channel)
    (window : List PatternRevision) (hwindow : p.phase.window = window)
    (hclosed : ∀ row ∈ table, ¬ row.Open) :
    Attended table { p with channel, phase := .coalescing (window ++ [pattern]) } := by
  refine ⟨hclosed, fun other hother henabled ↦ ?_⟩
  rcases h.named other hother henabled with hwaiting | hwindowed | hnamed
  · rw [hchannel] at hwaiting
    rcases List.mem_cons.mp hwaiting with rfl | hlater
    · exact .inr (.inl (List.mem_append_right _ (List.mem_singleton.mpr rfl)))
    · exact .inl hlater
  · rw [hwindow] at hwindowed
    exact .inr (.inl (List.mem_append_left _ hwindowed))
  · exact .inr (.inr hnamed)

theorem settling_schedule (hok : s.Ok) (h : Attended s.table p) (hprocess : s.process = some p)
    (hup : p.shutdown = false) {event : JobEvent} (hreliable : s.Reliable event) :
    (s.schedule p event).Settling := by
  have hgrew := (hok.schedule hprocess event).grew
  have hsame : s.Settling := ⟨p, hprocess, .inr h⟩
  have hknown := h.known
  have hstop : ¬ p.shutdown = true := ne_true_of_eq_false hup
  unfold JobSystem.schedule at hgrew ⊢
  split at hgrew
  next hphase =>
    rw [hphase] at hknown
    exact ⟨_, rfl, .inr (h.advance hgrew (by rw [hphase]; rfl) rfl rfl
      fun row hrow hopen ↦ mem_list hknown hrow hopen)⟩
  next hphase => exact absurd hreliable Bool.false_ne_true
  next row rest patterns listed present o hphase =>
    subst hreliable
    exact settling_recoverJob h hphase hgrew
  next hphase =>
    rw [hphase] at hknown
    exact ⟨_, rfl, .inr (h.advance hgrew (by rw [hphase]; rfl) rfl rfl
      fun row hrow hopen ↦ absurd (hknown row hrow hopen) List.not_mem_nil)⟩
  next hphase =>
    rw [if_neg hstop]
    exact hsame
  next hphase =>
    rw [hphase] at hknown
    split
    · exact hsame
    next pattern channel hchannel =>
      exact ⟨_, rfl, .inr (Attended.take h hchannel [] (by rw [hphase]; rfl) hknown)⟩
  next hphase =>
    rw [if_neg hstop]
    exact hsame
  next patterns hphase =>
    rw [hphase] at hknown
    split
    · exact hsame
    next pattern channel hchannel =>
      exact ⟨_, rfl, .inr (Attended.take h hchannel _ (by rw [hphase]; rfl) hknown)⟩
  next patterns snapshot id createdAt created started hphase =>
    obtain ⟨hsnapshot, hid, rfl, rfl⟩ := hreliable
    exact settling_executeNew hok h hprocess hphase hsnapshot hid
  next e rest step hphase =>
    rw [hphase] at hknown
    exact ⟨_, rfl, .inr (h.advance hgrew (by rw [hphase]; rfl) rfl rfl hknown)⟩
  next e rest o hphase =>
    rw [hphase] at hknown
    cases hreports : e.worker.reports with
    | nil => exact hsame
    | cons report reports =>
        rw [hreports] at hgrew
        exact ⟨_, rfl, .inr (h.advance hgrew (by rw [hphase]; rfl) rfl rfl (known_running hknown))⟩
  next e rest o hphase =>
    subst hreliable
    exact settling_finishJob h hprocess hup hphase hgrew
  next => exact hsame

theorem settling_step (hok : s.Ok) (h : s.Settling) {event : JobEvent}
    (hreliable : s.Reliable event) : (s.step event).Settling := by
  obtain ⟨p, hprocess, hp⟩ := h
  have hsame : s.Settling := ⟨p, hprocess, hp⟩
  unfold JobSystem.step
  rw [hprocess]
  dsimp only
  split
  · exact hsame
  · exact absurd hreliable not_false
  · exact ⟨_, rfl, .inl rfl⟩
  next pattern =>
    split_ifs
    · refine ⟨_, rfl, hp.imp_right fun h ↦ ⟨h.known, fun other hother henabled ↦ ?_⟩⟩
      rcases List.mem_append.mp hother with hold | hnew
      · exact (h.named other hold henabled).imp_left fun hmem ↦ List.mem_append_left _ hmem
      · exact .inl (List.mem_append_right _ hnew)
    · exact hsame
  · cases hup : p.shutdown with
    | false =>
        have hattended := hp.resolve_left (ne_true_of_eq_false hup)
        exact settling_schedule hok hattended hprocess hup hreliable
    | true =>
        obtain ⟨p', hprocess', hshutdown⟩ := runs_schedule hprocess event
        exact ⟨p', hprocess', .inl (hshutdown.trans hup)⟩

/-- When the scheduler has nothing to do and is not shutting down, every job is completed or failed,
and every enabled pattern that its channel took is named by such a job, unless it is still there. -/
theorem jobs_settled_after {before later : List JobEvent}
    (hdown : (runFrom step {} before).process = none)
    (hfew : (runFrom step {} before).table.length ≤ 1000)
    (hreliable : Along step Reliable ((runFrom step {} before).step .start) later) {p : JobProcess}
    (hprocess : (runFrom step {} (before ++ .start :: later)).process = some p)
    (hidle : p.phase = .idle) (hup : p.shutdown = false) :
    (∀ row ∈ (runFrom step {} (before ++ .start :: later)).table,
      row.status = .completed ∨ row.status = .failed) ∧
    ∀ pattern ∈ p.accepted, pattern.enabled = true → pattern ∈ p.channel ∨
      ∃ row ∈ (runFrom step {} (before ++ .start :: later)).table,
        (pattern.id, pattern.revision) ∈ row.patternRevisions := by
  have hstart : ((runFrom step {} before).step .start).Settling := by
    rw [JobSystem.step, hdown]
    exact ⟨{}, rfl, .inr ⟨hfew, fun _ h ↦ absurd h List.not_mem_nil⟩⟩
  have hstarted : ((runFrom step {} before).step .start).Ok := ((ok_after before).step .start).ok
  have hrun : (runFrom step ((runFrom step {} before).step .start) later).Ok ∧
      (runFrom step ((runFrom step {} before).step .start) later).Settling :=
    invariant_runFrom (I := fun s ↦ s.Ok ∧ s.Settling)
      (fun s event h hevent ↦ ⟨(h.1.step event).ok, settling_step h.1 h.2 hevent⟩)
      ⟨hstarted, hstart⟩ hreliable
  rw [runFrom_append, runFrom_cons] at hprocess ⊢
  obtain ⟨p', hp', hattended⟩ := hrun.2
  rw [hprocess, Option.some.injEq] at hp'
  subst hp'
  have hattended := hattended.resolve_left (ne_true_of_eq_false hup)
  have hknown := hattended.known
  have hnamed := hattended.named
  rw [hidle] at hknown hnamed
  refine ⟨fun row hrow ↦ ?_, fun pattern hpattern henabled ↦ ?_⟩
  · have hclosed := hknown row hrow
    cases hstatus : row.status
    · exact absurd (.inl hstatus) hclosed
    · exact absurd (.inr hstatus) hclosed
    · exact .inl rfl
    · exact .inr rfl
  · rcases hnamed pattern hpattern henabled with hwaiting | hwindow | hnamed
    · exact .inl hwaiting
    · exact absurd hwindow List.not_mem_nil
    · exact .inr hnamed

theorem jobs_settled_after_backfill :
    (∀ row ∈ (runFrom step {} ([] ++ .start :: backfill)).table,
      row.status = .completed ∨ row.status = .failed) ∧
    ∀ pattern ∈ [tokenPattern], pattern.enabled = true → pattern ∈ [] ∨
      ∃ row ∈ (runFrom step {} ([] ++ .start :: backfill)).table,
        (pattern.id, pattern.revision) ∈ row.patternRevisions :=
  jobs_settled_after (p := { phase := .idle, accepted := [tokenPattern] }) rfl (Nat.zero_le _)
    (by decide) rfl rfl rfl

end JobSystem

end Bazalt.Replay
