import Bazalt.Replay.Jobs

/-!
# Progress of replay jobs

A report is sent after the barriers of a segment, the row of the job follows the reports, and the
next execution begins with the segment after those that the row counts.  So the segments that a row
counts were scanned to their ends, whatever fails and wherever the process ends.  A job that is
completed has all of its segments scanned, and its row does not change again.
-/

namespace Bazalt.Replay

open Lib Matching

/-! ## What a row says -/

/-- The segments that are counted were scanned to their ends. -/
def Scanned (finished : List (Uuid × ℕ)) (id : Uuid) (paths : List ℕ) (done : ℤ) : Prop :=
  ∃ k ≤ paths.length, done = (k : ℤ) ∧ ∀ path ∈ paths.take k, (id, path) ∈ finished

/-- The rows of a job at two times: they differ in what an update sets. -/
def JobRow.Same (row row' : JobRow) : Prop :=
  ∃ status p error, row' = row.update status p error

structure RowOk (finished : List (Uuid × ℕ)) (row : JobRow) : Prop where
  total : row.job.segmentsTotal = row.job.segmentPaths.length
  length_lt : row.job.segmentPaths.length < 2 ^ 63
  scanned : Scanned finished row.id row.job.segmentPaths row.job.segmentsDone
  completed : row.status = .completed → row.job.segmentsDone = row.job.segmentPaths.length

/-- The rows stay, they count no less than before, and those of finished jobs do not change. -/
def Grew (before after : JobTable) : Prop :=
  ∀ row ∈ before, ∃ row' ∈ after, row.Same row' ∧ row.job.segmentsDone ≤ row'.job.segmentsDone ∧
    (¬ row.Open → row' = row)

theorem JobRow.Same.refl (row : JobRow) : row.Same row :=
  ⟨row.status, row.progress, row.error, rfl⟩

theorem JobRow.Same.trans {row row' row'' : JobRow} (h : row.Same row') (h' : row'.Same row'') :
    row.Same row'' := by
  obtain ⟨_, _, _, rfl⟩ := h
  obtain ⟨status, p, error, rfl⟩ := h'
  exact ⟨status, p, error, rfl⟩

theorem JobRow.Same.id_eq {row row' : JobRow} (h : row.Same row') : row'.id = row.id := by
  obtain ⟨_, _, _, rfl⟩ := h
  rfl

theorem Grew.refl (table : JobTable) : Grew table table :=
  fun row hrow ↦ ⟨row, hrow, .refl row, le_rfl, fun _ ↦ rfl⟩

theorem Grew.trans {a b c : JobTable} (hab : Grew a b) (hbc : Grew b c) : Grew a c := by
  intro row hrow
  obtain ⟨row', hrow', hsame, hle, hkept⟩ := hab row hrow
  obtain ⟨row'', hrow'', hsame', hle', hkept'⟩ := hbc row' hrow'
  refine ⟨row'', hrow'', hsame.trans hsame', hle.trans hle', fun hopen ↦ ?_⟩
  have heq := hkept hopen
  subst heq
  exact hkept' hopen

theorem Grew.append (table rows : JobTable) : Grew table (table ++ rows) :=
  fun row hrow ↦ ⟨row, List.mem_append_left _ hrow, .refl row, le_rfl, fun _ ↦ rfl⟩

section

variable {finished finished' : List (Uuid × ℕ)} {id : Uuid} {paths : List ℕ} {done : ℤ}

theorem Scanned.mono (h : Scanned finished id paths done) (hsub : finished ⊆ finished') :
    Scanned finished' id paths done :=
  let ⟨k, hle, hdone, hpaths⟩ := h
  ⟨k, hle, hdone, fun path hpath ↦ hsub (hpaths path hpath)⟩

theorem Scanned.zero : Scanned finished id paths 0 :=
  ⟨0, Nat.zero_le _, rfl, fun _ h ↦ absurd h List.not_mem_nil⟩

/-- One more segment, the next one of the job. -/
theorem Scanned.succ (h : Scanned finished id paths done) {path : ℕ} {rest : List ℕ}
    (hnext : paths.drop done.toNat = path :: rest) (hfinished : (id, path) ∈ finished) :
    Scanned finished id paths (done + 1) ∧ paths.drop (done + 1).toNat = rest := by
  obtain ⟨k, hle, rfl, hpaths⟩ := h
  rw [Int.toNat_natCast] at hnext
  have hlt : k < paths.length := by
    by_contra hge
    rw [List.drop_of_length_le (Nat.not_lt.mp hge)] at hnext
    exact List.cons_ne_nil _ _ hnext.symm
  rw [List.drop_eq_getElem_cons hlt] at hnext
  obtain ⟨hpath, hrest⟩ := List.cons.inj hnext
  refine ⟨⟨k + 1, hlt, rfl, fun other hother ↦ ?_⟩, hrest⟩
  rw [List.take_succ_eq_append_getElem hlt, List.mem_append, List.mem_singleton, hpath] at hother
  rcases hother with hbefore | rfl
  · exact hpaths other hbefore
  · exact hfinished

/-- Everything is counted when nothing is left. -/
theorem Scanned.eq_length (h : Scanned finished id paths done) (hnil : paths.drop done.toNat = []) :
    done = paths.length := by
  obtain ⟨k, hle, rfl, -⟩ := h
  rw [Int.toNat_natCast, List.drop_eq_nil_iff] at hnil
  exact_mod_cast le_antisymm hle hnil

theorem RowOk.mono {row : JobRow} (h : RowOk finished row) (hsub : finished ⊆ finished') :
    RowOk finished' row :=
  ⟨h.total, h.length_lt, h.scanned.mono hsub, h.completed⟩

theorem eq_of_ite_error {c : Prop} [Decidable c] {e : IncompleteSet} {found rest : List ℕ}
    (h : (if c then .error e else .ok found : Except IncompleteSet (List ℕ)) = .ok rest) :
    found = rest := by
  split_ifs at h
  exact Except.ok.inj h

/-- A job goes on with the segments after those it counts. -/
theorem RowOk.replayPaths {row : JobRow} (h : RowOk finished row) {listed : List ℕ}
    {present : ℕ → Bool} {rest : List ℕ}
    (hpaths : replayPathsForJob listed present row.job = .ok rest) :
    rest = row.job.segmentPaths.drop row.job.segmentsDone.toNat := by
  obtain ⟨k, hle, hdone, -⟩ := h.scanned
  have hlt := h.length_lt
  have htotal : asUsize (max row.job.segmentsTotal 0) = row.job.segmentPaths.length := by
    rw [h.total]
    unfold asUsize
    omega
  have hk : asUsize (max row.job.segmentsDone 0) = row.job.segmentsDone.toNat := by
    rw [hdone]
    unfold asUsize
    omega
  rw [replayPathsForJob, htotal, hk] at hpaths
  by_cases hempty : row.job.segmentPaths.isEmpty = true
  · have hnil := List.isEmpty_iff.mp hempty
    simp only [if_pos hempty] at hpaths
    rw [← eq_of_ite_error hpaths, hnil, List.length_nil, List.take_zero]
  · simp only [if_neg hempty] at hpaths
    rw [← eq_of_ite_error hpaths, List.take_length]

end

/-! ## Updates -/

section

variable {table : JobTable} {finished : List (Uuid × ℕ)} {o : Outcome} {id : Uuid}
  {status : JobStatus} {p : ReplayProgress} {error : Option JobError} {row : JobRow}

theorem mem_updateReplayProgress
    (h : row ∈ table.updateReplayProgress o id status p error) :
    row ∈ table ∨ ∃ old ∈ table, old.id = id ∧ row = old.update status p error := by
  unfold JobTable.updateReplayProgress at h
  split_ifs at h with happlied
  · obtain ⟨old, hold, rfl⟩ := List.mem_map.mp h
    split_ifs with hid
    · exact .inr ⟨old, hold, hid, rfl⟩
    · exact .inl hold
  · exact .inl h

/-- Rows of other jobs stay as they are. -/
theorem mem_updateReplayProgress_of_ne (h : row ∈ table) (hid : row.id ≠ id) :
    row ∈ table.updateReplayProgress o id status p error := by
  unfold JobTable.updateReplayProgress
  split_ifs
  · exact List.mem_map.mpr ⟨row, h, if_neg hid⟩
  · exact h

theorem update_mem_updateReplayProgress (h : row ∈ table) (happlied : o.applied = true) :
    row.update status p error ∈ table.updateReplayProgress o row.id status p error := by
  rw [JobTable.updateReplayProgress, if_pos happlied]
  exact List.mem_map.mpr ⟨row, h, if_pos rfl⟩

variable (status error) in
/-- The row that the update is for: it is updated, or nothing was done. -/
theorem exists_mem_updateReplayProgress (h : row ∈ table) :
    ∃ row' ∈ table.updateReplayProgress o row.id status p error,
      row' = row ∨ row' = row.update status p error := by
  by_cases happlied : o.applied = true
  · exact ⟨_, update_mem_updateReplayProgress h happlied, .inr rfl⟩
  · refine ⟨row, ?_, .inl rfl⟩
    rwa [JobTable.updateReplayProgress, if_neg happlied]

@[simp] theorem ids_updateReplayProgress :
    (table.updateReplayProgress o id status p error).map JobRow.id = table.map JobRow.id := by
  unfold JobTable.updateReplayProgress
  split_ifs
  · rw [List.map_map]
    refine List.map_congr_left fun row _ ↦ ?_
    rw [Function.comp_apply]
    split_ifs
    · rfl
    · rfl
  · rfl

/-- The row of a job is the only one with its id. -/
theorem eq_of_id_eq (hids : (table.map JobRow.id).Nodup) {row' : JobRow} (h : row ∈ table)
    (h' : row' ∈ table) (hid : row'.id = row.id) : row' = row :=
  List.inj_on_of_nodup_map hids h' h hid

/-- What an update has to meet: the job is not finished, and the progress is true and no less than
before. -/
structure UpdateOk (table : JobTable) (finished : List (Uuid × ℕ)) (row : JobRow)
    (status : JobStatus) (p : ReplayProgress) : Prop where
  mem : row ∈ table
  isOpen : row.Open
  scanned : Scanned finished row.id row.job.segmentPaths p.segmentsDone
  le : row.job.segmentsDone ≤ p.segmentsDone
  completed : status = .completed → p.segmentsDone = row.job.segmentPaths.length

theorem UpdateOk.rows (h : UpdateOk table finished row status p)
    (hids : (table.map JobRow.id).Nodup) (hrows : ∀ row ∈ table, RowOk finished row) (o : Outcome)
    (error : Option JobError) :
    ∀ row' ∈ table.updateReplayProgress o row.id status p error, RowOk finished row' := by
  intro row' hrow'
  rcases mem_updateReplayProgress hrow' with hmem | ⟨old, hold, hid, rfl⟩
  · exact hrows row' hmem
  · have heq := eq_of_id_eq hids h.mem hold hid
    subst heq
    have hrow := hrows old hold
    exact ⟨hrow.total, hrow.length_lt, h.scanned, h.completed⟩

theorem UpdateOk.grew (h : UpdateOk table finished row status p)
    (hids : (table.map JobRow.id).Nodup) (o : Outcome) (error : Option JobError) :
    Grew table (table.updateReplayProgress o row.id status p error) := by
  intro other hother
  by_cases hid : other.id = row.id
  · have heq := eq_of_id_eq hids h.mem hother hid
    subst heq
    obtain ⟨row', hrow', rfl | rfl⟩ :=
      exists_mem_updateReplayProgress status error (o := o) (p := p) hother
    · exact ⟨row', hrow', .refl row', le_rfl, fun _ ↦ rfl⟩
    · exact ⟨_, hrow', ⟨status, p, error, rfl⟩, h.le, fun hopen ↦ absurd h.isOpen hopen⟩
  · exact ⟨other, mem_updateReplayProgress_of_ne hother hid, .refl other, le_rfl, fun _ ↦ rfl⟩

end

/-! ## The worker -/

/-- What was sent is true and in order, and the segments that are left are those not counted. -/
structure WorkerOk (finished : List (Uuid × ℕ)) (id : Uuid) (paths : List ℕ) (shutdown : Bool)
    (last : ReplayProgress) (w : JobWorker) : Prop where
  scanned : Scanned finished id paths w.segmentsDone
  left : w.paths = paths.drop w.segmentsDone.toNat
  sent : ∀ r ∈ last :: w.reports,
    Scanned finished id paths r.segmentsDone ∧ r.segmentsDone ≤ w.segmentsDone
  order : (last :: w.reports).Pairwise fun r r' ↦ r.segmentsDone ≤ r'.segmentsDone
  result : w.result = some (.ok ()) → (shutdown = true ∨ w.paths = []) ∧
    (w.reports.getLast?.getD last).segmentsDone = w.segmentsDone

section

variable {finished finished' : List (Uuid × ℕ)} {id : Uuid} {paths : List ℕ} {shutdown : Bool}
  {last : ReplayProgress} {w : JobWorker}

theorem WorkerOk.mono (h : WorkerOk finished id paths shutdown last w) (hsub : finished ⊆ finished') :
    WorkerOk finished' id paths shutdown last w :=
  ⟨h.scanned.mono hsub, h.left, fun r hr ↦ ⟨(h.sent r hr).1.mono hsub, (h.sent r hr).2⟩, h.order,
    h.result⟩

theorem WorkerOk.of_shutdown (h : WorkerOk finished id paths shutdown last w) :
    WorkerOk finished id paths true last w :=
  ⟨h.scanned, h.left, h.sent, h.order, fun hok ↦ ⟨.inl rfl, (h.result hok).2⟩⟩

/-- A new worker has sent nothing. -/
theorem WorkerOk.start {row : JobRow} (h : Scanned finished id paths row.job.segmentsDone)
    {rest : List ℕ} (hrest : rest = paths.drop row.job.segmentsDone.toNat) :
    WorkerOk finished id paths shutdown row.progress {
      paths := rest
      segmentsDone := row.job.segmentsDone
      bytesProcessed := row.job.bytesProcessed
      initialMatchesFound := row.job.matchesFound } where
  scanned := h
  left := hrest
  sent r hr := by
    rw [List.mem_singleton] at hr
    subst hr
    exact ⟨h, le_rfl⟩
  order := List.pairwise_singleton _ _
  result hok := absurd hok (Option.some_ne_none _).symm

/-- One more report, of a progress that is no less. -/
theorem WorkerOk.send (h : WorkerOk finished id paths shutdown last w) {w' : JobWorker}
    {r : ReplayProgress} (hreports : w'.reports = w.reports ++ [r])
    (hdone : r.segmentsDone = w'.segmentsDone) (hle : w.segmentsDone ≤ w'.segmentsDone)
    (hscanned : Scanned finished id paths w'.segmentsDone)
    (hleft : w'.paths = paths.drop w'.segmentsDone.toNat)
    (hresult : w'.result = some (.ok ()) → shutdown = true ∨ w'.paths = []) :
    WorkerOk finished id paths shutdown last w' where
  scanned := hscanned
  left := hleft
  sent other hother := by
    rw [hreports, ← List.cons_append, List.mem_append, List.mem_singleton] at hother
    rcases hother with hbefore | rfl
    · exact ⟨(h.sent other hbefore).1, (h.sent other hbefore).2.trans hle⟩
    · exact ⟨hdone ▸ hscanned, hdone.le⟩
  order := by
    rw [hreports, ← List.cons_append, List.pairwise_append]
    refine ⟨h.order, List.pairwise_singleton _ _, fun other hother r' hr' ↦ ?_⟩
    rw [List.mem_singleton] at hr'
    subst hr'
    exact (h.sent other hother).2.trans (hle.trans hdone.ge)
  result hok := by
    refine ⟨hresult hok, ?_⟩
    rw [hreports, List.getLast?_concat, Option.getD_some]
    exact hdone

/-- The worker reports a segment when it is scanned to its end. -/
theorem WorkerOk.step (h : WorkerOk finished id paths shutdown last w) (e : WorkerStep) :
    WorkerOk (finished ++ (w.committed e).toList.map (id, ·)) id paths shutdown last
      (w.step shutdown e) := by
  have hmono := h.mono (List.subset_append_left finished ((w.committed e).toList.map (id, ·)))
  cases hresult : w.result with
  | some result =>
      simp only [JobWorker.step, hresult]
      exact hmono
  | none =>
      cases e with
      | commit fileBytes matchesSoFar =>
          cases hpaths : w.paths with
          | nil =>
              simp only [JobWorker.step, hresult, hpaths]
              exact hmono
          | cons path rest =>
              have hcommitted : w.committed (.commit fileBytes matchesSoFar) = some path := by
                rw [JobWorker.committed, hresult, hpaths]
                rfl
              rw [hcommitted] at hmono ⊢
              have hmem : (id, path) ∈ finished ++ (some path).toList.map (id, ·) :=
                List.mem_append_right _ (List.mem_singleton.mpr rfl)
              obtain ⟨hnext, hleft⟩ := hmono.scanned.succ (h.left.symm.trans hpaths) hmem
              simp only [JobWorker.step, hresult, hpaths]
              apply hmono.send rfl rfl
              · exact Int.le_add_one le_rfl
              · exact hnext
              · exact hleft.symm
              · intro hok
                exact absurd hok (Option.some_ne_none _).symm
      | finish newMatches =>
          simp only [JobWorker.step, hresult]
          split_ifs with hend
          · rw [Bool.or_eq_true, List.isEmpty_iff] at hend
            refine hmono.send rfl rfl ?_ hmono.scanned h.left fun _ ↦ hend
            exact le_rfl
          · exact hmono
      | fail message =>
          simp only [JobWorker.step, hresult]
          exact ⟨hmono.scanned, h.left, hmono.sent, h.order, fun hok ↦ by
            simp only [Option.some.injEq, reduceCtorEq] at hok⟩

/-- The scheduler receives a report. -/
theorem WorkerOk.receive {r : ReplayProgress} {reports : List ReplayProgress}
    (h : WorkerOk finished id paths shutdown last w) (hreports : w.reports = r :: reports) :
    WorkerOk finished id paths shutdown r { w with reports } := by
  have hsent := h.sent
  have horder := h.order
  have hresult := h.result
  rw [hreports] at hsent horder hresult
  refine ⟨h.scanned, h.left, fun other hother ↦ hsent other (List.mem_cons_of_mem _ hother),
    horder.of_cons, fun hok ↦ ⟨(hresult hok).1, ?_⟩⟩
  rw [← (hresult hok).2, List.getLast?_cons, Option.getD_some]

end

theorem Execution.final_mem (e : Execution) : e.final ∈ e.last :: e.worker.reports := by
  rw [Execution.final]
  cases hlast : e.worker.reports.getLast? with
  | none => exact List.mem_cons_self
  | some r => exact List.mem_cons_of_mem _ (List.mem_of_getLast? hlast)

/-! ## The scheduler -/

/-- The jobs that are yet to be taken up are in the table as they were listed. -/
structure PendingOk (table : JobTable) (jobs : List JobRow) : Prop where
  nodup : (jobs.map JobRow.id).Nodup
  mem : ∀ row ∈ jobs, row ∈ table ∧ row.Open

structure ExecutionOk (table : JobTable) (finished : List (Uuid × ℕ)) (shutdown : Bool)
    (e : Execution) : Prop where
  row : ∃ row ∈ table, row.Open ∧ e.row.Same row ∧ row.job.segmentsDone ≤ e.last.segmentsDone
  worker : WorkerOk finished e.row.id e.row.job.segmentPaths shutdown e.last e.worker

def JobPhase.Ok (table : JobTable) (finished : List (Uuid × ℕ)) (shutdown : Bool) :
    JobPhase → Prop
  | .recovering jobs => PendingOk table jobs
  | .executing e rest =>
      ExecutionOk table finished shutdown e ∧ PendingOk table rest ∧ e.row.id ∉ rest.map JobRow.id
  | _ => True

structure JobSystem.Ok (s : JobSystem) : Prop where
  ids : (s.table.map JobRow.id).Nodup
  rows : ∀ row ∈ s.table, RowOk s.finished row
  phase : ∀ p ∈ s.process, p.phase.Ok s.table s.finished p.shutdown

theorem JobPhase.Ok.of_shutdown {table : JobTable} {finished : List (Uuid × ℕ)} {shutdown : Bool}
    {phase : JobPhase} (h : phase.Ok table finished shutdown) : phase.Ok table finished true := by
  cases phase with
  | executing e rest => exact ⟨⟨h.1.row, h.1.worker.of_shutdown⟩, h.2⟩
  | recovering jobs => exact h
  | _ => trivial

/-- What a step does to the system. -/
structure Advanced (s s' : JobSystem) : Prop where
  ok : s'.Ok
  grew : Grew s.table s'.table

theorem PendingOk.nil (table : JobTable) : PendingOk table [] :=
  ⟨List.nodup_nil, fun _ h ↦ absurd h List.not_mem_nil⟩

/-- An update for another job. -/
theorem PendingOk.update {table : JobTable} {rest : List JobRow} (h : PendingOk table rest)
    {o : Outcome} {id : Uuid} (status : JobStatus) {p : ReplayProgress} (error : Option JobError)
    (hid : id ∉ rest.map JobRow.id) :
    PendingOk (table.updateReplayProgress o id status p error) rest := by
  refine ⟨h.nodup, fun row hrow ↦ ⟨?_, (h.mem row hrow).2⟩⟩
  apply mem_updateReplayProgress_of_ne (h.mem row hrow).1
  intro heq
  exact hid (heq ▸ List.mem_map_of_mem hrow)

theorem PendingOk.tail {table : JobTable} {row : JobRow} {rest : List JobRow}
    (h : PendingOk table (row :: rest)) :
    PendingOk table rest ∧ row.id ∉ rest.map JobRow.id := by
  have hnodup := h.nodup
  rw [List.map_cons, List.nodup_cons] at hnodup
  exact ⟨⟨hnodup.2, fun other hother ↦ h.mem other (List.mem_cons_of_mem _ hother)⟩, hnodup.1⟩

theorem Advanced.trans {a b c : JobSystem} (hab : Advanced a b) (hbc : Advanced b c) :
    Advanced a c :=
  ⟨hbc.ok, hab.grew.trans hbc.grew⟩

/-- The job that is executed, in the table: reports are no less than what its row says. -/
theorem ExecutionOk.updateOk {table : JobTable} {finished : List (Uuid × ℕ)} {shutdown : Bool}
    {e : Execution} (h : ExecutionOk table finished shutdown e) (status : JobStatus)
    {r : ReplayProgress} (hr : r ∈ e.last :: e.worker.reports)
    (hcompleted : status = .completed → r.segmentsDone = e.row.job.segmentPaths.length) :
    ∃ row, row.id = e.row.id ∧ e.row.Same row ∧ UpdateOk table finished row status r := by
  obtain ⟨row, hmem, hopen, hsame, hle⟩ := h.row
  have hscanned := (h.worker.sent r hr).1
  have hlast : e.last.segmentsDone ≤ r.segmentsDone := by
    rcases List.mem_cons.mp hr with rfl | hlater
    · exact le_rfl
    · exact List.rel_of_pairwise_cons h.worker.order hlater
  refine ⟨row, hsame.id_eq, hsame, ⟨hmem, hopen, ?_, hle.trans hlast, ?_⟩⟩
  · obtain ⟨_, _, _, rfl⟩ := hsame
    exact hscanned
  · obtain ⟨_, _, _, rfl⟩ := hsame
    exact hcompleted

/-- A job is completed when nothing was left. -/
theorem ExecutionOk.completed {table : JobTable} {finished : List (Uuid × ℕ)} {e : Execution}
    (h : ExecutionOk table finished false e) (hresult : e.worker.result = some (.ok ())) :
    e.final.segmentsDone = e.row.job.segmentPaths.length := by
  obtain ⟨hend, hfinal⟩ := h.worker.result hresult
  have hnil := hend.resolve_left Bool.false_ne_true
  exact hfinal.trans (h.worker.scanned.eq_length (h.worker.left.symm.trans hnil))

namespace JobSystem

variable {s : JobSystem} {p : JobProcess} {row : JobRow} {rest : List JobRow} {o : Outcome}

/-- A step of the scheduler that leaves the table as it is. -/
theorem Ok.setPhase (h : s.Ok) {p' : JobProcess}
    (hphase : p'.phase.Ok s.table s.finished p'.shutdown) :
    Advanced s { s with process := some p' } where
  ok := ⟨h.ids, h.rows, fun other hother ↦ by
    rw [Option.mem_some_iff] at hother
    exact hother ▸ hphase⟩
  grew := .refl _

/-- A step that updates the row of a job. -/
theorem Ok.update (h : s.Ok) {status : JobStatus} {q : ReplayProgress}
    (hupdate : UpdateOk s.table s.finished row status q) (o : Outcome) (error : Option JobError)
    {id : Uuid} (hid : row.id = id) {p' : JobProcess}
    (hphase : p'.phase.Ok (s.table.updateReplayProgress o id status q error) s.finished
      p'.shutdown) :
    Advanced s { s with
      table := s.table.updateReplayProgress o id status q error, process := some p' } := by
  subst hid
  refine ⟨⟨?_, hupdate.rows h.ids h.rows o error, fun other hother ↦ ?_⟩, hupdate.grew h.ids o error⟩
  · dsimp only
    rw [ids_updateReplayProgress]
    exact h.ids
  · rw [Option.mem_some_iff] at hother
    exact hother ▸ hphase

theorem updateOk_pending (h : s.Ok) (hpending : PendingOk s.table (row :: rest))
    (status : JobStatus) (hstatus : status ≠ .completed) :
    UpdateOk s.table s.finished row status row.progress where
  mem := (hpending.mem row List.mem_cons_self).1
  isOpen := (hpending.mem row List.mem_cons_self).2
  scanned := (h.rows row (hpending.mem row List.mem_cons_self).1).scanned
  le := le_rfl
  completed heq := absurd heq hstatus

theorem Ok.executeJob (h : s.Ok) (hpending : PendingOk s.table (row :: rest)) {paths : List ℕ}
    (hpaths : paths = row.job.segmentPaths.drop row.job.segmentsDone.toNat) (o : Outcome) :
    Advanced s (s.executeJob p row paths o rest) := by
  have hupdate := updateOk_pending h hpending .running (by decide)
  obtain ⟨hrest, hid⟩ := hpending.tail
  have hpending' := hrest.update .running none (o := o) (p := row.progress) hid
  rw [JobSystem.executeJob]
  split_ifs with hok
  · apply h.update hupdate o none rfl
    refine ⟨⟨⟨_, update_mem_updateReplayProgress hupdate.mem ?_, .inr rfl, ⟨_, _, _, rfl⟩, le_rfl⟩,
      WorkerOk.start hupdate.scanned hpaths⟩, hpending', hid⟩
    cases o
    · rfl
    · exact absurd hok Bool.false_ne_true
    · exact absurd hok Bool.false_ne_true
  · exact h.update hupdate o none rfl hpending'

theorem Ok.failJob (h : s.Ok) (hpending : PendingOk s.table (row :: rest)) (error : JobError)
    (o : Outcome) : Advanced s (s.failJob p row error o rest) :=
  h.update (updateOk_pending h hpending _ (by decide)) o (some error) rfl
    (hpending.tail.1.update _ _ hpending.tail.2)

theorem Ok.recoverJob (h : s.Ok) (hpending : PendingOk s.table (row :: rest))
    (patterns : Option PatternTable) (listed : List ℕ) (present : ℕ → Bool) (o : Outcome) :
    Advanced s (s.recoverJob p patterns listed present o row rest) := by
  have hrow := h.rows row (hpending.mem row List.mem_cons_self).1
  unfold JobSystem.recoverJob
  split
  · exact h.failJob hpending _ o
  · split
    next paths hpaths => exact h.executeJob hpending (hrow.replayPaths hpaths) o
    next set _ => exact h.failJob hpending _ o
  · exact h.failJob hpending _ o

/-- A new row, of a job that has scanned nothing. -/
theorem Ok.create (h : s.Ok) (hphase : ∀ p ∈ s.process, ∃ patterns, p.phase = .coalescing patterns)
    {id : Uuid} (hid : id ∉ s.table.map JobRow.id) (createdAt : ℕ)
    (enabled : List PatternRevision) (segments : SegmentSet) :
    Advanced s { s with table := s.table ++ [JobTable.newJob id createdAt enabled segments] } := by
  refine ⟨⟨?_, fun row hrow ↦ ?_, fun p hp ↦ ?_⟩, .append _ _⟩
  · dsimp only
    rw [List.map_append]
    refine h.ids.append (List.nodup_singleton _) fun other hother hnew ↦ hid ?_
    rwa [List.mem_singleton.mp hnew] at hother
  · rcases List.mem_append.mp hrow with hold | hnew
    · exact h.rows row hold
    · rw [List.mem_singleton.mp hnew]
      exact ⟨rfl, segments.length_lt, .zero, fun hcompleted ↦ JobStatus.noConfusion hcompleted⟩
  · obtain ⟨patterns, hcoalescing⟩ := hphase p hp
    rw [hcoalescing]
    trivial

theorem pendingOk_create (table : JobTable) (id : Uuid) (createdAt : ℕ)
    (enabled : List PatternRevision) (segments : SegmentSet) :
    PendingOk (table ++ [JobTable.newJob id createdAt enabled segments])
      [JobTable.newJob id createdAt enabled segments] := by
  refine ⟨List.nodup_singleton _, fun row hrow ↦ ?_⟩
  rw [List.mem_singleton] at hrow
  subst hrow
  exact ⟨List.mem_append_right _ (List.mem_singleton.mpr rfl), .inl rfl⟩

theorem Ok.executeNew (h : s.Ok) {patterns : List PatternRevision} (hprocess : s.process = some p)
    (hphase : p.phase = .coalescing patterns) (snapshot : Option SegmentSet) (id : Uuid)
    (createdAt : ℕ) (created started : Outcome) :
    Advanced s (s.executeNew p patterns snapshot id createdAt created started) := by
  have hcoalescing : ∀ p ∈ s.process, ∃ patterns, p.phase = .coalescing patterns := by
    intro p' hp'
    rw [hprocess, Option.mem_some_iff] at hp'
    exact ⟨patterns, hp' ▸ hphase⟩
  unfold JobSystem.executeNew
  cases henabled : patterns.filter PatternRevision.enabled with
  | nil => exact h.setPhase trivial
  | cons first others =>
      cases snapshot with
      | none => exact h.setPhase trivial
      | some segments =>
          by_cases hid : id ∈ s.table.map JobRow.id
          · have hnone : s.table.createReplayJob created
                (JobTable.newJob id createdAt (first :: others) segments) = (s.table, none) :=
              JobTable.createReplayJob_of_mem created hid
            simp only [hnone]
            exact h.setPhase trivial
          · have hcreate := h.create hcoalescing hid createdAt (first :: others) segments
            have hpending := pendingOk_create s.table id createdAt (first :: others) segments
            have hsome : s.table.createReplayJob created
                (JobTable.newJob id createdAt (first :: others) segments) = _ :=
              JobTable.createReplayJob_of_not_mem created hid
            simp only [hsome]
            cases created with
            | done => exact hcreate.trans (hcreate.ok.executeJob hpending rfl started)
            | doneButFailed =>
                exact hcreate.trans (hcreate.ok.setPhase trivial)
            | failed => exact h.setPhase trivial

theorem Ok.finishJob (h : s.Ok) (hprocess : s.process = some p) {e : Execution}
    (hphase : p.phase = .executing e rest) (o : Outcome) : Advanced s (s.finishJob p e rest o) := by
  have hexecuting := h.phase p hprocess
  rw [hphase] at hexecuting
  obtain ⟨hexecution, hrest, hid⟩ := hexecuting
  unfold JobSystem.finishJob
  cases hresult : e.worker.result with
  | none => exact ⟨h, .refl _⟩
  | some result =>
      dsimp only
      obtain ⟨row, hrow, -, hupdate⟩ := hexecution.updateOk
        (if p.shutdown then (JobStatus.queued, none) else verdictOf result).1 (r := e.final)
        e.final_mem (by
          intro hcompleted
          split_ifs at hcompleted with hshutdown
          cases result with
          | error message => exact JobStatus.noConfusion hcompleted
          | ok _ =>
              rw [Bool.not_eq_true] at hshutdown
              exact ExecutionOk.completed (hshutdown ▸ hexecution) hresult)
      exact h.update hupdate o _ hrow (hrest.update _ _ hid)

theorem Ok.reportJob (h : s.Ok) (hprocess : s.process = some p) {e : Execution}
    (hphase : p.phase = .executing e rest) {r : ReplayProgress} {reports : List ReplayProgress}
    (hreports : e.worker.reports = r :: reports) (o : Outcome) :
    Advanced s (s.reportJob p e rest r reports o) := by
  have hexecuting := h.phase p hprocess
  rw [hphase] at hexecuting
  obtain ⟨hexecution, hrest, hid⟩ := hexecuting
  have hmem : r ∈ e.last :: e.worker.reports := by
    rw [hreports]
    exact List.mem_cons_of_mem _ List.mem_cons_self
  obtain ⟨row, hrow, hsame, hupdate⟩ := hexecution.updateOk .running hmem
    (fun hcompleted ↦ JobStatus.noConfusion hcompleted)
  apply h.update hupdate o none hrow
  refine ⟨⟨?_, hexecution.worker.receive hreports⟩, hrest.update _ _ hid, hid⟩
  obtain ⟨row', hrow', rfl | rfl⟩ := exists_mem_updateReplayProgress .running none (o := o)
    (p := r) hupdate.mem
  · rw [← hrow]
    exact ⟨row', hrow', hupdate.isOpen, hsame, hupdate.le⟩
  · rw [← hrow]
    exact ⟨_, hrow', .inr rfl, hsame.trans ⟨_, _, _, rfl⟩, le_rfl⟩

theorem Ok.workJob (h : s.Ok) (hprocess : s.process = some p) {e : Execution}
    (hphase : p.phase = .executing e rest) (step : WorkerStep) :
    Advanced s (s.workJob p e rest step) := by
  have hexecuting := h.phase p hprocess
  rw [hphase] at hexecuting
  obtain ⟨⟨hrow, hworker⟩, hrest, hid⟩ := hexecuting
  refine ⟨⟨h.ids, fun row hmem ↦ (h.rows row hmem).mono (List.subset_append_left _ _),
    fun other hother ↦ ?_⟩, .refl _⟩
  obtain rfl := Option.mem_some_iff.mp hother
  exact ⟨⟨hrow, hworker.step step⟩, hrest, hid⟩

/-- The jobs that are taken up are rows of the table. -/
theorem Ok.list (h : s.Ok) :
    PendingOk s.table (((s.table.listReplayJobs 1000).insertionSort
      fun a b ↦ a.createdAt ≤ b.createdAt).filter fun row ↦ decide row.Open) := by
  have hnewest : (s.table.listReplayJobs 1000).Subperm s.table :=
    (List.take_sublist 1000 _).subperm.trans (List.perm_insertionSort _ s.table).subperm
  have hlisted : (((s.table.listReplayJobs 1000).insertionSort
      fun a b ↦ a.createdAt ≤ b.createdAt).filter fun row ↦ decide row.Open).Subperm s.table :=
    (List.filter_sublist.subperm.trans (List.perm_insertionSort _ _).subperm).trans hnewest
  refine ⟨?_, fun row hrow ↦ ⟨hlisted.subset hrow, ?_⟩⟩
  · obtain ⟨_, hperm, hsub⟩ := hlisted
    exact (hperm.map JobRow.id).nodup_iff.mp ((hsub.map JobRow.id).nodup h.ids)
  · exact of_decide_eq_true (List.mem_filter.mp hrow).2

theorem Ok.schedule (h : s.Ok) (hprocess : s.process = some p) (event : JobEvent) :
    Advanced s (s.schedule p event) := by
  have hsame : Advanced s s := ⟨h, .refl _⟩
  have hok := h.phase p hprocess
  unfold JobSystem.schedule
  split
  next => exact h.setPhase h.list
  next => exact h.setPhase (.nil _)
  next row rest patterns listed present o hphase =>
    rw [hphase] at hok
    exact h.recoverJob hok patterns listed present o
  next => exact h.setPhase trivial
  next =>
    split_ifs
    · exact h.setPhase trivial
    · exact hsame
  next =>
    split
    · exact hsame
    · exact h.setPhase trivial
  next =>
    split_ifs
    · exact h.setPhase trivial
    · exact hsame
  next =>
    split
    · exact hsame
    · exact h.setPhase trivial
  next patterns snapshot id createdAt created started hphase =>
    exact h.executeNew hprocess hphase snapshot id createdAt created started
  next e rest step hphase => exact h.workJob hprocess hphase step
  next e rest o hphase =>
    split
    · exact hsame
    next report reports hreports => exact h.reportJob hprocess hphase hreports o
  next e rest o hphase => exact h.finishJob hprocess hphase o
  next => exact hsame

theorem Ok.step (h : s.Ok) (event : JobEvent) : Advanced s (s.step event) := by
  have hsame : Advanced s s := ⟨h, .refl _⟩
  unfold JobSystem.step
  cases hprocess : s.process with
  | none =>
      dsimp only
      split
      · exact h.setPhase trivial
      · exact hsame
  | some p =>
      dsimp only
      split
      · exact hsame
      · exact ⟨⟨h.ids, h.rows, fun _ hp ↦ absurd hp (Option.not_mem_none _)⟩, .refl _⟩
      · exact h.setPhase (h.phase p hprocess).of_shutdown
      · split_ifs
        · exact h.setPhase (h.phase p hprocess)
        · exact hsame
      · exact h.schedule hprocess _

theorem ok_after (events : List JobEvent) : (runFrom step {} events).Ok :=
  invariant_runFrom_of_step (fun _ event h ↦ (h.step event).ok) events
    ⟨List.nodup_nil, fun _ h ↦ absurd h List.not_mem_nil, fun _ h ↦ absurd h (Option.not_mem_none _)⟩

theorem Ok.grew_run (h : s.Ok) (events : List JobEvent) :
    Grew s.table (runFrom JobSystem.step s events).table := by
  induction events generalizing s with
  | nil => exact .refl _
  | cons event events ih => exact (h.step event).grew.trans (ih (h.step event).ok)

/-- Whatever the database answers and wherever processes end, the segments that a row counts were
scanned to their ends, and all of them if the job is completed.  Later the row counts no less, and
it is as it was if the job is finished. -/
theorem jobs_after (events later : List JobEvent) :
    ∀ row ∈ (runFrom step {} events).table,
      (∃ k ≤ row.job.segmentPaths.length, row.job.segmentsDone = (k : ℤ) ∧
        ∀ path ∈ row.job.segmentPaths.take k, (row.id, path) ∈ (runFrom step {} events).finished) ∧
      (row.status = .completed →
        ∀ path ∈ row.job.segmentPaths, (row.id, path) ∈ (runFrom step {} events).finished) ∧
      ∃ row' ∈ (runFrom step {} (events ++ later)).table, row.Same row' ∧
        row.job.segmentsDone ≤ row'.job.segmentsDone ∧ (¬ row.Open → row' = row) := by
  intro row hrow
  have hok := ok_after events
  have hrowOk := hok.rows row hrow
  refine ⟨hrowOk.scanned, fun hcompleted path hpath ↦ ?_, ?_⟩
  · obtain ⟨k, -, hk, hpaths⟩ := hrowOk.scanned
    have hall : k = row.job.segmentPaths.length := by
      exact_mod_cast hk.symm.trans (hrowOk.completed hcompleted)
    apply hpaths path
    rwa [hall, List.take_length]
  · rw [runFrom_append]
    exact hok.grew_run later row hrow

def tokenPattern : PatternRevision where
  id := 5
  revision := 2
  expression := "token"
  kind := .text

/-- A pattern is sent, and the two segments that there are are scanned for it. -/
def backfill : List JobEvent :=
  [.list true, .recovered, .enqueue tokenPattern, .receive,
    .execute (some ⟨[4, 7], by decide⟩) 11 100 .done .done, .worker (.commit 512 3),
    .report .failed, .worker (.commit 256 8), .worker (.finish 8), .finish .done, .recovered]

/-- The two segments are scanned to their ends, and the report that was lost does not matter. -/
theorem jobs_after_backfill : ∃ row, (runFrom step {} (.start :: backfill)).table = [row] ∧
    row.status = .completed ∧ row.job.segmentPaths = [4, 7] ∧
      ∀ path ∈ row.job.segmentPaths,
        (row.id, path) ∈ (runFrom step {} (.start :: backfill)).finished := by
  refine ⟨_, rfl, rfl, rfl, fun path hpath ↦ ?_⟩
  obtain ⟨-, hcompleted, -⟩ := jobs_after (.start :: backfill) [] _ List.mem_cons_self
  exact hcompleted rfl path hpath

end JobSystem

end Bazalt.Replay
