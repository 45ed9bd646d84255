import Bazalt.Storage.Budget
import Bazalt.Storage.Cleanup
import Bazalt.Storage.Coverage

/-!
# Retention deletes nothing that is needed

Every row that is in the database or on its way there has its record in a file of the
directory.  When a cleanup has selected its files, no new row points into them; when its
barrier has returned, none is on its way; when `delete_before` has returned, none is in the
database either, since the records of the files are older than the cutoff.
-/

namespace Bazalt.Storage

open Lib

/-! ## Cleanups -/

/-- The file can be read to its end, and all its records are older than the cutoff. -/
structure SegmentFile.Expired (crc32 : Bytes → BitVec 32) (m : ℕ) (f : SegmentFile) (cutoff : ℕ) :
    Prop where
  readable : (scanFile crc32 m f.bytes).2 = none
  older : ∀ r ∈ (scanFile crc32 m f.bytes).1, r.2.tsNs < cutoff

/-- The file that the writer appends to. -/
def Thread.activeName (t : Thread) : ℕ := t.session.writer.file.name

theorem le_foldl_max {α : Type*} (f : α → ℕ) (l : List α) (n : ℕ) :
    n ≤ l.foldl (fun newest r ↦ max newest (f r)) n ∧
      ∀ r ∈ l, f r ≤ l.foldl (fun newest r ↦ max newest (f r)) n := by
  induction l generalizing n with
  | nil => exact ⟨le_rfl, fun r hr ↦ absurd hr List.not_mem_nil⟩
  | cons a l ih =>
      obtain ⟨hle, hmem⟩ := ih (max n (f a))
      refine ⟨(le_max_left _ _).trans hle, fun r hr ↦ ?_⟩
      rcases List.mem_cons.mp hr with rfl | hr
      · exact (le_max_right _ _).trans hle
      · exact hmem r hr

theorem SegmentFile.expired_of_candidate {crc32 : Bytes → BitVec 32} {m cutoff : ℕ}
    {f : SegmentFile} (h : f.candidate crc32 m cutoff = .ok true) : f.Expired crc32 m cutoff := by
  unfold SegmentFile.candidate at h
  split at h
  · cases h
  · next records hscan =>
      have htaken := of_decide_eq_true (Except.ok.inj h)
      refine ⟨by rw [hscan], fun r hr ↦ ?_⟩
      rw [hscan] at hr
      rcases htaken with hnone | hnewest
      · rw [List.length_eq_zero_iff.mp hnone] at hr
        cases hr
      · have hmax := (le_foldl_max (fun r : ℕ × ContentRecord ↦ r.2.tsNs) records 0).2 r hr
        exact hmax.trans_lt hnewest

/-- The files that a cleanup selects or has selected. -/
def Cleanup.names : Cleanup → List ℕ
  | sealing _ => []
  | selecting _ paths chosen => paths ++ chosen
  | waiting _ chosen _ _ => chosen
  | mutating _ chosen => chosen
  | deleting _ chosen => chosen

namespace Node

variable (crc32 : Bytes → BitVec 32) (m : ℕ)

/-- The row is in the database or on its way there. -/
def Live (node : Node) (row : ContentIndexRecord) : Prop :=
  row ∈ node.contentIndex ∨ .contentIndex row ∈ node.metadata.live ∨
    ∃ rows ok, node.recovering = some (rows, ok) ∧ row ∈ rows

/-- No row on its way points into these files. -/
def Drained (node : Node) (names : List ℕ) : Prop :=
  ∀ row, .contentIndex row ∈ node.metadata.live → row.segmentPath ∉ names

/-- The files `names` are sealed, and the records of those that are `chosen` are older than the
cutoff. -/
structure Chosen (node : Node) (cutoff : ℕ) (names chosen : List ℕ) : Prop where
  used : ∀ n ∈ names, n ∈ node.used
  inactive : ∀ t, node.store = .running t → t.activeName ∉ names
  expired : ∀ f ∈ node.store.files, f.name ∈ chosen → f.Expired crc32 m cutoff

/-- A cleanup that waits: the rows that were sent after its barrier do not point into its
files, and when the barrier has returned none on its way does. -/
structure Awaits (node : Node) (chosen : List ℕ) (before : List MetadataEvent) (mark : ℕ) :
    Prop where
  marked : mark ≤ node.metadata.replies.length
  later : ∀ p, node.metadata.process = some p → before <+: p.sent ∧
    ∀ row, .contentIndex row ∈ p.sent.drop before.length → row.segmentPath ∉ chosen
  answered : (⟨true, before⟩, true) ∈ node.metadata.replies.drop mark → node.Drained chosen

def JobOk (node : Node) : Cleanup → Prop
  | .sealing _ => True
  | .selecting cutoff paths chosen => node.Chosen crc32 m cutoff (paths ++ chosen) chosen
  | .waiting cutoff chosen before mark =>
      node.Chosen crc32 m cutoff chosen chosen ∧ node.Awaits chosen before mark
  | .mutating cutoff chosen => node.Chosen crc32 m cutoff chosen chosen ∧ node.Drained chosen
  | .deleting cutoff chosen => node.Chosen crc32 m cutoff chosen chosen ∧ node.Drained chosen ∧
      ∀ row ∈ node.contentIndex, row.segmentPath ∉ chosen

/-- What a step can do that leaves a cleanup of these files in peace. -/
structure Passes (node node' : Node) (names : List ℕ) : Prop where
  process : ∃ p, node.metadata.process = some p
  used : ∀ n ∈ node.used, n ∈ node'.used
  inactive : ∀ t', node'.store = .running t' → t'.activeName ∉ names ∨
    ∃ t, node.store = .running t ∧ t.activeName = t'.activeName
  files : ∀ f ∈ node'.store.files, f.name ∈ names → f ∈ node.store.files
  live : ∀ row, .contentIndex row ∈ node'.metadata.live →
    .contentIndex row ∈ node.metadata.live ∨ row.segmentPath ∉ names
  table : ∀ row ∈ node'.contentIndex, row ∈ node.contentIndex ∨
    .contentIndex row ∈ node.metadata.live
  sent : ∀ p p', node.metadata.process = some p → node'.metadata.process = some p' →
    ∃ new, p'.sent = p.sent ++ new ∧ ∀ row, .contentIndex row ∈ new → row.segmentPath ∉ names
  answers : node.metadata.Answers node'.metadata

variable {crc32 m} {node node' : Node}

theorem Passes.mono {names names' : List ℕ} (h : node.Passes node' names)
    (hsub : ∀ n ∈ names', n ∈ names) : node.Passes node' names' where
  process := h.process
  used := h.used
  inactive := fun t' ht' ↦ (h.inactive t' ht').imp_left fun hnot hmem ↦ hnot (hsub _ hmem)
  files := fun f hf hname ↦ h.files f hf (hsub _ hname)
  live := fun row hrow ↦ (h.live row hrow).imp_right fun hnot hmem ↦ hnot (hsub _ hmem)
  table := h.table
  sent := fun p p' hp hp' ↦ by
    obtain ⟨new, hsent, hnew⟩ := h.sent p p' hp hp'
    exact ⟨new, hsent, fun row hrow hmem ↦ hnew row hrow (hsub _ hmem)⟩
  answers := h.answers

theorem Chosen.pass {cutoff : ℕ} {names chosen : List ℕ}
    (h : node.Chosen crc32 m cutoff names chosen) (hsub : ∀ n ∈ chosen, n ∈ names)
    (hpass : node.Passes node' names) : node'.Chosen crc32 m cutoff names chosen where
  used := fun n hn ↦ hpass.used n (h.used n hn)
  inactive := fun t' ht' ↦ by
    rcases hpass.inactive t' ht' with hnew | ⟨t, ht, hsame⟩
    · exact hnew
    · exact hsame ▸ h.inactive t ht
  expired := fun f hf hname ↦ h.expired f (hpass.files f hf (hsub _ hname)) hname

theorem Drained.pass {names : List ℕ} (h : node.Drained names) (hpass : node.Passes node' names) :
    node'.Drained names := by
  intro row hrow
  rcases hpass.live row hrow with hold | hnew
  · exact h row hold
  · exact hnew

theorem Awaits.pass {chosen : List ℕ} {before : List MetadataEvent} {mark : ℕ}
    (h : node.Awaits chosen before mark) (hpass : node.Passes node' chosen) :
    node'.Awaits chosen before mark := by
  obtain ⟨p, hp⟩ := hpass.process
  obtain ⟨hbefore, hlater⟩ := h.later p hp
  obtain ⟨new, hreplies, hnew⟩ := hpass.answers
  refine ⟨?_, fun p' hp' ↦ ?_, fun hanswer ↦ ?_⟩
  · rw [hreplies, List.length_append]
    exact h.marked.trans (Nat.le_add_right _ _)
  · obtain ⟨events, hsent, hevents⟩ := hpass.sent p p' hp hp'
    rw [hsent, List.drop_append_of_le_length hbefore.length_le]
    refine ⟨hbefore.trans (List.prefix_append _ _), fun row hrow ↦ ?_⟩
    rcases List.mem_append.mp hrow with hrow | hrow
    · exact hlater row hrow
    · exact hevents row hrow
  · refine Drained.pass ?_ hpass
    rw [hreplies, List.drop_append_of_le_length h.marked] at hanswer
    rcases List.mem_append.mp hanswer with hold | hnow
    · exact h.answered hold
    · intro row hrow
      exact hlater row (hnew _ hnow rfl p hp _ hrow)

/-- A cleanup that is left in peace stays as it is. -/
theorem JobOk.pass {job : Cleanup} (h : node.JobOk crc32 m job)
    (hpass : node.Passes node' job.names) : node'.JobOk crc32 m job := by
  cases job with
  | sealing cutoff => trivial
  | selecting cutoff paths chosen =>
      exact Chosen.pass h (fun n hn ↦ List.mem_append_right _ hn) hpass
  | waiting cutoff chosen before mark => exact ⟨h.1.pass (fun _ hn ↦ hn) hpass, h.2.pass hpass⟩
  | mutating cutoff chosen => exact ⟨h.1.pass (fun _ hn ↦ hn) hpass, h.2.pass hpass⟩
  | deleting cutoff chosen =>
      refine ⟨h.1.pass (fun _ hn ↦ hn) hpass, h.2.1.pass hpass, fun row hrow ↦ ?_⟩
      rcases hpass.table row hrow with hold | hnew
      · exact h.2.2 row hold
      · exact h.2.1 row hnew

/-! ## The invariant -/

variable (crc32) (cfg : Config) (root : Root)

/-- What holds in every state that is reached. -/
structure Safe (node : Node) : Prop where
  metadata : MetadataOk node.metadata
  nodup : (node.used.map root.path).Nodup
  named : (node.store.files.map SegmentFile.name).Sublist node.used
  poised : ∀ t, node.store = .running t →
    t.Holds (Session.Poised crc32 cfg.maxRecordBytes (· = []))
      (Session.Poised crc32 cfg.maxRecordBytes fun _ ↦ True)
  covered : ∀ row, node.Live row → Covered crc32 cfg.maxRecordBytes node.store.files row
  process : ∀ t, node.store = .running t → ∃ p, node.metadata.process = some p
  busy : node.jobs ≠ [] → node.recovering = none ∧ ∃ t, node.store = .running t
  jobs : ∀ job ∈ node.jobs, node.JobOk crc32 cfg.maxRecordBytes job
  deleted : ∀ d ∈ node.deleted, d.1.name ∈ node.used ∧ (∀ f ∈ node.store.files, f.name ≠ d.1.name) ∧
    d.1.Expired crc32 cfg.maxRecordBytes d.2

/-- The files of all cleanups. -/
def jobNames (node : Node) : List ℕ := node.jobs.flatMap Cleanup.names

variable {crc32 cfg root}

/-- A cleanup does not depend on the others. -/
theorem JobOk.withJobs {job : Cleanup} (h : node.JobOk crc32 m job) (jobs : List Cleanup) :
    ({ node with jobs } : Node).JobOk crc32 m job := by
  have hchosen : ∀ {cutoff : ℕ} {names chosen : List ℕ}, node.Chosen crc32 m cutoff names chosen →
      ({ node with jobs } : Node).Chosen crc32 m cutoff names chosen :=
    fun h ↦ ⟨h.used, h.inactive, h.expired⟩
  cases job with
  | sealing cutoff => trivial
  | selecting cutoff paths chosen => exact hchosen h
  | waiting cutoff chosen before mark => exact ⟨hchosen h.1, h.2.marked, h.2.later, h.2.answered⟩
  | mutating cutoff chosen => exact ⟨hchosen h.1, h.2⟩
  | deleting cutoff chosen => exact ⟨hchosen h.1, h.2⟩

theorem JobOk.names_used {job : Cleanup} (h : node.JobOk crc32 m job) :
    ∀ n ∈ job.names, n ∈ node.used := by
  cases job with
  | sealing cutoff => exact fun n hn ↦ absurd hn List.not_mem_nil
  | selecting cutoff paths chosen => exact h.used
  | waiting cutoff chosen before mark => exact h.1.used
  | mutating cutoff chosen => exact h.1.used
  | deleting cutoff chosen => exact h.1.used

theorem JobOk.names_inactive {job : Cleanup} (h : node.JobOk crc32 m job) {t : Thread}
    (ht : node.store = .running t) : t.activeName ∉ job.names := by
  cases job with
  | sealing cutoff => exact List.not_mem_nil
  | selecting cutoff paths chosen => exact h.inactive t ht
  | waiting cutoff chosen before mark => exact h.1.inactive t ht
  | mutating cutoff chosen => exact h.1.inactive t ht
  | deleting cutoff chosen => exact h.1.inactive t ht

namespace Safe

theorem jobNames_used (h : node.Safe crc32 cfg root) : ∀ n ∈ node.jobNames, n ∈ node.used := by
  intro n hn
  obtain ⟨job, hjob, hmem⟩ := List.mem_flatMap.mp hn
  exact (h.jobs job hjob).names_used n hmem

theorem jobNames_inactive (h : node.Safe crc32 cfg root) {t : Thread}
    (ht : node.store = .running t) : t.activeName ∉ node.jobNames := by
  intro hn
  obtain ⟨job, hjob, hmem⟩ := List.mem_flatMap.mp hn
  exact (h.jobs job hjob).names_inactive ht hmem

theorem jobs_pass (h : node.Safe crc32 cfg root)
    (hpass : node.jobs ≠ [] → node.Passes node' node.jobNames) :
    ∀ job ∈ node.jobs, node'.JobOk crc32 cfg.maxRecordBytes job := by
  intro job hjob
  refine (h.jobs job hjob).pass ((hpass (List.ne_nil_of_mem hjob)).mono fun n hn ↦ ?_)
  exact List.mem_flatMap.mpr ⟨job, hjob, hn⟩

/-- A path stands for one file. -/
theorem name_eq (h : node.Safe crc32 cfg root) {a b : ℕ} (ha : a ∈ node.used) (hb : b ∈ node.used)
    (hpath : root.path a = root.path b) : a = b :=
  List.inj_on_of_nodup_map h.nodup ha hb hpath

theorem file_used (h : node.Safe crc32 cfg root) {f : SegmentFile} (hf : f ∈ node.store.files) :
    f.name ∈ node.used :=
  h.named.subset (List.mem_map_of_mem hf)

theorem file_eq (h : node.Safe crc32 cfg root) {f g : SegmentFile} (hf : f ∈ node.store.files)
    (hg : g ∈ node.store.files) (hname : f.name = g.name) : f = g :=
  List.inj_on_of_nodup_map (h.nodup.of_map.sublist h.named) hf hg hname

/-- Only the cleanups change. -/
theorem withJobs (h : node.Safe crc32 cfg root) {jobs : List Cleanup}
    (hbusy : jobs ≠ [] → node.recovering = none ∧ ∃ t, node.store = .running t)
    (hjobs : ∀ job ∈ jobs, node.JobOk crc32 cfg.maxRecordBytes job) :
    ({ node with jobs } : Node).Safe crc32 cfg root :=
  ⟨h.metadata, h.nodup, h.named, h.poised, h.covered, h.process, hbusy,
    fun job hjob ↦ (hjobs job hjob).withJobs jobs, h.deleted⟩

theorem dropJob (h : node.Safe crc32 cfg root) (i : ℕ) : (node.dropJob i).Safe crc32 cfg root := by
  refine h.withJobs (fun hne ↦ h.busy fun hnil ↦ hne ?_) fun job hjob ↦ ?_
  · rw [hnil]
    rfl
  · exact h.jobs job (List.mem_of_mem_eraseIdx hjob)

theorem setJob (h : node.Safe crc32 cfg root) (i : ℕ) {job : Cleanup}
    (hjob : node.JobOk crc32 cfg.maxRecordBytes job) : (node.setJob i job).Safe crc32 cfg root := by
  refine h.withJobs (fun hne ↦ h.busy fun hnil ↦ hne ?_) fun job' hjob' ↦ ?_
  · rw [hnil]
    rfl
  · rcases List.mem_or_eq_of_mem_set hjob' with hold | rfl
    · exact h.jobs job' hold
    · exact hjob

/-! ## The metadata pipeline and the database -/

/-- A step of the pipeline that sends no row, and what an insertion adds to the table. -/
theorem metadataStep (h : node.Safe crc32 cfg root) {a : MetadataStep MetadataEvent}
    {rows : List ContentIndexRecord} (hsend : ∀ row, a ≠ .send (.contentIndex row))
    (hcrash : a ≠ .crash)
    (hrows : ∀ row ∈ rows, row ∈ node.contentIndex ∨ .contentIndex row ∈ node.metadata.live) :
    ({ node with metadata := node.metadata.step a, contentIndex := rows } : Node).Safe
      crc32 cfg root := by
  have hlive : ∀ row, .contentIndex row ∈ (node.metadata.step a).live →
      .contentIndex row ∈ node.metadata.live := fun row hrow ↦
    (live_step node.metadata a _ hrow).resolve_right (hsend row)
  refine ⟨h.metadata.step a, h.nodup, h.named, h.poised, ?_, fun t ht ↦ ?_, h.busy,
    h.jobs_pass fun hne ↦ ?_, h.deleted⟩
  · rintro row (hrow | hrow | hrow)
    · rcases hrows row hrow with hold | hnew
      · exact h.covered row (.inl hold)
      · exact h.covered row (.inr (.inl hnew))
    · exact h.covered row (.inr (.inl (hlive row hrow)))
    · exact h.covered row (.inr (.inr hrow))
  · obtain ⟨p, hp⟩ := h.process t ht
    obtain ⟨p', hp', -⟩ := sent_step hp hcrash
    exact ⟨p', hp'⟩
  · obtain ⟨-, t, ht⟩ := h.busy hne
    obtain ⟨p, hp⟩ := h.process t ht
    refine ⟨⟨p, hp⟩, fun _ hn ↦ hn, fun t' ht' ↦ .inr ⟨t', ht', rfl⟩, fun _ hf _ ↦ hf,
      fun row hrow ↦ .inl (hlive row hrow), hrows, fun q q' hq hq' ↦ ?_, h.metadata.answers_step a⟩
    obtain ⟨p', hp', hsent⟩ := sent_step hq hcrash
    obtain rfl := Option.some.inj (hp'.symm.trans hq')
    rcases hsent with hsame | ⟨e, rfl, hmore⟩
    · exact ⟨[], by rw [hsame, List.append_nil], fun row hrow ↦ absurd hrow List.not_mem_nil⟩
    · refine ⟨[e], hmore, fun row hrow ↦ ?_⟩
      obtain rfl := List.mem_singleton.mp hrow
      exact absurd rfl (hsend row)

theorem pipeline (h : node.Safe crc32 cfg root) {a : MetadataStep MetadataEvent}
    (ha : ofPipeline a = true) :
    ({ node with metadata := node.metadata.step a } : Node).Safe crc32 cfg root := by
  refine h.metadataStep (fun row heq ↦ ?_) (fun heq ↦ ?_) fun row hrow ↦ .inl hrow
  · rw [heq] at ha
    cases ha
  · rw [heq] at ha
    cases ha

theorem insert (h : node.Safe crc32 cfg root) (ok : Bool) (kept : ℕ) :
    (node.insert ok kept).Safe crc32 cfg root := by
  unfold Node.insert
  split
  · next b hprojector =>
      obtain ⟨p, hp, hinserting⟩ := Option.map_eq_some_iff.mp hprojector
      refine h.metadataStep (fun row heq ↦ by cases heq) (fun heq ↦ by cases heq) fun row hrow ↦ ?_
      rcases List.mem_append.mp hrow with hold | hnew
      · exact .inl hold
      · have hmem : row ∈ b.events.filterMap MetadataEvent.row? := by
          split at hnew
          · exact hnew
          · exact List.mem_of_mem_take hnew
        obtain ⟨e, he, hrow?⟩ := List.mem_filterMap.mp hmem
        cases e with
        | other id => cases hrow?
        | contentIndex row' =>
            obtain rfl := Option.some.inj hrow?
            exact .inr (h.metadata.inserting_live hp hinserting _ he)
  · exact h

/-! ## The steps of a cleanup -/

theorem job_mem {i : ℕ} {job : Cleanup} (h : node.jobs[i]? = some job) : job ∈ node.jobs :=
  List.mem_of_getElem? h

theorem barrier (h : node.Safe crc32 cfg root) (i : ℕ) : (node.barrier i).Safe crc32 cfg root := by
  unfold Node.barrier
  split
  · next cutoff chosen p hget hp =>
      split_ifs with haccepts
      · have hnext := h.metadataStep (a := .barrier true) (fun row heq ↦ by cases heq)
          (fun heq ↦ by cases heq) fun row hrow ↦ .inl hrow
        have hbarrier := step_barrier_of_accepts haccepts hp true
        have hjob := h.jobs _ (job_mem hget)
        refine hnext.setJob i ⟨⟨hjob.used, hjob.inactive, hjob.expired⟩, ?_, fun q hq ↦ ?_, ?_⟩
        · rw [hbarrier]
        · rw [hbarrier] at hq
          obtain rfl := Option.some.inj hq
          refine ⟨List.prefix_refl _, fun row hrow ↦ ?_⟩
          rw [List.drop_length] at hrow
          cases hrow
        · intro hanswer
          rw [hbarrier, List.drop_length] at hanswer
          cases hanswer
      · exact h.dropJob i
  · exact h

theorem answer (h : node.Safe crc32 cfg root) (i : ℕ) : (node.answer i).Safe crc32 cfg root := by
  unfold Node.answer
  split
  · next cutoff chosen before mark hget =>
      split_ifs with hok hfailed
      · obtain ⟨hchosen, hawaits⟩ := h.jobs _ (job_mem hget)
        exact h.setJob i ⟨hchosen, hawaits.answered hok⟩
      · exact h.dropJob i
      · exact h
  · exact h

theorem select (h : node.Safe crc32 cfg root) (i : ℕ) :
    (node.select crc32 cfg root i).Safe crc32 cfg root := by
  unfold Node.select
  split
  · next cutoff path paths chosen hget =>
      have hjob : node.Chosen crc32 cfg.maxRecordBytes cutoff (path :: paths ++ chosen) chosen :=
        h.jobs _ (job_mem hget)
      split
      · exact h.dropJob i
      · next f hfind =>
          split
          · exact h.dropJob i
          · next hcandidate =>
              have hf := List.mem_of_find?_eq_some hfind
              have hpath : root.path f.name = root.path path := by
                simpa using List.find?_some hfind
              have hname := h.name_eq (h.file_used hf) (hjob.used path List.mem_cons_self) hpath
              have hsame : ∀ n ∈ paths ++ (chosen ++ [path]), n ∈ path :: paths ++ chosen := by
                intro n hn
                simp only [List.mem_append, List.mem_cons] at hn ⊢
                tauto
              refine h.setJob i ⟨fun n hn ↦ hjob.used n (hsame n hn),
                fun t ht hn ↦ hjob.inactive t ht (hsame _ hn), fun g hg hmem ↦ ?_⟩
              rcases List.mem_append.mp hmem with hold | hnew
              · exact hjob.expired g hg hold
              · obtain rfl := h.file_eq hg hf ((List.mem_singleton.mp hnew).trans hname.symm)
                exact SegmentFile.expired_of_candidate hcandidate
          · exact h.setJob i ⟨fun n hn ↦ hjob.used n (List.mem_cons_of_mem _ hn),
              fun t ht hn ↦ hjob.inactive t ht (List.mem_cons_of_mem _ hn), hjob.expired⟩
  · exact h

/-- Rows of the table are deleted. -/
theorem withTable (h : node.Safe crc32 cfg root) {rows : List ContentIndexRecord}
    (hrows : ∀ row ∈ rows, row ∈ node.contentIndex) :
    ({ node with contentIndex := rows } : Node).Safe crc32 cfg root := by
  refine ⟨h.metadata, h.nodup, h.named, h.poised, ?_, h.process, h.busy,
    h.jobs_pass fun hne ↦ ?_, h.deleted⟩
  · rintro row (hrow | hrow)
    · exact h.covered row (.inl (hrows row hrow))
    · exact h.covered row (.inr hrow)
  · obtain ⟨-, t, ht⟩ := h.busy hne
    refine ⟨h.process t ht, fun _ hn ↦ hn, fun t' ht' ↦ .inr ⟨t', ht', rfl⟩, fun _ hf _ ↦ hf,
      fun row hrow ↦ .inl hrow, fun row hrow ↦ .inl (hrows row hrow), fun p p' hp hp' ↦ ?_,
      answers_nothing rfl⟩
    obtain rfl := Option.some.inj (hp.symm.trans hp')
    exact ⟨[], (List.append_nil _).symm, fun row hrow ↦ absurd hrow List.not_mem_nil⟩

/-- A row about a record of the chosen files is older than the cutoff. -/
theorem row_older (h : node.Safe crc32 cfg root) {cutoff : ℕ} {names chosen : List ℕ}
    (hchosen : node.Chosen crc32 cfg.maxRecordBytes cutoff names chosen) {row : ContentIndexRecord}
    (hrow : row ∈ node.contentIndex) (hpath : row.segmentPath ∈ chosen) : row.tsNs < cutoff := by
  obtain ⟨f, hf, hname, r, hr, hts⟩ := h.covered row (.inl hrow)
  rw [← hts]
  exact (hchosen.expired f hf (hname ▸ hpath)).older r hr

theorem deleteBefore (h : node.Safe crc32 cfg root) (i : ℕ) (applied ok : Bool) :
    (node.deleteBefore i applied ok).Safe crc32 cfg root := by
  unfold Node.deleteBefore
  split
  · next cutoff chosen hget =>
      obtain ⟨hchosen, hdrained⟩ := h.jobs _ (job_mem hget)
      let rows := node.contentIndex.filter fun row ↦ decide (cutoff ≤ row.tsNs)
      have hdeleted : ({ node with contentIndex := rows } : Node).Safe crc32 cfg root :=
        h.withTable fun row hrow ↦ List.mem_of_mem_filter hrow
      cases ok with
      | true =>
          rw [Bool.or_true, if_pos rfl, if_pos rfl]
          refine hdeleted.setJob i ⟨⟨hchosen.used, hchosen.inactive, hchosen.expired⟩, hdrained, ?_⟩
          intro row hrow hpath
          obtain ⟨hold, hkept⟩ := List.mem_filter.mp hrow
          have holder := h.row_older hchosen hold hpath
          exact absurd (of_decide_eq_true hkept) (by omega)
      | false =>
          rw [Bool.or_false, if_neg Bool.false_ne_true]
          split_ifs
          · exact hdeleted.dropJob i
          · exact h.dropJob i
  · exact h

/-- The files that are left when one is removed. -/
theorem mem_files_deleteSegment {t : Thread} {path : ℕ}
    (hactive : root.path t.activeName ≠ root.path path) {f : SegmentFile} :
    f ∈ (t.mapSession fun s ↦ s.deleteSegments root [path] none).session.disk ↔
      f ∈ t.session.disk ∧ root.path f.name ≠ root.path path := by
  have hleft : root.deleteSegments [path] none t.session.sealedFiles =
      t.session.sealedFiles.filter fun f ↦ decide (root.path f.name ≠ root.path path) := by
    rw [Root.deleteSegments]
    by_cases hfree : root.taken t.session.sealedFiles path = false
    · rw [if_pos (.inr hfree), eq_comm, List.filter_eq_self]
      intro f hf
      rw [decide_eq_true_eq]
      intro heq
      exact Root.taken_eq_false.mp hfree (heq ▸ List.mem_map_of_mem hf)
    · rw [if_neg (by simpa using hfree)]
      rfl
  rw [Thread.session_mapSession, Session.Tells.mem_disk, Session.Tells.mem_disk]
  change f ∈ root.deleteSegments [path] none t.session.sealedFiles ∨ f = t.session.writer.file ↔ _
  rw [hleft, List.mem_filter, decide_eq_true_eq]
  constructor
  · rintro (⟨hf, hne⟩ | rfl)
    · exact ⟨.inl hf, hne⟩
    · exact ⟨.inr rfl, hactive⟩
  · rintro ⟨hf | rfl, hne⟩
    · exact .inl ⟨hf, hne⟩
    · exact .inr rfl

theorem removeFile (h : node.Safe crc32 cfg root) {cutoff path : ℕ} {paths : List ℕ}
    (hjob : node.JobOk crc32 cfg.maxRecordBytes (.deleting cutoff (path :: paths)))
    (hrecovering : node.recovering = none) {t : Thread} (ht : node.store = .running t) :
    ({ node with
      store := .running (t.mapSession fun s ↦ s.deleteSegments root [path] none)
      deleted := node.deleted ++ (node.store.files.filter
        fun f ↦ decide (root.path f.name = root.path path)).map (·, cutoff) } : Node).Safe
      crc32 cfg root := by
  obtain ⟨hchosen, hdrained, htable⟩ := hjob
  have hpath : path ∈ node.used := hchosen.used path List.mem_cons_self
  have hfiles : node.store.files = t.session.disk := by
    rw [ht]
    rfl
  have hactive : root.path t.activeName ≠ root.path path := by
    intro heq
    have hmem : t.activeName ∈ node.used :=
      h.file_used (hfiles ▸ Session.Tells.mem_disk.mpr (.inr rfl))
    refine hchosen.inactive t ht ?_
    rw [h.name_eq hmem hpath heq]
    exact List.mem_cons_self
  have hleft := @mem_files_deleteSegment root t path hactive
  have hsub : ∀ f ∈ (t.mapSession fun s ↦ s.deleteSegments root [path] none).session.disk,
      f ∈ node.store.files := fun f hf ↦ hfiles ▸ (hleft.mp hf).1
  have hsame : (t.mapSession fun s ↦ s.deleteSegments root [path] none).activeName =
      t.activeName := by
    rw [Thread.activeName, Thread.session_mapSession]
    rfl
  obtain ⟨p, hp⟩ := h.process t ht
  refine ⟨h.metadata, h.nodup, ?_, ?_, ?_, fun _ _ ↦ ⟨p, hp⟩, fun _ ↦ ⟨hrecovering, _, rfl⟩,
    h.jobs_pass fun _ ↦ ?_, ?_⟩
  · have hdisk : (t.session.deleteSegments root [path] none).disk.Sublist t.session.disk :=
      (root.deleteSegments_sublist [path] none t.session.sealedFiles).append (List.Sublist.refl _)
    have hnamed := h.named
    rw [hfiles] at hnamed
    refine List.Sublist.trans ?_ hnamed
    change ((t.mapSession _).session.disk.map SegmentFile.name).Sublist _
    rw [Thread.session_mapSession]
    exact hdisk.map _
  · rintro t' ⟨⟩
    exact (h.poised t ht).mapSession (fun s hs ↦ ⟨hs.active, hs.pending⟩)
      fun s hs ↦ ⟨hs.active, hs.pending⟩
  · intro row hrow
    have hapart : row.segmentPath ∉ path :: paths := by
      rcases hrow with hrow | hrow | ⟨rows, ok, hsome, -⟩
      · exact htable row hrow
      · exact hdrained row hrow
      · exact absurd (hrecovering.symm.trans hsome) (by simp)
    obtain ⟨f, hf, hname, hr⟩ := h.covered row hrow
    refine ⟨f, hleft.mpr ⟨hfiles ▸ hf, fun heq ↦ hapart ?_⟩, hname, hr⟩
    rw [← hname, h.name_eq (h.file_used hf) hpath heq]
    exact List.mem_cons_self
  · refine ⟨⟨p, hp⟩, fun _ hn ↦ hn, ?_, fun f hf _ ↦ hsub f hf, fun row hrow ↦ .inl hrow,
      fun row hrow ↦ .inl hrow, fun q q' hq hq' ↦ ?_, answers_nothing rfl⟩
    · rintro t' ⟨⟩
      exact .inr ⟨t, ht, hsame.symm⟩
    · obtain rfl := Option.some.inj (hq.symm.trans hq')
      exact ⟨[], (List.append_nil _).symm, fun row hrow ↦ absurd hrow List.not_mem_nil⟩
  · intro d hd
    rcases List.mem_append.mp hd with hold | hnew
    · obtain ⟨hused, hgone, hexpired⟩ := h.deleted d hold
      exact ⟨hused, fun f hf ↦ hgone f (hsub f hf), hexpired⟩
    · obtain ⟨f, hf, rfl⟩ := List.mem_map.mp hnew
      obtain ⟨hmem, heq⟩ := List.mem_filter.mp hf
      have heq := of_decide_eq_true heq
      have hname := h.name_eq (h.file_used hmem) hpath heq
      refine ⟨h.file_used hmem, fun g hg hgf ↦ (hleft.mp hg).2 (hgf ▸ heq), ?_⟩
      exact hchosen.expired f hmem (hname ▸ List.mem_cons_self)

theorem deleteSegment (h : node.Safe crc32 cfg root) (i : ℕ) (ok : Bool) :
    (node.deleteSegment crc32 cfg root i ok).Safe crc32 cfg root := by
  unfold Node.deleteSegment
  split
  · next cutoff path paths hget =>
      split_ifs
      · have hjob := h.jobs _ (job_mem hget)
        obtain ⟨hrecovering, t, ht⟩ := h.busy (List.ne_nil_of_mem (job_mem hget))
        have hnext := h.removeFile hjob hrecovering ht
        have hstep : node.store.step crc32 cfg root (.deleteSegments [path] none) =
            .running (t.mapSession fun s ↦ s.deleteSegments root [path] none) := by
          rw [ht]
          rfl
        dsimp only
        rw [hstep]
        obtain ⟨hchosen, hdrained, htable⟩ := hnext.jobs _ (job_mem hget)
        refine hnext.setJob i ⟨⟨fun n hn ↦ hchosen.used n (List.mem_cons_of_mem _ hn),
          fun t' ht' hn ↦ hchosen.inactive t' ht' (List.mem_cons_of_mem _ hn),
          fun f hf hn ↦ hchosen.expired f hf (List.mem_cons_of_mem _ hn)⟩,
          fun row hrow hn ↦ hdrained row hrow (List.mem_cons_of_mem _ hn),
          fun row hrow hn ↦ htable row hrow (List.mem_cons_of_mem _ hn)⟩
      · exact h.dropJob i
  · exact h.dropJob i
  · exact h

/-! ## The writer beside the cleanups -/

/-- The names of new files differ from all before. -/
def Fresh (root : Root) (node : Node) (name : Option ℕ) : Prop :=
  ∀ n ∈ name, root.path n ∉ node.used.map root.path

theorem nodup_append (h : node.Safe crc32 cfg root) {name : Option ℕ}
    (hfresh : Fresh root node name) : ((node.used ++ name.toList).map root.path).Nodup := by
  cases name with
  | none => simpa using h.nodup
  | some n =>
      have hnot := hfresh n rfl
      rw [List.map_append, List.nodup_append]
      refine ⟨h.nodup, by simp, fun path hpath last hlast heq ↦ hnot ?_⟩
      obtain rfl : last = root.path n := by simpa using hlast
      exact heq ▸ hpath

/-- The files of a step keep the names that they had, and a new one has a new name. -/
theorem named_step (h : node.Safe crc32 cfg root) {t : Thread} (ht : node.store = .running t)
    (e : Event) : Named root (node.store.files.map SegmentFile.name) e.newName
      ((t.step crc32 cfg (e.createNew (root.taken t.session.disk))).1.session.disk.map
        SegmentFile.name) := by
  have hfiles : node.store.files = t.session.disk := by
    rw [ht]
    rfl
  have hnodup := h.nodup.sublist (h.named.map root.path)
  rw [hfiles] at hnodup ⊢
  have hstep := (Named.kept crc32 cfg root (t.session.disk.map SegmentFile.name) e.newName).step
    (t := t) (e := e.createNew (root.taken t.session.disk))
    ((Thread.holds_self t).mpr (Named.of_sublist hnodup (List.Sublist.refl _)))
    (Event.createNew_meets (fun name hname hfree ↦ ⟨hname, by
      rw [List.map_map]
      exact Root.taken_eq_false.mp hfree⟩) (fun _ _ ↦ trivial) fun _ _ ↦ trivial)
  exact (Thread.holds_self _).mp hstep

theorem tells_step (h : node.Safe crc32 cfg root) {t : Thread} (ht : node.store = .running t)
    {e : Event} (hfresh : Fresh root node e.newName) (hts : ∀ r ∈ appended [e], r.tsNs < 2 ^ 64) :
    (t.step crc32 cfg (e.createNew (root.taken t.session.disk))).1.Holds
      (Session.Tells crc32 cfg.maxRecordBytes t.session.disk t.session.sent.length node.jobNames
        (· = []))
      (Session.Tells crc32 cfg.maxRecordBytes t.session.disk t.session.sent.length node.jobNames
        fun _ ↦ True) := by
  have hapart := h.jobNames_inactive ht
  have hpoised := h.poised t ht
  have hstart : t.Holds
      (Session.Tells crc32 cfg.maxRecordBytes t.session.disk t.session.sent.length node.jobNames
        (· = []))
      (Session.Tells crc32 cfg.maxRecordBytes t.session.disk t.session.sent.length node.jobNames
        fun _ ↦ True) := by
    cases t with
    | looping s => exact Session.Tells.start hpoised hapart
    | closing s => exact Session.Tells.start hpoised hapart
    | stopped s => exact Session.Tells.start hpoised hapart
  refine (Session.Tells.kept crc32 cfg _ _ _).step hstart
    (Event.createNew_meets (fun name hname _ hmem ↦ ?_) hts fun _ _ ↦ trivial)
  exact hfresh name hname (List.mem_map_of_mem (h.jobNames_used name hmem))

theorem mem_map_contentIndex {rows : List ContentIndexRecord} {row : ContentIndexRecord} :
    .contentIndex row ∈ rows.map MetadataEvent.contentIndex ↔ row ∈ rows := by
  simp

theorem sendAll_process {s : Metadata MetadataEvent} {p : Process MetadataEvent}
    (hp : s.process = some p) {events : List MetadataEvent} (h : events = [] ∨ s.accepts = true) :
    ∃ p', (s.sendAll events).process = some p' ∧ p'.sent = p.sent ++ events ∧
      (s.sendAll events).replies = s.replies := by
  rcases h with rfl | haccepts
  · exact ⟨p, hp, (List.append_nil _).symm, rfl⟩
  · exact sendAll_of_accepts haccepts hp events

theorem command (h : node.Safe crc32 cfg root) {e : Event} (hfresh : Fresh root node e.newName)
    (hts : ∀ r ∈ appended [e], r.tsNs < 2 ^ 64) :
    (node.command crc32 cfg root e).1.Safe crc32 cfg root := by
  unfold Node.command
  split
  · exact h
  · next t ht =>
      have hfiles : node.store.files = t.session.disk := by
        rw [ht]
        rfl
      have hnamed := h.named_step ht e
      have hholds := h.tells_step ht hfresh hts
      have htells := hholds.session fun s hs ↦ hs.weaken
      obtain ⟨p, hp⟩ := h.process t ht
      dsimp only
      generalize t.step crc32 cfg (e.createNew (root.taken t.session.disk)) = r
        at hnamed hholds htells ⊢
      split_ifs with hsend
      · have hevents :
            (r.1.session.sent.drop t.session.sent.length).map MetadataEvent.contentIndex = [] ∨
            node.metadata.accepts = true := hsend.imp_left fun hnil ↦ by rw [hnil, List.map_nil]
        obtain ⟨p', hp', hsent, hreplies⟩ := sendAll_process hp hevents
        have hlive : ∀ row, .contentIndex row ∈ (node.metadata.sendAll
            ((r.1.session.sent.drop t.session.sent.length).map .contentIndex)).live →
            .contentIndex row ∈ node.metadata.live ∨
              row ∈ r.1.session.sent.drop t.session.sent.length := by
          intro row hrow
          exact (live_sendAll _ _ _ hrow).imp_right mem_map_contentIndex.mp
        refine ⟨h.metadata.sendAll _, h.nodup_append hfresh,
          hnamed.sublist_append.trans (h.named.append (List.Sublist.refl _)), ?_, ?_,
          fun _ _ ↦ ⟨p', hp'⟩, fun hne ↦ ⟨(h.busy hne).1, _, rfl⟩, h.jobs_pass fun _ ↦ ?_, ?_⟩
        · rintro t' ⟨⟩
          exact hholds.imp (fun s hs ↦ hs.poised) fun s hs ↦ hs.poised
        · have hgrows := hfiles ▸ htells.grows
          rintro row (hrow | hrow | hrow)
          · exact (h.covered row (.inl hrow)).grows hgrows
          · rcases hlive row hrow with hold | hnew
            · exact (h.covered row (.inr (.inl hold))).grows hgrows
            · exact (htells.told row hnew).1
          · exact (h.covered row (.inr (.inr hrow))).grows hgrows
        · refine ⟨⟨p, hp⟩, fun n hn ↦ List.mem_append_left _ hn, ?_, ?_, ?_,
            fun row hrow ↦ .inl hrow, fun q q' hq hq' ↦ ?_, answers_nothing hreplies⟩
          · rintro t' ⟨⟩
            exact .inl htells.apart
          · intro f hf hname
            exact hfiles ▸ htells.same f hf hname
          · intro row hrow
            exact (hlive row hrow).imp_right fun hnew ↦ (htells.told row hnew).2
          · obtain rfl := Option.some.inj (hp.symm.trans hq)
            obtain rfl := Option.some.inj (hp'.symm.trans hq')
            exact ⟨_, hsent, fun row hrow ↦ (htells.told row (mem_map_contentIndex.mp hrow)).2⟩
        · intro d hd
          obtain ⟨hused, hgone, hexpired⟩ := h.deleted d hd
          refine ⟨List.mem_append_left _ hused, fun f hf heq ↦ ?_, hexpired⟩
          rcases List.mem_append.mp (hnamed.sublist_append.subset (List.mem_map_of_mem hf))
            with hold | hnew
          · obtain ⟨g, hg, hgname⟩ := List.mem_map.mp hold
            exact hgone g hg (hgname.trans heq)
          · refine hfresh f.name (by simpa using hnew) ?_
            rw [heq]
            exact List.mem_map_of_mem hused
      · exact h

/-- The answer to a seal names the files beside the active one. -/
theorem handleSeal_paths {s : Session} {io : CommitIo} {listed : Bool} {t : Thread}
    {paths : List ℕ} (h : s.handleSeal cfg io listed = (t, .sealedUp (.ok paths))) :
    paths = (t.session.disk.map SegmentFile.name).filter (· ≠ t.activeName) := by
  unfold Session.handleSeal at h
  split at h
  · cases h
  · next s₁ _ =>
      have hsession : s₁.breakIfFatal.session = s₁ := by
        unfold Session.breakIfFatal
        split_ifs <;> rfl
      split_ifs at h
      · obtain ⟨rfl, houtcome⟩ := Prod.mk.inj h
        rw [Thread.activeName, hsession]
        exact (Except.ok.inj (Outcome.sealedUp.inj houtcome)).symm
      · cases h

theorem command_sealed {io : CommitIo} {listed : Bool} {paths : List ℕ}
    (h : node.command crc32 cfg root (.sealSegment io listed) = (node', .sealedUp (.ok paths))) :
    ∃ t, node'.store = .running t ∧
      paths = (t.session.disk.map SegmentFile.name).filter (· ≠ t.activeName) := by
  unfold Node.command at h
  split at h
  · cases h
  · next t ht =>
      dsimp only at h
      split_ifs at h
      · obtain ⟨rfl, houtcome⟩ := Prod.mk.inj h
        refine ⟨_, rfl, ?_⟩
        cases t with
        | looping s => exact handleSeal_paths (Prod.ext rfl houtcome)
        | closing s => cases houtcome
        | stopped s => cases houtcome
      · cases h

theorem sealSegments (h : node.Safe crc32 cfg root) (i : ℕ) {io : CommitIo} (listed : Bool)
    (hfresh : Fresh root node io.name) :
    (node.sealSegments crc32 cfg root i io listed).Safe crc32 cfg root := by
  have hnext : (node.command crc32 cfg root (.sealSegment io listed)).1.Safe crc32 cfg root :=
    h.command hfresh (by simp [appended])
  unfold Node.sealSegments
  split
  · split
    · next cutoff hget node₁ paths hcommand =>
        rw [hcommand] at hnext
        dsimp only at hnext
        obtain ⟨t, ht, rfl⟩ := command_sealed hcommand
        have hfiles : node₁.store.files = t.session.disk := by
          rw [ht]
          rfl
        refine hnext.setJob i ⟨fun n hn ↦ ?_, fun t' ht' hn ↦ ?_, fun f hf hn ↦ by cases hn⟩
        · rw [List.append_nil] at hn
          exact hnext.named.subset (hfiles ▸ List.mem_of_mem_filter hn)
        · obtain rfl := Store.running.inj (ht.symm.trans ht')
          rw [List.append_nil] at hn
          exact absurd rfl (of_decide_eq_true (List.mem_filter.mp hn).2)
    · next hcommand =>
        rw [hcommand] at hnext
        exact hnext.dropJob i
  · exact h

/-! ## The process starts and ends -/

theorem crash (h : node.Safe crc32 cfg root) : (node.crash crc32 cfg root).Safe crc32 cfg root := by
  have hfiles : (node.store.step crc32 cfg root .exit).files = node.store.files := by
    cases node.store <;> rfl
  have hclosed : ∀ t, node.store.step crc32 cfg root .exit ≠ .running t := by
    cases node.store <;> exact fun t heq ↦ by cases heq
  refine ⟨h.metadata.step .crash, h.nodup, hfiles ▸ h.named, fun t ht ↦ absurd ht (hclosed t), ?_,
    fun t ht ↦ absurd ht (hclosed t), fun hne ↦ absurd rfl hne,
    fun job hjob ↦ absurd hjob List.not_mem_nil, hfiles ▸ h.deleted⟩
  change ∀ row, _ → Covered _ _ (node.store.step crc32 cfg root .exit).files row
  rw [hfiles]
  rintro row (hrow | hrow | ⟨rows, ok, hsome, -⟩)
  · exact h.covered row (.inl hrow)
  · rcases live_step node.metadata .crash _ hrow with hold | heq
    · exact h.covered row (.inr (.inl hold))
    · cases heq
  · cases hsome

theorem no_jobs (h : node.Safe crc32 cfg root)
    (hidle : node.recovering ≠ none ∨ ∀ t, node.store ≠ .running t) : node.jobs = [] := by
  by_contra hne
  obtain ⟨hnone, t, ht⟩ := h.busy hne
  rcases hidle with hsome | hclosed
  · exact hsome hnone
  · exact hclosed t ht

theorem recover (h : node.Safe crc32 cfg root) :
    (node.recover crc32 cfg root).Safe crc32 cfg root := by
  unfold Node.recover
  split
  · exact h
  · next row rows ok hrecovering =>
      have hjobs := h.no_jobs (.inl (by rw [hrecovering]; exact Option.some_ne_none _))
      split_ifs with haccepts
      · refine ⟨h.metadata.sendAll _, h.nodup, h.named, h.poised, ?_, fun t ht ↦ ?_,
          fun hne ↦ absurd hjobs hne, fun job hjob ↦ ?_, h.deleted⟩
        · rintro row' (hrow | hrow | ⟨rows', ok', hsome, hrow⟩)
          · exact h.covered row' (.inl hrow)
          · rcases live_sendAll _ _ _ hrow with hold | hnew
            · exact h.covered row' (.inr (.inl hold))
            · obtain rfl := MetadataEvent.contentIndex.inj (List.mem_singleton.mp hnew)
              exact h.covered row' (.inr (.inr ⟨_, _, hrecovering, List.mem_cons_self⟩))
          · obtain ⟨rfl, rfl⟩ := Prod.mk.inj (Option.some.inj hsome)
            exact h.covered row' (.inr (.inr ⟨_, _, hrecovering, List.mem_cons_of_mem _ hrow⟩))
        · obtain ⟨p, hp⟩ := h.process t ht
          obtain ⟨p', hp', -⟩ := sendAll_of_accepts haccepts hp [.contentIndex row]
          exact ⟨p', hp'⟩
        · rw [hjobs] at hjob
          cases hjob
      · exact h.crash
  · next hrecovering =>
      have hjobs := h.no_jobs (.inl (by rw [hrecovering]; exact Option.some_ne_none _))
      refine ⟨h.metadata, h.nodup, h.named, h.poised, ?_, h.process, fun hne ↦ absurd hjobs hne,
        fun job hjob ↦ ?_, h.deleted⟩
      · rintro row (hrow | hrow | ⟨rows, ok, hsome, -⟩)
        · exact h.covered row (.inl hrow)
        · exact h.covered row (.inr (.inl hrow))
        · cases hsome
      · rw [hjobs] at hjob
        cases hjob
  · exact h.crash

/-- Every row that is indexed again is about a record of its file. -/
theorem covered_recoveryRows {files disk : List SegmentFile} (hsub : ∀ f ∈ files, f ∈ disk) :
    ∀ row ∈ (recoveryRows crc32 m files).1, Covered crc32 m disk row := by
  have hrows : ∀ f ∈ disk, ∀ row ∈ f.indexRows crc32 m, Covered crc32 m disk row := by
    intro f hf row hrow
    obtain ⟨r, hr, rfl⟩ := List.mem_map.mp hrow
    exact ⟨f, hf, rfl, r, hr, rfl⟩
  induction files with
  | nil => exact fun row hrow ↦ absurd hrow List.not_mem_nil
  | cons f files ih =>
      have hf := hrows f (hsub f List.mem_cons_self)
      intro row hrow
      rw [recoveryRows] at hrow
      split_ifs at hrow
      · exact hf row hrow
      · rcases List.mem_append.mp hrow with hrow | hrow
        · exact hf row hrow
        · exact ih (fun g hg ↦ hsub g (List.mem_cons_of_mem _ hg)) row hrow

theorem mem_recoveryFiles {before after : List SegmentFile} {full : Bool} :
    ∀ f ∈ root.recoveryFiles before after full, f ∈ after := by
  intro f hf
  obtain ⟨path, -, hfind⟩ := List.mem_filterMap.mp hf
  exact List.mem_of_find?_eq_some hfind

theorem grows_repaired {files repaired : List SegmentFile}
    (hnames : (files.map SegmentFile.name).Nodup)
    (h : recoverLastSegmentTail crc32 root m files = .ok repaired) : Grows crc32 m files repaired :=
  fun _ hg _ hr ↦ scanFile_repaired hnames h hg hr

/-- The directory changes while no cleanup runs. -/
theorem reopened (h : node.Safe crc32 cfg root) (hclosed : ∀ t, node.store ≠ .running t)
    {store : Store} {name : Option ℕ} (hfresh : Fresh root node name)
    {recovering : Option (List ContentIndexRecord × Bool)}
    (hnames : ∀ f ∈ store.files, f.name ∈ node.store.files.map SegmentFile.name ∨ f.name ∈ name)
    (hnamed : (store.files.map SegmentFile.name).Sublist (node.used ++ name.toList))
    (hgrows : Grows crc32 cfg.maxRecordBytes node.store.files store.files)
    (hpoised : ∀ t, store = .running t → t.Holds (Session.Poised crc32 cfg.maxRecordBytes (· = []))
      (Session.Poised crc32 cfg.maxRecordBytes fun _ ↦ True))
    (hprocess : ∃ p, node.metadata.process = some p)
    (hrows : ∀ rows ok, recovering = some (rows, ok) → ∀ row ∈ rows,
      Covered crc32 cfg.maxRecordBytes store.files row) :
    ({ node with store, recovering, used := node.used ++ name.toList } : Node).Safe
      crc32 cfg root := by
  have hjobs := h.no_jobs (.inr hclosed)
  refine ⟨h.metadata, h.nodup_append hfresh, hnamed, hpoised, ?_, fun _ _ ↦ hprocess,
    fun hne ↦ absurd hjobs hne, fun job hjob ↦ ?_, fun d hd ↦ ?_⟩
  · rintro row (hrow | hrow | ⟨rows, ok, hsome, hrow⟩)
    · exact (h.covered row (.inl hrow)).grows hgrows
    · exact (h.covered row (.inr (.inl hrow))).grows hgrows
    · exact hrows rows ok hsome row hrow
  · change job ∈ node.jobs at hjob
    rw [hjobs] at hjob
    cases hjob
  · obtain ⟨hused, hgone, hexpired⟩ := h.deleted d hd
    refine ⟨List.mem_append_left _ hused, fun f hf heq ↦ ?_, hexpired⟩
    rcases hnames f hf with hold | hnew
    · obtain ⟨g, hg, hgname⟩ := List.mem_map.mp hold
      exact hgone g hg (hgname.trans heq)
    · exact hfresh f.name hnew (heq ▸ List.mem_map_of_mem hused)

theorem poised_spawned (files : List SegmentFile) (n createdNs retainedBytes : ℕ) :
    (Thread.spawned files n createdNs retainedBytes).session.Poised crc32 m (· = []) where
  active := by
    refine ⟨createdNs, [], [], ?_, .inl rfl, rfl⟩
    simp [Thread.spawned, Thread.session, ActiveWriter.new, ActiveWriter.stream, body]
  pending := fun _ hrow ↦ absurd hrow List.not_mem_nil

theorem openStore (h : node.Safe crc32 cfg root) {name : Option ℕ} (createdNs : ℕ) (full : Bool)
    (hfresh : Fresh root node name) :
    (node.openStore crc32 cfg root name createdNs full).Safe crc32 cfg root := by
  unfold Node.openStore
  split
  · next files p hstore hp =>
      have hfiles : node.store.files = files := by
        rw [hstore]
        rfl
      have hclosed : ∀ t, node.store ≠ .running t := by
        rw [hstore]
        exact fun t heq ↦ by cases heq
      have hnamed := h.named
      have hnodup : (files.map SegmentFile.name).Nodup := by
        rw [hfiles] at hnamed
        exact h.nodup.of_map.sublist hnamed
      have hold : ∀ {after : List SegmentFile},
          Grows crc32 cfg.maxRecordBytes node.store.files after → ∀ rows ok,
          node.recovering = some (rows, ok) → ∀ row ∈ rows, Covered crc32 cfg.maxRecordBytes after row :=
        fun hgrows rows ok hsome row hrow ↦
          (h.covered row (.inr (.inr ⟨rows, ok, hsome, hrow⟩))).grows hgrows
      rw [hfiles] at hnamed hold
      dsimp only
      rcases Store.openStore_cases crc32 cfg root files name createdNs with
        hsame | ⟨repaired, hrecover, hopen⟩
      · rw [hsame]
        refine h.reopened hclosed hfresh (fun f hf ↦ .inl ?_)
          (hnamed.trans (List.sublist_append_left _ _)) ?_ (fun t ht ↦ by cases ht) ⟨p, hp⟩ ?_
        · exact hfiles ▸ List.mem_map_of_mem hf
        · exact hfiles ▸ Grows.refl _
        · exact hold (Grows.refl _)
      have hgrows := grows_repaired hnodup hrecover
      have hsub := map_name_repaired hrecover
      rcases hopen with hshut | ⟨n, rfl, hfree, -, hrunning⟩
      · rw [hshut]
        refine h.reopened hclosed hfresh (fun f hf ↦ .inl ?_)
          ((hsub.trans hnamed).trans (List.sublist_append_left _ _)) ?_ (fun t ht ↦ by cases ht)
          ⟨p, hp⟩ ?_
        · exact hfiles ▸ hsub.subset (List.mem_map_of_mem hf)
        · exact hfiles ▸ hgrows
        · exact hold hgrows
      · rw [hrunning]
        have hdisk : (Store.running (Thread.spawned repaired n createdNs
            (root.directoryBytes repaired))).files = repaired ++ [⟨n, []⟩] := rfl
        refine h.reopened hclosed hfresh (fun f hf ↦ ?_) ?_ (fun f hf r hr ↦ ?_) ?_ ⟨p, hp⟩ ?_
        · rw [hdisk, List.mem_append, List.mem_singleton] at hf
          rcases hf with hf | rfl
          · exact .inl (hfiles ▸ hsub.subset (List.mem_map_of_mem hf))
          · exact .inr rfl
        · change ((Thread.spawned repaired n createdNs _).session.disk.map SegmentFile.name).Sublist _
          rw [Store.disk_spawned]
          exact (hsub.trans hnamed).append (List.Sublist.refl _)
        · obtain ⟨g, hg, hname, hr'⟩ := hgrows f (hfiles ▸ hf) r hr
          exact ⟨g, List.mem_append_left _ hg, hname, hr'⟩
        · rintro t ⟨⟩
          exact poised_spawned repaired n createdNs _
        · rintro rows ok hsome
          obtain ⟨hrows, -⟩ := Prod.mk.inj (Option.some.inj hsome)
          rw [← hrows]
          exact covered_recoveryRows fun f hf ↦ List.mem_append_left _ (mem_recoveryFiles f hf)
  · exact h

theorem request (h : node.Safe crc32 cfg root) (cutoff : ℕ) :
    (node.step crc32 cfg root (.request cutoff)).Safe crc32 cfg root := by
  rw [Node.step]
  split
  · next t hstore hrecovering =>
      refine h.withJobs (fun _ ↦ ⟨hrecovering, t, hstore⟩) fun job hjob ↦ ?_
      rcases List.mem_append.mp hjob with hold | hnew
      · exact h.jobs job hold
      · obtain rfl := List.mem_singleton.mp hnew
        trivial
  · exact h

end Safe

/-! ## Runs -/

end Node

/-- The name that a step gives a new file. -/
def NodeStep.newName : NodeStep → Option ℕ
  | openStore name _ _ => name
  | writer e => e.newName
  | sealSegments _ io _ => io.name
  | _ => none

/-- The records that a step appends. -/
def NodeStep.records : NodeStep → List ContentRecord
  | writer e => appended [e]
  | _ => []

namespace Node

/-- What the surroundings promise: the identifiers in the names of new files are new, and
times are `u64`. -/
structure Real (root : Root) (node : Node) (e : NodeStep) : Prop where
  fresh : ∀ name ∈ e.newName, root.path name ∉ node.used.map root.path
  times : ∀ r ∈ e.records, r.tsNs < 2 ^ 64

instance (root : Root) (node : Node) (e : NodeStep) : Decidable (node.Real root e) :=
  decidable_of_iff ((∀ name ∈ e.newName, root.path name ∉ node.used.map root.path) ∧
    ∀ r ∈ e.records, r.tsNs < 2 ^ 64) ⟨fun h ↦ ⟨h.1, h.2⟩, fun h ↦ ⟨h.1, h.2⟩⟩

/-- No row in the database or in the spool refers to a deleted file, and what was deleted is
older than the cutoff. -/
structure Retains (crc32 : Bytes → BitVec 32) (root : Root) (m : ℕ) (node : Node) : Prop where
  present : ∀ row, (row ∈ node.contentIndex ∨
    ∃ f ∈ node.metadata.spool, .contentIndex row ∈ f.batch.events) →
      (∃ f ∈ node.store.files, f.name = row.segmentPath) ∧
        ∀ d ∈ node.deleted, root.path d.1.name ≠ root.path row.segmentPath
  older : ∀ d ∈ node.deleted, d.1.Expired crc32 m d.2

variable {crc32 : Bytes → BitVec 32} {cfg : Config} {root : Root} {node : Node}

/-- The step lemma. -/
theorem Safe.step (h : node.Safe crc32 cfg root) {e : NodeStep} (he : node.Real root e) :
    (node.step crc32 cfg root e).Safe crc32 cfg root := by
  cases e with
  | openStore name createdNs full => exact h.openStore createdNs full he.fresh
  | recover => exact h.recover
  | writer e => exact h.command he.fresh he.times
  | metadata a =>
      change Safe crc32 cfg root (if ofPipeline a then _ else _)
      split_ifs with ha
      · exact h.pipeline ha
      · exact h
  | insert ok kept => exact h.insert ok kept
  | request cutoff => exact h.request cutoff
  | sealSegments job io listed => exact h.sealSegments job listed he.fresh
  | select job => exact h.select job
  | barrier job => exact h.barrier job
  | answer job => exact h.answer job
  | deleteBefore job applied ok => exact h.deleteBefore job applied ok
  | deleteSegment job ok => exact h.deleteSegment job ok
  | abort job => exact h.dropJob job
  | crash => exact h.crash

theorem safe_start : ({} : Node).Safe crc32 cfg root where
  metadata := metadataOk_run []
  nodup := List.nodup_nil
  named := List.Sublist.refl _
  poised := fun t ht ↦ by cases ht
  covered := by
    rintro row (hrow | hrow | ⟨rows, ok, hsome, -⟩)
    · cases hrow
    · cases hrow
    · cases hsome
  process := fun t ht ↦ by cases ht
  busy := fun hne ↦ absurd rfl hne
  jobs := fun job hjob ↦ by cases hjob
  deleted := fun d hd ↦ by cases hd

theorem Safe.retains (h : node.Safe crc32 cfg root) : node.Retains crc32 root cfg.maxRecordBytes where
  present := by
    intro row hrow
    have hlive : node.Live row := hrow.imp_right fun hspool ↦ .inl (mem_live.mpr (.inl hspool))
    obtain ⟨f, hf, hname, -⟩ := h.covered row hlive
    refine ⟨⟨f, hf, hname⟩, fun d hd hpath ↦ ?_⟩
    obtain ⟨hused, hgone, -⟩ := h.deleted d hd
    rw [← hname] at hpath
    exact hgone f hf (h.name_eq (h.file_used hf) hused hpath.symm)
  older := fun d hd ↦ (h.deleted d hd).2.2

/-- In every run of writers, cleanups, the metadata pipeline and processes that end and start
again. -/
theorem retains_run (crc32 : Bytes → BitVec 32) (cfg : Config) (root : Root) (es : List NodeStep)
    (hreal : Along (Node.step crc32 cfg root) (Real root) {} es) :
    (runFrom (Node.step crc32 cfg root) {} es).Retains crc32 root cfg.maxRecordBytes := by
  have hsafe : (runFrom (Node.step crc32 cfg root) {} es).Safe crc32 cfg root :=
    invariant_runFrom (I := Safe crc32 cfg root) (fun node e h he ↦ h.step he) safe_start hreal
  exact hsafe.retains

/-- A record from the time 50 is written and its file is deleted with the cutoff 100, while
another record is appended and its row sent. -/
def retentionRun : List NodeStep :=
  [.metadata .start, .openStore (some 0) 5 true, .recover,
    .writer (.record { sampleRecord 1 [1] with tsNs := 50 } ⟨{}, true, none, 0⟩ none {}),
    .request 100, .sealSegments 0 ⟨{}, true, some 1, 6⟩ true, .select 0, .barrier 0,
    .writer (.record { sampleRecord 2 [2] with tsNs := 70 } ⟨{}, true, none, 0⟩ none {}),
    .writer (.flush {}), .metadata .receive, .metadata .receive, .metadata (.append .ok),
    .metadata .storeDurable, .metadata .answer, .metadata (.read true), .insert false 1,
    .insert true 0, .metadata (.remove .ok), .metadata .storeProjected, .metadata (.poll 0),
    .answer 0, .metadata .receive, .metadata .closeBatch, .metadata (.append .ok),
    .deleteBefore 0 true true, .deleteSegment 0 true]

theorem retains_retentionRun :
    Along (Node.step (fun _ ↦ 0) smallConfig Store.letteredRoot) (Real Store.letteredRoot) {}
        retentionRun ∧
      (runFrom (Node.step (fun _ ↦ 0) smallConfig Store.letteredRoot) {} retentionRun).Retains
        (fun _ ↦ 0) Store.letteredRoot smallConfig.maxRecordBytes ∧
      (runFrom (Node.step (fun _ ↦ 0) smallConfig Store.letteredRoot) {} retentionRun).deleted.map
        (fun d ↦ (d.1.name, d.2)) = [(0, 100)] ∧
      (runFrom (Node.step (fun _ ↦ 0) smallConfig Store.letteredRoot) {}
        retentionRun).metadata.spool.length = 1 :=
  have hreal : Along (Node.step (fun _ ↦ 0) smallConfig Store.letteredRoot)
      (Real Store.letteredRoot) {} retentionRun := by decide +kernel
  ⟨hreal, retains_run (fun _ ↦ 0) smallConfig Store.letteredRoot retentionRun hreal,
    by decide +kernel, by decide +kernel⟩

end Node

end Bazalt.Storage
