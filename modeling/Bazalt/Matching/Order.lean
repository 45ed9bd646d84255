import Bazalt.Matching.Bridging

/-!
# The order of the records

The records of a flow come from one L7 worker, which handles them one after the other.  So
what it submits of a stream is in the order in which it appended it, and two records that
follow each other in the stream still do so among those that are submitted.
-/

namespace Bazalt.Matching

open Lib

theorem pair_infix_of_sublist {α : Type*} {l l' : List α} {a b : α} (hnodup : l.Nodup)
    (hsub : l'.Sublist l) (hpair : [a, b] <:+: l) (ha : a ∈ l') (hb : b ∈ l') :
    [a, b] <:+: l' := by
  obtain ⟨front, rest, rfl⟩ := hpair
  rw [List.append_assoc, List.cons_append, List.singleton_append] at hnodup hsub
  obtain ⟨front', rest', rfl, hfront, hrest⟩ := List.sublist_append_iff.mp hsub
  obtain ⟨-, hnodup', hapart⟩ := List.nodup_append.mp hnodup
  have hlate : ∀ c ∈ [a, b], c ∈ front' ++ rest' → c ∈ rest' := by
    intro c hc hmem
    refine (List.mem_append.mp hmem).resolve_left fun hearly ↦ ?_
    exact hapart c (hfront.subset hearly) c (List.mem_append_left rest hc) rfl
  have ha' := hlate a (by simp) ha
  have hb' := hlate b (by simp) hb
  obtain ⟨hane, hbne⟩ := List.nodup_cons.mp hnodup'
  -- both records are kept, so they are the first two of what is left
  cases hrest with
  | cons _ hrest => exact absurd (hrest.subset ha') hane
  | cons_cons _ hrest =>
      have hb'' := (List.mem_cons.mp hb').resolve_left fun heq ↦ hane (heq ▸ List.mem_cons_self)
      cases hrest with
      | cons _ hrest => exact absurd (hrest.subset hb'') (List.nodup_cons.mp hbne).1
      | @cons_cons rest' _ _ hrest => exact ⟨front', rest', by simp⟩

theorem pair_infix_of_prefix {α : Type*} {l l' : List α} {a b : α} (hnodup : l.Nodup)
    (hbegin : l' <+: l) (hpair : [a, b] <:+: l) (hb : b ∈ l') : [a, b] <:+: l' := by
  obtain ⟨front, rest, rfl⟩ := hpair
  have hlong : front ++ [a] ++ [b] <+: front ++ [a, b] ++ rest := ⟨rest, by simp⟩
  rcases List.prefix_or_prefix_of_prefix hlong hbegin with hle | hle
  · exact List.IsInfix.trans ⟨front, [], by simp⟩ hle.isInfix
  · rcases List.prefix_concat_iff.mp hle with rfl | hle
    · exact ⟨front, [], by simp⟩
    · have hearly := hle.subset hb
      rw [show front ++ [a, b] ++ rest = (front ++ [a]) ++ (b :: rest) by simp] at hnodup
      exact absurd rfl ((List.nodup_append.mp hnodup).2.2 b hearly b List.mem_cons_self)

def Command.record? : Command → Option ContentRecord
  | .record r => some r
  | .sealFor _ => none

/-- The records that the worker has not appended yet. -/
def Worker.ahead (w : Worker) : List ContentRecord :=
  match w.stage with
  | .checked record _ => record :: w.todo
  | _ => w.todo

/-- The record that is appended and may be submitted. -/
def Fanout.held : Fanout → List ContentRecord
  | .appended record => [record]
  | .masked record => [record]
  | .snapshotted record _ => [record]
  | .prepared work => [work.record]
  | _ => []

section

variable {ι : Type} [DecidableEq ι]

/-- The records of the flows of a worker. -/
def ofOwner (owner : Uuid → ι) (i : ι) (records : List ContentRecord) : List ContentRecord :=
  records.filter fun record ↦ decide (owner record.flowId = i)

namespace Pipeline

def records (s : Pipeline ι) : List ContentRecord := s.queue.filterMap Command.record?

/-- The records that the live matcher was given. -/
def given (s : Pipeline ι) : List ContentRecord := s.submitted.map Work.record

/-- Nothing has happened yet, and every flow has a worker of its own. -/
structure Starts (owner : Uuid → ι) (s : Pipeline ι) : Prop where
  queue : s.queue = []
  submitted : s.submitted = []
  idle : ∀ i, (s.workers i).stage = .idle
  owned : ∀ i, ∀ record ∈ (s.workers i).todo, owner record.flowId = i
  distinct : ∀ i, (s.workers i).todo.Nodup
  fits : ∀ i, ∀ record ∈ (s.workers i).todo,
    record.streamOffset + record.data.length ≤ u64Max

/-- A worker appends its records in their order, and submits them in the order in which it
appended them. -/
structure InOrder (owner : Uuid → ι) (todos : ι → List ContentRecord) (s : Pipeline ι) : Prop where
  appended : ∀ i, (ofOwner owner i s.records ++ (s.workers i).ahead).Sublist (todos i)
  submitted : ∀ i, (ofOwner owner i s.given ++ (s.workers i).stage.held).Sublist
    (ofOwner owner i s.records)

end Pipeline

variable {owner : Uuid → ι} {todos : ι → List ContentRecord} {s : Pipeline ι}

theorem ofOwner_append (i : ι) (as bs : List ContentRecord) :
    ofOwner owner i (as ++ bs) = ofOwner owner i as ++ ofOwner owner i bs :=
  List.filter_append _ _

theorem ofOwner_self {i : ι} {records : List ContentRecord}
    (h : ∀ r ∈ records, owner r.flowId = i) : ofOwner owner i records = records :=
  List.filter_eq_self.mpr fun r hr ↦ by simpa using h r hr

theorem ofOwner_other {i j : ι} (hne : j ≠ i) {records : List ContentRecord}
    (h : ∀ r ∈ records, owner r.flowId = i) : ofOwner owner j records = [] :=
  List.filter_eq_nil_iff.mpr fun r hr ↦ by simpa [h r hr] using Ne.symm hne

theorem owner_of_mem {i : ι} {records : List ContentRecord} {r : ContentRecord}
    (h : r ∈ ofOwner owner i records) : owner r.flowId = i := by
  simpa using (List.mem_filter.mp h).2

namespace Pipeline

/-- What a worker's step has to show. -/
theorem InOrder.setWorker (h : s.InOrder owner todos)
    (howned : ∀ i, ∀ r ∈ todos i, owner r.flowId = i) (i : ι) (w : Worker)
    (more : List ContentRecord) (works : List Work) {queue : List Command}
    {submitted : List Work} (hqueue : queue = s.queue ++ more.map .record)
    (hsubmitted : submitted = s.submitted ++ works)
    (hahead : (more ++ w.ahead).Sublist (s.workers i).ahead)
    (hheld : (works.map Work.record ++ w.stage.held).Sublist
      ((s.workers i).stage.held ++ more)) :
    ({ s with queue, submitted } : Pipeline ι).setWorker i w |>.InOrder owner todos := by
  have hmore : ∀ r ∈ more, owner r.flowId = i := by
    intro r hr
    refine howned i r ((h.appended i).subset (List.mem_append_right _ ?_))
    exact hahead.subset (List.mem_append_left _ hr)
  have hworks : ∀ r ∈ works.map Work.record, owner r.flowId = i := by
    intro r hr
    rcases List.mem_append.mp (hheld.subset (List.mem_append_left _ hr)) with hr | hr
    · exact owner_of_mem ((h.submitted i).subset (List.mem_append_right _ hr))
    · exact hmore r hr
  have hrecords : (({ s with queue, submitted } : Pipeline ι).setWorker i w).records =
      s.records ++ more := by
    have hmap : (more.map Command.record).filterMap Command.record? = more := by
      rw [List.filterMap_map]
      exact List.filterMap_some
    rw [records, Pipeline.setWorker, hqueue, List.filterMap_append, hmap]
    rfl
  have hgiven : (({ s with queue, submitted } : Pipeline ι).setWorker i w).given =
      s.given ++ works.map Work.record := by
    rw [given, Pipeline.setWorker, hsubmitted, List.map_append]
    rfl
  have hself : (({ s with queue, submitted } : Pipeline ι).setWorker i w).workers i = w :=
    Function.update_self _ _ _
  have hother : ∀ j, j ≠ i → (({ s with queue, submitted } : Pipeline ι).setWorker i w).workers j =
      s.workers j := fun j hj ↦ Function.update_of_ne hj _ _
  constructor
  · intro j
    rw [hrecords, ofOwner_append]
    by_cases hj : j = i
    · subst hj
      rw [hself, ofOwner_self hmore, List.append_assoc]
      exact ((List.Sublist.refl _).append hahead).trans (h.appended j)
    · rw [hother j hj, ofOwner_other hj hmore, List.append_nil]
      exact h.appended j
  · intro j
    rw [hrecords, hgiven, ofOwner_append, ofOwner_append]
    by_cases hj : j = i
    · subst hj
      rw [hself, ofOwner_self hmore, ofOwner_self hworks, List.append_assoc]
      refine ((List.Sublist.refl _).append hheld).trans ?_
      rw [← List.append_assoc]
      exact (h.submitted j).append (List.Sublist.refl _)
    · rw [hother j hj, ofOwner_other hj hmore, ofOwner_other hj hworks, List.append_nil,
        List.append_nil]
      exact h.submitted j

theorem InOrder.fanout (h : s.InOrder owner todos)
    (howned : ∀ i, ∀ r ∈ todos i, owner r.flowId = i) (i : ι) (accepted : Bool) :
    (s.fanout i accepted).InOrder owner todos := by
  unfold Pipeline.fanout
  cases hstage : (s.workers i).stage with
  | idle =>
      cases htodo : (s.workers i).todo with
      | nil => simpa [hstage, htodo] using h
      | cons record todo =>
          simp only [hstage, htodo]
          refine h.setWorker howned i _ [] [] (by simp) (by simp) ?_ ?_
          · simp [Worker.ahead, hstage, htodo]
          · simp [Fanout.held]
  | checked record interested =>
      simp only [hstage]
      cases accepted with
      | true =>
          simp only [if_true]
          refine h.setWorker howned i _ [record] [] rfl (by simp) ?_ ?_
          · cases interested <;> simp [Worker.ahead, hstage]
          · cases interested <;> simp [Fanout.held, hstage]
      | false =>
          simp only [Bool.false_eq_true, if_false]
          refine h.setWorker howned i _ [] [] (by simp) (by simp) ?_ ?_
          · simp [Worker.ahead, hstage]
          · simp [Fanout.held]
  | appended record =>
      simp only [hstage]
      refine h.setWorker howned i _ [] [] (by simp) (by simp) ?_ ?_
      · split_ifs <;> simp [Worker.ahead, hstage]
      · split_ifs <;> simp [Fanout.held, hstage]
  | masked record =>
      simp only [hstage]
      refine h.setWorker howned i _ [] [] (by simp) (by simp) ?_ ?_
      · split_ifs <;> simp [Worker.ahead, hstage]
      · split_ifs <;> simp [Fanout.held, hstage]
  | snapshotted record snapshot =>
      simp only [hstage]
      refine h.setWorker howned i _ [] [] (by simp) (by simp) ?_ ?_
      · simp [Worker.ahead, hstage]
      · simp [Fanout.held, hstage]
  | prepared work =>
      simp only [hstage]
      refine h.setWorker howned i _ [] [work] (by simp) rfl ?_ ?_
      · simp [Worker.ahead, hstage]
      · simp [Fanout.held, hstage]

/-- The step lemma. -/
theorem InOrder.step (h : s.InOrder owner todos)
    (howned : ∀ i, ∀ r ∈ todos i, owner r.flowId = i) (e : Event ι) :
    (s.step e).InOrder owner todos := by
  cases e with
  | worker i accepted => exact h.fanout howned i accepted
  | install =>
      obtain ⟨hqueue, hsubmitted, hworkers⟩ := s.installNext_frame
      constructor
      · simpa only [Pipeline.step, records, hqueue, hworkers] using h.appended
      · simpa only [Pipeline.step, records, given, hqueue, hsubmitted, hworkers] using h.submitted
  | sealFor g =>
      simp only [Pipeline.step, enqueueSeal]
      split_ifs
      · have hrecords : (s.queue ++ [Command.sealFor g]).filterMap Command.record? =
            s.queue.filterMap Command.record? := by
          simp [Command.record?]
        constructor
        · simpa only [records, hrecords] using h.appended
        · simpa only [records, given, hrecords] using h.submitted
      · exact h

theorem Starts.inOrder (h : s.Starts owner) : s.InOrder owner fun i ↦ (s.workers i).todo := by
  constructor
  · intro i
    simp [records, h.queue, ofOwner, Worker.ahead, h.idle i]
  · intro i
    simp [given, h.submitted, ofOwner, h.idle i, Fanout.held]

/-- The run lemma. -/
theorem Starts.run (h : s.Starts owner) (es : List (Event ι)) :
    (runFrom Pipeline.step s es).InOrder owner fun i ↦ (s.workers i).todo :=
  invariant_runFrom_of_step
    (I := fun s' : Pipeline ι ↦ s'.InOrder owner fun i ↦ (s.workers i).todo)
    (fun _ e hs ↦ hs.step h.owned e) es h.inOrder

/-! ## Streams -/

omit [DecidableEq ι] in
theorem ofKey_ofOwner [DecidableEq ι] (owner : Uuid → ι) (key : StreamKey)
    (records : List ContentRecord) :
    ofKey key (ofOwner owner (owner key.flowId) records) = ofKey key records := by
  rw [ofKey, ofOwner, List.filter_filter]
  refine List.filter_congr fun r _ ↦ ?_
  rw [Bool.and_eq_left_iff_imp]
  intro hkey
  obtain rfl := of_decide_eq_true hkey
  exact decide_eq_true rfl

theorem InOrder.nodup (h : s.InOrder owner todos) (hdistinct : ∀ i, (todos i).Nodup)
    (key : StreamKey) : (ofKey key s.records).Nodup := by
  rw [← ofKey_ofOwner owner]
  refine List.Nodup.filter _ ((hdistinct (owner key.flowId)).sublist ?_)
  exact (List.sublist_append_left _ _).trans (h.appended _)

theorem InOrder.given_sublist (h : s.InOrder owner todos) (key : StreamKey) :
    (ofKey key s.given).Sublist (ofKey key s.records) := by
  rw [← ofKey_ofOwner owner, ← ofKey_ofOwner owner key s.records]
  exact ((List.sublist_append_left _ _).trans (h.submitted _)).filter _

/-- Records of a stream that follow each other and are submitted follow each other there. -/
theorem InOrder.pair_given (h : s.InOrder owner todos) (hdistinct : ∀ i, (todos i).Nodup)
    {r₁ r₂ : ContentRecord} (hpair : [r₁, r₂] <:+: ofKey (streamKey r₂) s.records)
    (h₁ : r₁ ∈ s.given) (h₂ : r₂ ∈ s.given) :
    [r₁, r₂] <:+: ofKey (streamKey r₂) s.given := by
  have hkey : ∀ r ∈ [r₁, r₂], streamKey r = streamKey r₂ := fun r hr ↦ by
    simpa using (List.mem_filter.mp (hpair.subset hr)).2
  refine pair_infix_of_sublist (h.nodup hdistinct _) (h.given_sublist _) hpair ?_ ?_
  · exact List.mem_filter.mpr ⟨h₁, by simpa using hkey r₁ (by simp)⟩
  · exact List.mem_filter.mpr ⟨h₂, by simp⟩

end Pipeline

end

end Bazalt.Matching
