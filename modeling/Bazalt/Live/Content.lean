import Bazalt.Http.Stored

/-!
# From the shards to the store

The shards send their events to the L7 workers, whose queues are bounded: a shard that finds
no room waits, and handles its next packet when all events of the last one are sent.  All
events of a flow go to one worker.

However the steps of shards and workers interleave, what is stored of a flow is made of the
events that its shard has sent for it, in their order, and when nothing waits any more, of
all of them.  A worker knows nothing of a flow whose close it has handled.
-/

namespace Bazalt.Live

open Lib Bazalt.Flow Http L7Worker

structure ContentConfig where
  flow : FlowConfig
  http : HttpConfig
  flowToL7Capacity : ℕ

/-- Shards with the events that they have not sent yet, and the workers. -/
structure Content (ι : Type) (n : ℕ) where
  shard : ι → Outputs := fun _ ↦ {}
  unsent : ι → List FlowOutput := fun _ ↦ []
  l7 : L7Workers n := { worker := fun _ ↦ {} }

namespace Content

inductive Event (ι : Type) (n : ℕ) where
  /-- A step of a shard, with the counter of active flows as the others have left it. -/
  | shard (i : ι) (active : ℕ) (m : Move)
  /-- A shard sends its next event, and the worker will find the readings. -/
  | send (i : ι) (r : Readings)
  | take (j : Fin (n + 1))

variable {ι : Type} [DecidableEq ι] {n : ℕ} (cfg : ContentConfig)

abbrev Takes (l7 : L7Workers n) (d : Delivery) : Prop :=
  Keyed.Workers.Takes (keyed cfg.http) (l7Layout n cfg.flowToL7Capacity) l7 d

def step (s : Content ι n) : Event ι n → Content ι n
  | .shard i active m =>
      match s.unsent i with
      | [] =>
          { s with
            shard := Function.update s.shard i ((s.shard i).step cfg.flow (active, m))
            unsent := Function.update s.unsent i
              ((s.shard i).worker.step cfg.flow active m).out }
      | _ :: _ => s
  | .send i r =>
      match s.unsent i with
      | [] => s
      | e :: rest =>
          if Takes cfg s.l7 ⟨e, r⟩ then
            { s with
              unsent := Function.update s.unsent i rest
              l7 := s.l7.step (keyed cfg.http) (l7Layout n cfg.flowToL7Capacity)
                (.send ⟨e, r⟩) }
          else s
  | .take j =>
      { s with
        l7 := s.l7.step (keyed cfg.http) (l7Layout n cfg.flowToL7Capacity) (.take j) }

/-- The shards get fresh identifiers for their flows, and the metadata writer runs. -/
def Meets (s : Content ι n) : Event ι n → Prop
  | .shard i active m => Outputs.Served cfg.flow (s.shard i) (active, m) ∧
      ∀ id ∈ (s.shard i).worker.created cfg.flow m, ∀ j, id ∉ (s.shard j).created
  | .send _ r => r.metadata = true
  | .take _ => True

def after (es : List (Event ι n)) : Content ι n := runFrom (step cfg) {} es

/-- What the workers have handled of a flow. -/
def handledOf (s : Content ι n) (id : Uuid) : List Delivery :=
  (keyed cfg.http).eventsOf id s.l7.handled

/-- What the workers have handed on about a flow. -/
def outputsOf (s : Content ι n) (id : Uuid) : List L7Output := Keyed.outputsOf id s.l7.log

structure Sound (s : Content ι n) : Prop where
  shards : ∀ i, (s.shard i).Sound
  apart : ∀ i j id, id ∈ (s.shard i).created → id ∈ (s.shard j).created → i = j
  l7 : Keyed.Workers.Faithful (keyed cfg.http) (l7Layout n cfg.flowToL7Capacity) {} s.l7
  running : ∀ j, s.l7.stopped j = false
  metadata : ∀ d ∈ s.l7.sent, d.stops = false
  inFlight : ∀ j, ∀ d ∈ s.l7.queue j, d.stops = false
  sent : ∀ i id, id ∈ (s.shard i).created →
    eventsOf id (s.l7.sent.map Delivery.event) ++ eventsOf id (s.unsent i) =
      eventsOf id (s.shard i).log
  unsent : ∀ i, ∀ e ∈ s.unsent i, e.flowId ∈ (s.shard i).created
  known : ∀ d ∈ s.l7.sent, ∃ i, d.flowId ∈ (s.shard i).created

variable {cfg} {s : Content ι n}

theorem eventsOf_map (ds : List Delivery) (id : Uuid) :
    ((keyed cfg.http).eventsOf id ds).map Delivery.event =
      eventsOf id (ds.map Delivery.event) := by
  rw [Keyed.eventsOf, eventsOf, List.filter_map]
  rfl

theorem eventsOf_of_absent {log : List FlowOutput} {id : Uuid} (h : ∀ e ∈ log, e.flowId ≠ id) :
    eventsOf id log = [] := by
  rw [eventsOf, List.filter_eq_nil_iff]
  exact fun e he ↦ by simpa using h e he

theorem eventsOf_append_filter {id : Uuid} {as bs : List FlowOutput} :
    eventsOf id (as ++ bs) = eventsOf id as ++ eventsOf id bs := List.filter_append _ _

omit [DecidableEq ι] in
theorem sound_start : Sound cfg ({} : Content ι n) where
  shards _ := Outputs.sound_start
  apart _ _ _ hid := absurd hid List.not_mem_nil
  l7 := Keyed.Workers.faithful_start
  running _ := rfl
  metadata _ hd := absurd hd List.not_mem_nil
  inFlight _ _ hd := absurd hd List.not_mem_nil
  sent _ _ hid := absurd hid List.not_mem_nil
  unsent _ _ he := absurd he List.not_mem_nil
  known _ hd := absurd hd List.not_mem_nil

/-- A shard that waits for nothing takes a step. -/
theorem Sound.shard (h : Sound cfg s) {i : ι} {active : ℕ} {m : Move} (hnone : s.unsent i = [])
    (hmeets : Meets cfg s (.shard i active m)) : Sound cfg (s.step cfg (.shard i active m)) := by
  obtain ⟨hserved, hfresh⟩ := hmeets
  have hi := (h.shards i).step (active, m) hserved
  rw [step, hnone]
  dsimp only
  have hcreated : ∀ j, ∀ id ∈ (s.shard j).created,
      id ∈ (Function.update s.shard i ((s.shard i).step cfg.flow (active, m)) j).created := by
    intro j id hid
    by_cases hj : j = i
    · subst hj
      rw [Function.update_self]
      exact List.mem_append_left _ hid
    · rwa [Function.update_of_ne hj]
  have hnew : ∀ id ∈ ((s.shard i).step cfg.flow (active, m)).created,
      id ∈ (s.shard i).created ∨ ∀ j, id ∉ (s.shard j).created := by
    intro id hid
    rcases List.mem_append.mp hid with hid | hid
    · exact .inl hid
    · exact .inr (hfresh id (Option.mem_toList.mp hid))
  refine ⟨fun j ↦ ?_, fun j k id hj hk ↦ ?_, h.l7, h.running, h.metadata, h.inFlight,
    fun j id hid ↦ ?_, fun j e he ↦ ?_, fun d hd ↦ ?_⟩
  · dsimp only
    by_cases hj : j = i
    · subst hj
      rwa [Function.update_self]
    · rw [Function.update_of_ne hj]
      exact h.shards j
  · dsimp only at hj hk
    by_cases hji : j = i <;> by_cases hki : k = i
    · rw [hji, hki]
    · subst hji
      rw [Function.update_self] at hj
      rw [Function.update_of_ne hki] at hk
      rcases hnew id hj with hold | hfresh
      · exact h.apart j k id hold hk
      · exact absurd hk (hfresh k)
    · subst hki
      rw [Function.update_self] at hk
      rw [Function.update_of_ne hji] at hj
      rcases hnew id hk with hold | hfresh
      · exact h.apart j k id hj hold
      · exact absurd hj (hfresh j)
    · rw [Function.update_of_ne hji] at hj
      rw [Function.update_of_ne hki] at hk
      exact h.apart j k id hj hk
  · dsimp only at hid ⊢
    by_cases hj : j = i
    · subst hj
      rw [Function.update_self] at hid
      rw [Function.update_self, Function.update_self]
      have hlog : eventsOf id ((s.shard j).step cfg.flow (active, m)).log =
          eventsOf id (s.shard j).log ++
            eventsOf id ((s.shard j).worker.step cfg.flow active m).out := List.filter_append _ _
      rw [hlog]
      congr 1
      rcases hnew id hid with hold | hfresh
      · have hsent := h.sent j id hold
        rw [hnone] at hsent
        rw [← hsent]
        exact (List.append_nil _).symm
      · have hno : ∀ e ∈ s.l7.sent.map Delivery.event, e.flowId ≠ id := by
          intro e he hid
          obtain ⟨d, hd, rfl⟩ := List.mem_map.mp he
          obtain ⟨k, hk⟩ := h.known d hd
          exact hfresh k (hid ▸ hk)
        have hlog' : ∀ e ∈ (s.shard j).log, e.flowId ≠ id := fun e he hid ↦
          hfresh j (hid ▸ (h.shards j).books.known e he)
        rw [eventsOf_of_absent hno, eventsOf_of_absent hlog']
    · rw [Function.update_of_ne hj] at hid
      rw [Function.update_of_ne hj, Function.update_of_ne hj]
      exact h.sent j id hid
  · dsimp only at he ⊢
    by_cases hj : j = i
    · subst hj
      rw [Function.update_self] at he
      rw [Function.update_self]
      exact hi.books.known e (List.mem_append_right _ he)
    · rw [Function.update_of_ne hj] at he
      rw [Function.update_of_ne hj]
      exact h.unsent j e he
  · obtain ⟨j, hj⟩ := h.known d hd
    exact ⟨j, hcreated j d.flowId hj⟩

/-- A shard sends its next event. -/
theorem Sound.send (h : Sound cfg s) {i : ι} {r : Readings} {e : FlowOutput}
    {rest : List FlowOutput} (hunsent : s.unsent i = e :: rest) (htakes : Takes cfg s.l7 ⟨e, r⟩)
    (hmetadata : r.metadata = true) : Sound cfg (s.step cfg (.send i r)) := by
  have hstep : s.l7.step (keyed cfg.http) (l7Layout n cfg.flowToL7Capacity)
      (.send ⟨e, r⟩) = s.l7.enqueue (keyed cfg.http) (l7Layout n cfg.flowToL7Capacity)
        ⟨e, r⟩ := if_pos htakes
  have hstops : (⟨e, r⟩ : Delivery).stops = false := by simp [Delivery.stops, hmetadata]
  rw [step, hunsent]
  dsimp only
  rw [if_pos htakes, hstep]
  refine ⟨h.shards, h.apart, h.l7.enqueue ⟨e, r⟩, h.running, fun d hd ↦ ?_, fun j d hd ↦ ?_,
    fun j id hid ↦ ?_, fun j e' he' ↦ ?_, fun d hd ↦ ?_⟩
  · rcases List.mem_append.mp hd with hd | hd
    · exact h.metadata d hd
    · rwa [List.mem_singleton.mp hd]
  · dsimp only [Keyed.Workers.enqueue] at hd
    by_cases hj : j = (l7Layout n cfg.flowToL7Capacity).owner
        ((keyed cfg.http).key ⟨e, r⟩)
    · subst hj
      rw [Function.update_self] at hd
      rcases List.mem_append.mp hd with hd | hd
      · exact h.inFlight _ d hd
      · rwa [List.mem_singleton.mp hd]
    · rw [Function.update_of_ne hj] at hd
      exact h.inFlight j d hd
  · have hsent := h.sent j id hid
    have hmap : eventsOf id ((s.l7.sent ++ [(⟨e, r⟩ : Delivery)]).map Delivery.event) =
        eventsOf id (s.l7.sent.map Delivery.event) ++ eventsOf id [e] := by
      rw [List.map_append, eventsOf, List.filter_append]
      rfl
    dsimp only [Keyed.Workers.enqueue]
    rw [hmap, List.append_assoc]
    by_cases hj : j = i
    · subst hj
      rw [hunsent] at hsent
      rw [Function.update_self, ← hsent]
      congr 1
      exact (List.filter_append [e] rest).symm
    · rw [Function.update_of_ne hj]
      have hother : ∀ e' ∈ [e], e'.flowId ≠ id := by
        intro e' he' hid'
        obtain rfl := List.mem_singleton.mp he'
        have hown := h.unsent i e' (hunsent ▸ List.mem_cons_self)
        exact hj (h.apart j i id hid (hid' ▸ hown))
      rw [eventsOf_of_absent hother, List.nil_append]
      exact hsent
  · dsimp only at he'
    by_cases hj : j = i
    · subst hj
      rw [Function.update_self] at he'
      exact h.unsent j e' (hunsent ▸ List.mem_cons_of_mem e he')
    · rw [Function.update_of_ne hj] at he'
      exact h.unsent j e' he'
  · rcases List.mem_append.mp hd with hd | hd
    · exact h.known d hd
    · rw [List.mem_singleton.mp hd]
      exact ⟨i, h.unsent i e (hunsent ▸ List.mem_cons_self)⟩

theorem Sound.take (h : Sound cfg s) (j : Fin (n + 1)) : Sound cfg (s.step cfg (.take j)) := by
  have hl7 := h.l7.step (.take j)
  rw [step]
  rw [Keyed.Workers.step, h.running j, if_neg Bool.false_ne_true] at hl7 ⊢
  cases hqueue : s.l7.queue j with
  | nil =>
      rw [hqueue] at hl7
      exact ⟨h.shards, h.apart, hl7, h.running, h.metadata, h.inFlight, h.sent, h.unsent, h.known⟩
  | cons d rest =>
      rw [hqueue] at hl7
      have hd : (l7Layout n cfg.flowToL7Capacity).stops d = false :=
        h.inFlight j d (hqueue ▸ List.mem_cons_self)
      refine ⟨h.shards, h.apart, hl7, fun k ↦ ?_, h.metadata, fun k d' hd' ↦ ?_, h.sent, h.unsent,
        h.known⟩
      · dsimp only [Keyed.Workers.handle]
        by_cases hk : k = j
        · subst hk
          rw [Function.update_self, hd]
        · rw [Function.update_of_ne hk]
          exact h.running k
      · dsimp only [Keyed.Workers.handle] at hd'
        by_cases hk : k = j
        · subst hk
          rw [Function.update_self, hd, if_neg Bool.false_ne_true] at hd'
          exact h.inFlight k d' (hqueue ▸ List.mem_cons_of_mem d hd')
        · rw [Function.update_of_ne hk] at hd'
          exact h.inFlight k d' hd'

/-- The step lemma. -/
theorem Sound.step (h : Sound cfg s) (e : Event ι n) (hmeets : Meets cfg s e) :
    Sound cfg (s.step cfg e) := by
  cases e with
  | shard i active m =>
      cases hunsent : s.unsent i with
      | nil => exact h.shard hunsent hmeets
      | cons e rest =>
          rw [Content.step, hunsent]
          exact h
  | send i r =>
      cases hunsent : s.unsent i with
      | nil =>
          rw [Content.step, hunsent]
          exact h
      | cons e rest =>
          by_cases htakes : Takes cfg s.l7 ⟨e, r⟩
          · exact h.send hunsent htakes hmeets
          · rw [Content.step, hunsent]
            dsimp only
            rw [if_neg htakes]
            exact h
  | take j => exact h.take j

theorem sound_after {es : List (Event ι n)} (h : Along (Content.step cfg) (Meets cfg) {} es) :
    Sound cfg (after cfg es) :=
  invariant_runFrom (fun _ e hs hmeets ↦ hs.step e hmeets) sound_start h

/-! ## One flow -/

/-- The last event of a flow is the only one that can be a close. -/
theorem closesLast_of_isPrefix {ds : List Delivery} {events : List FlowOutput}
    (hle : ds.map Delivery.event <+: events) (hevents : (∀ e ∈ events, e.isClosed = false) ∨
      ∃ front last, events = front ++ [last] ∧ ∀ e ∈ front, e.isClosed = false) :
    ClosesLast ds := by
  rintro before d after rfl hclosed
  obtain ⟨rest, hrest⟩ := hle
  rw [List.map_append, List.map_cons, List.append_assoc, List.cons_append] at hrest
  rcases hevents with hall | ⟨front, last, rfl, hfront⟩
  · have hopen := hall d.event (hrest ▸ List.mem_append_right _ List.mem_cons_self)
    rw [hopen] at hclosed
    cases hclosed
  · rcases List.eq_nil_or_concat' (after.map Delivery.event ++ rest) with hnil | ⟨as, a, ha⟩
    · exact List.map_eq_nil_iff.mp (List.append_eq_nil_iff.mp hnil).1
    · rw [ha, ← List.cons_append, ← List.append_assoc] at hrest
      obtain ⟨hsame, -⟩ := List.append_inj' hrest rfl
      have hopen := hfront d.event (hsame ▸ List.mem_append_right _ List.mem_cons_self)
      rw [hopen] at hclosed
      cases hclosed

/-- What the events of a flow look like, whether or not it is in the table. -/
theorem shape_of_sound {t : Outputs} (h : t.Sound) (id : Uuid) :
    (∀ e ∈ eventsOf id t.log, e.isClosed = false) ∨
      ∃ front last, eventsOf id t.log = front ++ [last] ∧ ∀ e ∈ front, e.isClosed = false := by
  by_cases hlive : t.Live id
  · obtain ⟨key, f, hf, rfl⟩ := hlive
    exact .inl (h.books.told key f hf).2.2.running
  · have hended := h.books.ended id fun key f hf he ↦ hlive ⟨key, f, hf, he⟩
    generalize eventsOf id t.log = events at hended
    cases hended with
    | silent => exact .inl fun e he ↦ absurd he List.not_mem_nil
    | closed hrunning _ _ summary => exact .inr ⟨_, _, rfl, hrunning⟩

theorem chunksOf_eq (d : Direction) (ds : List Delivery) :
    chunksOf d (ds.map Delivery.event) =
      ((chunksIn ds).filter fun c ↦ decide (c.direction = d)).map fun c ↦ (c.offset, c.data) := by
  induction ds with
  | nil => rfl
  | cons e ds ih =>
      rcases e with ⟨c | summary | summary, r⟩
      · by_cases hd : c.direction = d
        · simpa [chunksOf, chunksIn, Delivery.chunk?, FlowOutput.chunkOf?, ofChunk, hd] using ih
        · simpa [chunksOf, chunksIn, Delivery.chunk?, FlowOutput.chunkOf?, ofChunk, hd] using ih
      · exact ih
      · exact ih

/-- Chunks that follow each other are what the parsers expect. -/
theorem admissible_of_laid {ds : List Delivery} {events : List FlowOutput}
    (hle : ds.map Delivery.event <+: events) (hlaid : ∀ d, ∃ o, Laid 0 (chunksOf d events) o)
    (hbound : ∀ d, ∀ c ∈ chunksOf d events, c.1 + c.2.length ≤ u64Max) :
    Admissible (chunksIn ds) := by
  have hsub : ∀ d, (chunksOf d (ds.map Delivery.event)).Sublist (chunksOf d events) :=
    fun d ↦ (hle.sublist).filterMap _
  have hmem : ∀ c ∈ chunksIn ds, (c.offset, c.data) ∈ chunksOf c.direction events := by
    intro c hc
    refine (hsub c.direction).subset ?_
    rw [chunksOf_eq]
    exact List.mem_map_of_mem (List.mem_filter.mpr ⟨hc, by simp⟩)
  refine ⟨fun c hc ↦ ?_, fun c hc ↦ hbound _ _ (hmem c hc), ?_⟩
  · obtain ⟨o, ho⟩ := hlaid c.direction
    exact (ho.pairwise.1 _ (hmem c hc)).2.2
  · have hone : ∀ d, ((chunksIn ds).filter fun c ↦ decide (c.direction = d)).Pairwise
        fun c c' ↦ c.offset + c.data.length ≤ c'.offset := by
      intro d
      obtain ⟨o, ho⟩ := hlaid d
      have hpairs := ho.pairwise.2.sublist (hsub d)
      rw [chunksOf_eq, List.pairwise_map] at hpairs
      refine hpairs.imp_of_mem fun {c c'} _ hc' hle ↦ hle.resolve_right fun hmax ↦ ?_
      obtain ⟨hc', hd⟩ := List.mem_filter.mp hc'
      have hfits := hbound _ _ (hmem c' hc')
      obtain ⟨o', ho'⟩ := hlaid c'.direction
      have hne := List.length_pos_of_ne_nil (ho'.pairwise.1 _ (hmem c' hc')).2.2
      dsimp only at hmax hfits hne
      omega
    refine List.pairwise_iff_forall_sublist.mpr fun {c c'} hpair hd ↦ ?_
    have hboth := hpair.filter fun x ↦ decide (x.direction = c.direction)
    rw [List.filter_cons_of_pos (by simp), List.filter_cons_of_pos (by simp [hd])] at hboth
    exact List.rel_of_pairwise_cons ((hone c.direction).sublist hboth) List.mem_cons_self

variable (cfg) in
/-- What the store has of a flow of the shard `i`. -/
structure Kept (s : Content ι n) (i : ι) (id : Uuid) : Prop where
  inOrder : (handledOf cfg s id).map Delivery.event <+: eventsOf id (s.shard i).log
  complete : s.unsent i = [] → s.l7.queue (l7Owner n id) = [] →
    (handledOf cfg s id).map Delivery.event = eventsOf id (s.shard i).log
  raw : rawChunks (storedOf (outputsOf s id)) = storedChunks (handledOf cfg s id)
  own : ∀ record ∈ storedOf (outputsOf s id), record.flowId = id
  wire : (∀ d, ∀ c ∈ chunksOf d (eventsOf id (s.shard i).log), c.1 + c.2.length ≤ u64Max) →
    ∀ d, ∃ bound, Ledger (rawAt (chunksIn (handledOf cfg s id)) d) bound
      ((wireStored d (storedOf (outputsOf s id))).map fun r ↦ (r.streamOffset, r.data))

omit [DecidableEq ι] in
/-- Everything that the shard has sent of the flow is handled, in a queue, or not sent yet. -/
theorem Sound.events (h : Sound cfg s) {i : ι} {id : Uuid} (hid : id ∈ (s.shard i).created) :
    (handledOf cfg s id).map Delivery.event ++
      (eventsOf id ((s.l7.queue (l7Owner n id)).map Delivery.event) ++ eventsOf id (s.unsent i)) =
        eventsOf id (s.shard i).log := by
  rw [← h.sent i id hid, ← List.append_assoc]
  congr 1
  rw [← eventsOf_map, ← eventsOf_map, ← List.map_append]
  exact congrArg _ (h.l7.pending id (h.running _))

omit [DecidableEq ι] in
theorem Sound.kept (h : Sound cfg s) {i : ι} {id : Uuid} (hid : id ∈ (s.shard i).created) :
    Kept cfg s i id := by
  have hevents := h.events hid
  have hle : (handledOf cfg s id).map Delivery.event <+: eventsOf id (s.shard i).log :=
    ⟨_, hevents⟩
  have hout : outputsOf s id = (runLocal (FlowL7.next cfg.http) {} (handledOf cfg s id)).2 :=
    h.l7.outputs id
  have hstored : StoredFlow cfg.http id (handledOf cfg s id) (outputsOf s id) := by
    rw [hout]
    refine storedFlow_run (fun d hd ↦ ?_)
      (closesLast_of_isPrefix hle (shape_of_sound (h.shards i) id))
    exact of_decide_eq_true (List.mem_filter.mp hd).2
  refine ⟨hle, fun hunsent hqueue ↦ ?_, hstored.raw, hstored.own, fun hbound ↦ ?_⟩
  · rw [hunsent, hqueue] at hevents
    rw [← hevents]
    exact (List.append_nil _).symm
  · exact hstored.ledger (admissible_of_laid hle ((h.shards i).laid id) hbound)

omit [DecidableEq ι] in
/-- A worker knows something of a flow only while the flow is in the table of its shard, or its
close is on the way. -/
theorem Sound.knows (h : Sound cfg s) {j : Fin (n + 1)} {id : Uuid}
    (hknows : (s.l7.worker j).flow id ≠ {}) : j = l7Owner n id ∧ ∃ i, id ∈ (s.shard i).created ∧
      ((s.shard i).Live id ∨ ∃ e ∈ (s.l7.queue j).map Delivery.event ++ s.unsent i,
        e.flowId = id ∧ e.isClosed = true) := by
  have howner : j = l7Owner n id := by
    by_contra hne
    exact hknows (h.l7.foreign j id (Ne.symm hne))
  subst howner
  have hstate : (s.l7.worker (l7Owner n id)).flow id =
      (runLocal (FlowL7.next cfg.http) {} (handledOf cfg s id)).1 := h.l7.state id
  rw [hstate] at hknows
  have hne : handledOf cfg s id ≠ [] := fun hnil ↦ hknows (by rw [hnil]; rfl)
  obtain ⟨d, hd⟩ := List.exists_mem_of_ne_nil _ hne
  obtain ⟨i, hi⟩ : ∃ i, id ∈ (s.shard i).created := by
    obtain ⟨i, hi⟩ := h.known d (List.mem_of_mem_filter ((h.l7.inOrder id).subset hd))
    have hflow : d.flowId = id := of_decide_eq_true (List.mem_filter.mp hd).2
    exact ⟨i, hflow ▸ hi⟩
  refine ⟨rfl, i, hi, ?_⟩
  by_contra hgone
  obtain ⟨hlive, hclose⟩ := not_or.mp hgone
  have hevents := h.events hi
  have hended := (h.shards i).books.ended id fun key f hf he ↦ hlive ⟨key, f, hf, he⟩
  -- what is not handled yet is no close
  have hwaiting : ∀ e ∈ eventsOf id ((s.l7.queue (l7Owner n id)).map Delivery.event) ++
      eventsOf id (s.unsent i), e.isClosed = false := by
    intro e he
    rw [← eventsOf_append_filter] at he
    obtain ⟨he, hid⟩ := List.mem_filter.mp he
    cases hclosed : e.isClosed with
    | false => rfl
    | true => exact absurd ⟨e, he, by simpa using hid, hclosed⟩ hclose
  generalize eventsOf id (s.shard i).log = events at hevents hended
  cases hended with
  | silent =>
      have hnil := List.map_eq_nil_iff.mp (List.append_eq_nil_iff.mp hevents).1
      exact hne hnil
  | @closed front hrunning _ _ summary =>
      rcases List.eq_nil_or_concat' (eventsOf id ((s.l7.queue (l7Owner n id)).map Delivery.event) ++
        eventsOf id (s.unsent i)) with hnil | ⟨as, a, ha⟩
      · rw [hnil, List.append_nil] at hevents
        obtain ⟨ds, d, hsplit⟩ := (List.eq_nil_or_concat' (handledOf cfg s id)).resolve_left hne
        rw [hsplit, List.map_append] at hevents
        obtain ⟨-, hlast⟩ := List.append_inj' hevents rfl
        have hd : d.event = .closed summary := List.singleton_inj.mp hlast
        apply hknows
        rw [hsplit]
        rcases d with ⟨event, r⟩
        obtain rfl : event = _ := hd
        exact forgets_closed ds summary r
      · rw [ha, ← List.append_assoc] at hevents
        obtain ⟨-, hlast⟩ := List.append_inj' hevents rfl
        have hopen := hwaiting a (ha ▸ List.mem_append_right as List.mem_cons_self)
        rw [List.singleton_inj.mp hlast] at hopen
        cases hopen

/-! ## Runs -/

/-- Whatever shards and workers do, and in whatever order. -/
theorem stored_of_flow (cfg : ContentConfig) (es : List (Event ι n))
    (h : Along (Content.step cfg) (Meets cfg) {} es) (i : ι) (id : Uuid)
    (hid : id ∈ ((after cfg es).shard i).created) : Kept cfg (after cfg es) i id :=
  (sound_after h).kept hid

/-- A stretch of a request to the service on port 80. -/
def getPacket : Capture.ParsedPacket where
  tsNs := 0
  key := ⟨⟨.v4 0x0a000001, 40000⟩, ⟨.v4 0x0a000102, 80⟩, .tcp, 0⟩
  direction := .aToB
  seq := some 7
  ack := none
  flags := {}
  payload := ascii "GET "
  wireLen := 58

def webServices : Services.ServiceMap := Services.ServiceMap.ofList [{ port := 80, name := "web" }]

def webReadings : Readings where
  parse := webServices
  raw := webServices
  emission _ := webServices
  src := webServices
  dst := webServices
  ids n := BitVec.ofNat 128 n
  interested _ := false
  stored _ := true
  http _ := true
  metadata := true

def webConfig : ContentConfig := ⟨Shards.budgetConfig 1, postConfig, 4⟩

/-- The round of the packet, up to the first event that the worker takes. -/
def webRun : List (Event (Fin 1) 0) :=
  [Flow.Event.packet getPacket (.at 0), .proceed 1, .proceed 1].map
      (fun event ↦ .shard 0 0 ⟨event, webServices, fun _ ↦ true⟩) ++
    [.send 0 webReadings, .take 0]

omit [DecidableEq ι] in
theorem meets_of_first {i : ι} {active : ℕ} {m : Move} (haccepts : ∀ event, m.accepts event = true)
    (hfirst : ∀ j, (s.shard j).created = []) : Meets cfg s (.shard i active m) :=
  ⟨.of_first haccepts (hfirst i), fun id _ j ↦ by simp [hfirst j]⟩

theorem meets_webRun : Along (Content.step webConfig) (Meets webConfig) {} webRun := by
  refine ⟨meets_of_first (fun _ ↦ rfl) ?_, meets_of_first (fun _ ↦ rfl) ?_,
    meets_of_first (fun _ ↦ rfl) ?_, rfl, trivial, trivial⟩
  all_goals decide +kernel

theorem stored_of_webFlow : storedOf (outputsOf (after webConfig webRun) 1) =
    [⟨0, 1, 0, some "web", .aToB, .tcpRaw, 0, ascii "GET "⟩] ∧
      Kept webConfig (after webConfig webRun) 0 1 :=
  ⟨by decide +kernel, stored_of_flow webConfig webRun meets_webRun 0 1 (by decide +kernel)⟩

theorem knows_of_flow (cfg : ContentConfig) (es : List (Event ι n))
    (h : Along (Content.step cfg) (Meets cfg) {} es) (j : Fin (n + 1)) (id : Uuid)
    (hknows : ((after cfg es).l7.worker j).flow id ≠ {}) :
    j = l7Owner n id ∧ ∃ i, id ∈ ((after cfg es).shard i).created ∧
      (((after cfg es).shard i).Live id ∨
        ∃ e ∈ ((after cfg es).l7.queue j).map Delivery.event ++ (after cfg es).unsent i,
          e.flowId = id ∧ e.isClosed = true) :=
  (sound_after h).knows hknows

theorem knows_of_webFlow : ((after webConfig webRun).l7.worker 0).flow 1 ≠ {} ∧
    ∃ i, 1 ∈ ((after webConfig webRun).shard i).created ∧
      (((after webConfig webRun).shard i).Live 1 ∨
        ∃ e ∈ ((after webConfig webRun).l7.queue 0).map Delivery.event ++
          (after webConfig webRun).unsent i, e.flowId = 1 ∧ e.isClosed = true) := by
  have hknows : ((after webConfig webRun).l7.worker 0).flow 1 ≠ {} := by decide +kernel
  exact ⟨hknows, (knows_of_flow webConfig webRun meets_webRun 0 1 hknows).2⟩

end Content

end Bazalt.Live
