import Bazalt.Http.Wire
import Bazalt.Replay.Pause
import Bazalt.Replay.Streaming

/-!
# Decoded bodies

A decoded body is a record at the offset where its message ends on the wire, as long as the
decompressed data.  A scanner takes it for the continuation of the decoded body before it when
that one, with its decompressed length, ends at this offset.  A pattern then has a hit over
bytes of two messages.
-/

namespace Bazalt.Matching

open Lib

/-! ## What a scan can report -/

namespace Scan

variable {b : Bounds} {s : Scan}

theorem mem_push {p : PatternRevision} {hit hit' : MatchRecord}
    (h : hit ∈ (s.push b p hit').out) : hit ∈ s.out ∨ hit = hit' := by
  unfold push at h
  split_ifs at h
  · exact .inl h
  · dsimp only at h
    split_ifs at h
    · exact .inl h
    · simpa using h

theorem mem_each {M : Type} {keep : M → Option (PatternRevision × MatchRecord)} {ms : List M}
    {hit : MatchRecord} (h : hit ∈ (each b keep ms s).1.out) :
    hit ∈ s.out ∨ ∃ m ∈ ms, ∃ p, keep m = some (p, hit) := by
  induction ms generalizing s with
  | nil => exact .inl h
  | cons m ms ih =>
      rw [each] at h
      split_ifs at h
      · exact .inl h
      · cases hk : keep m with
        | none =>
            simp only [hk] at h
            rcases ih h with h | ⟨m', hm', hkeep⟩
            · exact .inl h
            · exact .inr ⟨m', List.mem_cons_of_mem m hm', hkeep⟩
        | some e =>
            simp only [hk] at h
            rcases ih h with h | ⟨m', hm', hkeep⟩
            · rcases mem_push h with h | rfl
              · exact .inl h
              · exact .inr ⟨m, List.mem_cons_self, e.1, hk⟩
            · exact .inr ⟨m', List.mem_cons_of_mem m hm', hkeep⟩

end Scan

namespace CompiledGroup

variable {E : Engines} {b : Bounds} {g : CompiledGroup} {record : ContentRecord} {tail : Bytes}
  {historical : Bool} {s : Scan} {hit : MatchRecord}

/-- All hits of a scan without a tail lie in the record. -/
def Inside (record : ContentRecord) (s : Scan) : Prop :=
  ∀ hit ∈ s.out, record.streamOffset ≤ hit.offsetStart

theorem inside_scanLiterals (h : Inside record s) :
    Inside record (g.scanLiterals E b record [] historical s).1 := by
  unfold scanLiterals
  split_ifs
  · exact h
  · intro hit hhit
    simp only [scanBridge, List.isEmpty_nil, Bool.not_true, Bool.false_and, Bool.false_eq_true,
      if_false] at hhit
    rcases Scan.mem_each hhit with hhit | ⟨m, -, p, hkeep⟩
    · exact h hit hhit
    · obtain ⟨q, -, hq⟩ := Option.map_eq_some_iff.mp hkeep
      cases hq
      exact Nat.le_add_right _ _

theorem inside_scanRegexes {combined : Bytes} {res : List (String × PatternRevision)}
    (h : Inside record s) :
    Inside record (scanRegexes E b record historical combined record.streamOffset none res s) := by
  induction res generalizing s with
  | nil => exact h
  | cons e res ih =>
      obtain ⟨re, p⟩ := e
      rw [scanRegexes]
      split_ifs
      · exact h
      · have hinside : Inside record (Scan.each b (keepRegex record historical record.streamOffset
            none p) (E.regexFindIter re combined) s).1 := by
          intro hit hhit
          rcases Scan.mem_each hhit with hhit | ⟨m, -, q, hkeep⟩
          · exact h hit hhit
          · simp only [keepRegex, Option.mem_def, reduceCtorEq, false_and, exists_false, if_false,
              Option.some.injEq, Prod.mk.injEq] at hkeep
            rw [← hkeep.2]
            exact Nat.le_add_right _ _
        rcases hscan : Scan.each b (keepRegex record historical record.streamOffset none p)
          (E.regexFindIter re combined) s with ⟨s', go⟩
        rw [hscan] at hinside
        cases go with
        | false => exact hinside
        | true => exact ih hinside

theorem inside_scanInto (h : Inside record s) :
    Inside record (g.scanInto E b record [] historical s) := by
  have hliterals : Inside record (g.scanLiterals E b record [] historical s).1 :=
    inside_scanLiterals h
  unfold scanInto
  rcases hscan : g.scanLiterals E b record [] historical s with ⟨s', go⟩
  rw [hscan] at hliterals
  cases go with
  | false => exact hliterals
  | true =>
      simp only [List.isEmpty_nil, if_true, List.length_nil, Nat.sub_zero]
      split_ifs
      · exact hliterals
      · exact hliterals
      · exact inside_scanRegexes hliterals

end CompiledGroup

theorem CompiledPatternSet.inside_scanBounded (E : Engines) (set : CompiledPatternSet)
    (record : ContentRecord) (historical : Bool) (b : Bounds) :
    CompiledGroup.Inside record (set.scanBounded E record [] historical b) := by
  have hempty : CompiledGroup.Inside record {} := fun hit hhit ↦ by cases hhit
  have hglobal : CompiledGroup.Inside record ((set.groupsFor record).1.elim {} fun group ↦
      group.scanInto E b record [] historical {}) := by
    cases (set.groupsFor record).1 with
    | none => exact hempty
    | some group => exact CompiledGroup.inside_scanInto hempty
  rw [scanBounded_eq]
  cases (set.groupsFor record).2 with
  | none => exact hglobal
  | some group =>
      dsimp only [Option.elim_some]
      split_ifs
      · exact hglobal
      · exact CompiledGroup.inside_scanInto hglobal

end Bazalt.Matching

namespace Bazalt.Replay

open Bazalt.Lib Matching Http

def isDecoded (view : ContentView) : Bool :=
  view == .httpRequestDecodedBody || view == .httpResponseDecodedBody

/-- A hit of the scan of a record that covers bytes of the record and bytes before it, which are
those of the tail. -/
def Bridges (record : ContentRecord) (hit : MatchRecord) : Prop :=
  record.data ≠ [] ∧ hit.offsetStart < record.streamOffset ∧ record.streamOffset < hit.offsetEnd

/-- No hit of the scan covers bytes of two decoded bodies. -/
def Separate (record : ContentRecord) (hits : List MatchRecord) : Prop :=
  isDecoded record.view = true → ∀ hit ∈ hits, ¬ Bridges record hit

/-! ## The two scanners -/

/-- A record arrives at the ingress, and if it is handed on, at the worker. -/
def liveStep (E : Engines) (ingress : MatcherIngress) (m : MatcherWorker) (a : Arrival) :
    MatcherWorker × List MatchRecord :=
  match ingress.prepareContent a.record with
  | none => (m, [])
  | some work => ((m.content E work a.seen a.now).1, (m.content E work a.seen a.now).2.out)

/-- No pattern set has a hit over two decoded bodies, in replay or in live matching. -/
def NeverBridged (E : Engines) (records : List ContentRecord) : Prop :=
  ∀ ps set, Table ps → CompiledPatternSet.compile E ps = some set → ∀ overlapLimit b,
    Along (fun sc record ↦ (ReplayScanner.scanRecord E sc record).1)
      (fun sc record ↦ Separate record (sc.scanRecord E record).2.out)
      { patterns := set, overlapLimit := overlapLimit, bounds := b } records ∧
    ∀ n generation arrivals, arrivals.map Arrival.record = records →
      Along (fun m a ↦ (liveStep E (ingress set n generation) m a).1)
        (fun m a ↦ Separate a.record (liveStep E (ingress set n generation) m a).2)
        { overlapLimit := overlapLimit, bounds := b } arrivals

/-- A pattern set that is interested in the first two records is interested in the third. -/
def Relevant (r₁ r₂ r : ContentRecord) : Prop :=
  r₁.service = none ∨ r₂.service = none ∨ r.service = r₁.service ∨ r.service = r₂.service

/-- A decoded body is placed where an earlier one, with its decompressed length, ends, and what
comes between them is empty and does not change this, or can be left out by a pattern set. -/
def Joins (records : List ContentRecord) : Prop :=
  ∃ before r₁ mid r₂ later, records = before ++ r₁ :: (mid ++ r₂ :: later) ∧
    isDecoded r₁.view = true ∧ streamKey r₂ = streamKey r₁ ∧ r₁.data ≠ [] ∧ r₂.data ≠ [] ∧
    satAdd r₁.streamOffset r₁.data.length = r₂.streamOffset ∧
    ∀ r ∈ mid, streamKey r = streamKey r₁ → Relevant r₁ r₂ r →
      r.data = [] ∧ r.streamOffset = r₂.streamOffset

/-! ## Where a tail comes from -/

/-- The tail ends with bytes of an earlier record, and what has come since in its stream is empty
or not of interest. -/
def Left (set : CompiledPatternSet) (before : List ContentRecord) (key : StreamKey)
    (t : TailState) : Prop :=
  t.data = [] ∨ ∃ front r₁ mid, before = front ++ r₁ :: mid ∧ streamKey r₁ = key ∧
    set.isInterested r₁ = true ∧ r₁.data ≠ [] ∧
    satAdd r₁.streamOffset r₁.data.length = t.endOffset ∧
    ∀ r ∈ mid, streamKey r = key → set.isInterested r = true →
      r.data = [] ∧ r.streamOffset = t.endOffset

def TailsLeft (set : CompiledPatternSet) (before : List ContentRecord) (tails : Tails) : Prop :=
  ∀ key t, tails key = some t → Left set before key t

section

variable {E : Engines} {set : CompiledPatternSet} {overlapLimit : ℕ} {b : Bounds}
  {historical : Bool} {generation : ℕ} {tails tails' : Tails} {before : List ContentRecord}
  {record : ContentRecord} {key : StreamKey} {t : TailState}

/-- A record that leaves the tail as it is. -/
theorem Left.skip (h : Left set before key t)
    (hrecord : streamKey record = key → set.isInterested record = true →
      record.data = [] ∧ record.streamOffset = t.endOffset) :
    Left set (before ++ [record]) key t := by
  rcases h with hnil | ⟨front, r₁, mid, rfl, hkey, hint, hne, hend, hmid⟩
  · exact .inl hnil
  · refine .inr ⟨front, r₁, mid ++ [record], by simp, hkey, hint, hne, hend, fun r hr ↦ ?_⟩
    rcases List.mem_append.mp hr with hr | hr
    · exact hmid r hr
    · exact List.mem_singleton.mp hr ▸ hrecord

theorem TailsLeft.of_le (h : TailsLeft set before tails)
    (hle : ∀ key t, tails' key = some t → tails key = some t) : TailsLeft set before tails' :=
  fun key t ht ↦ h key t (hle key t ht)

/-- The bytes that a record is scanned with are those of a tail that ends where it starts. -/
theorem exists_tail_of_prefixFor (h : tails.prefixFor record generation ≠ []) :
    ∃ t, tails (streamKey record) = some t ∧ t.endOffset = record.streamOffset ∧
      t.data = tails.prefixFor record generation := by
  unfold Tails.prefixFor at h ⊢
  cases ht : tails (streamKey record) with
  | none => simp [ht] at h
  | some t =>
      simp only [ht, Option.map_some, Option.getD_some, TailState.prefixFor] at h ⊢
      split_ifs at h ⊢ with hserves
      · exact ⟨t, rfl, hserves.2, rfl⟩
      · exact absurd rfl h

theorem buildTail_eq_nil {previous data : Bytes} {keep : ℕ} (hprevious : previous = [])
    (hdata : data = []) : buildTail previous data keep = [] := by
  subst hprevious hdata
  unfold buildTail
  split_ifs <;> simp

/-- The step lemma. -/
theorem TailsLeft.scanWithTail (h : TailsLeft set before tails) :
    TailsLeft set (before ++ [record])
      (scanWithTail E set overlapLimit b historical generation tails record).1 := by
  intro key t ht
  by_cases hkey : key = streamKey record
  · subst hkey
    unfold Matching.scanWithTail at ht
    split_ifs at ht with hint
    · simp only [Function.update_self] at ht
      split_ifs at ht
      obtain rfl := Option.some.inj ht
      by_cases hdata : record.data = []
      · by_cases hpre : tails.prefixFor record generation = []
        · exact .inl (buildTail_eq_nil hpre hdata)
        · -- an empty record hands the tail on
          obtain ⟨t, ht, hend, hbytes⟩ := exists_tail_of_prefixFor hpre
          have hskip : Left set (before ++ [record]) (streamKey record) t :=
            (h _ t ht).skip fun _ _ ↦ ⟨hdata, hend.symm⟩
          rcases hskip with hnil | ⟨front, r₁, mid, hbefore, hkey, hint', hne, hr₁, hmid⟩
          · exact absurd (hbytes.symm.trans hnil) hpre
          · have hsame : satAdd record.streamOffset record.data.length = t.endOffset := by
              have hle := satAdd_le r₁.streamOffset r₁.data.length
              rw [hdata, List.length_nil, satAdd_of_le (by omega)]
              exact hend.symm
            exact .inr ⟨front, r₁, mid, hbefore, hkey, hint', hne, hr₁.trans hsame.symm,
              fun r hr hk hi ↦ hsame ▸ hmid r hr hk hi⟩
      · exact .inr ⟨before, record, [], rfl, rfl, hint, hdata, rfl, by simp⟩
    · simp at ht
  · rw [scanWithTail_of_ne hkey] at ht
    exact (h key t ht).skip fun hk ↦ absurd hk.symm hkey

/-- A hit over the start of a decoded body joins it to an earlier one. -/
theorem separate_of_tailsLeft (h : TailsLeft set before tails) {later : List ContentRecord}
    (hjoins : ¬ Joins (before ++ record :: later)) (hint : set.isInterested record = true) :
    Separate record (scanWithTail E set overlapLimit b historical generation tails record).2.out := by
  rintro hdecoded hit hhit ⟨hdata, hstart, -⟩
  unfold Matching.scanWithTail at hhit
  rw [if_pos hint] at hhit
  dsimp only at hhit
  by_cases hpre : tails.prefixFor record generation = []
  · rw [hpre] at hhit
    exact absurd (set.inside_scanBounded E record historical b hit hhit) (by omega)
  · obtain ⟨t, ht, hend, hbytes⟩ := exists_tail_of_prefixFor hpre
    rcases h _ t ht with hnil | ⟨front, r₁, mid, rfl, hkey, hint₁, hne, hr₁, hmid⟩
    · exact absurd (hbytes.symm.trans hnil) hpre
    · have hview : r₁.view = record.view := congrArg StreamKey.view hkey
      refine hjoins ⟨front, r₁, mid, record, later, by simp, hview ▸ hdecoded, hkey.symm, hne, hdata,
        hr₁.trans hend, fun r hr hrkey hrelevant ↦ ?_⟩
      have hview' : r.view = record.view := (congrArg StreamKey.view hrkey).trans hview
      have hint' : set.isInterested r = true := by
        simp only [CompiledPatternSet.isInterested, CompiledPatternSet.groupsFor, hview, hview',
          Bool.or_eq_true] at hint hint₁ ⊢
        rcases hrelevant with hnone | hnone | hsame | hsame
        · simp only [hnone, Option.bind_none, Option.isSome_none, Bool.false_eq_true,
            or_false] at hint₁
          exact .inl hint₁
        · simp only [hnone, Option.bind_none, Option.isSome_none, Bool.false_eq_true,
            or_false] at hint
          exact .inl hint
        · rwa [hsame]
        · rwa [hsame]
      obtain ⟨hempty, hoffset⟩ := hmid r hr (hrkey.trans hkey) hint'
      exact ⟨hempty, hoffset.trans hend⟩

/-! ## Runs -/

theorem le_tails_sweep (sc : ReplayScanner) (record : ContentRecord) {key : StreamKey}
    {t : TailState} (h : (sc.sweep record).tails key = some t) : sc.tails key = some t := by
  simp only [ReplayScanner.sweep] at h
  split_ifs at h
  exact h

theorem TailsLeft.scanRecord {sc : ReplayScanner} (h : TailsLeft sc.patterns before sc.tails) :
    TailsLeft sc.patterns (before ++ [record]) (sc.scanRecord E record).1.tails := by
  have hscan : TailsLeft sc.patterns (before ++ [record])
      (Matching.scanWithTail E sc.patterns sc.overlapLimit sc.bounds true 0 sc.tails record).1 :=
    h.scanWithTail
  unfold ReplayScanner.scanRecord
  dsimp only
  split_ifs
  · exact hscan.of_le fun key t ht ↦ le_tails_sweep _ record ht
  · exact hscan
  · exact hscan

theorem le_tails_foldl_flowClosed (ids : List Uuid) (m : MatcherWorker) {key : StreamKey}
    {t : TailState} (h : (ids.foldl MatcherWorker.flowClosed m).tails key = some t) :
    m.tails key = some t := by
  induction ids generalizing m with
  | nil => exact h
  | cons id ids ih =>
      have hclosed := ih _ h
      simp only [MatcherWorker.flowClosed] at hclosed
      split_ifs at hclosed
      exact hclosed

theorem le_tails_expire (m : MatcherWorker) (now : ℕ) {key : StreamKey} {t : TailState}
    (h : (m.expire now).tails key = some t) : m.tails key = some t := by
  unfold MatcherWorker.expire at h
  split_ifs at h
  · exact le_tails_foldl_flowClosed _ m h
  · exact h

theorem along_replay {records : List ContentRecord} {sc : ReplayScanner}
    (h : TailsLeft sc.patterns before sc.tails) (hjoins : ¬ Joins (before ++ records)) :
    Along (fun sc record ↦ (ReplayScanner.scanRecord E sc record).1)
      (fun sc record ↦ Separate record (sc.scanRecord E record).2.out) sc records := by
  induction records generalizing sc before with
  | nil => trivial
  | cons record records ih =>
      have hrest : ¬ Joins (before ++ [record] ++ records) := by simpa using hjoins
      refine ⟨?_, ih ?_ hrest⟩
      · beta_reduce
        rw [ReplayScanner.scanRecord_snd]
        by_cases hint : sc.patterns.isInterested record = true
        · exact separate_of_tailsLeft h hjoins hint
        · simp [Separate, scanWithTail, hint]
      · rw [(sc.scanRecord_config E record).1]
        exact h.scanRecord

theorem content_eq (m : MatcherWorker) (work : Work) (seen now : ℕ) :
    (m.content E work seen now).1.tails = (Matching.scanWithTail E work.snapshot
        ((m.note work.record.flowId seen).expire now).overlapLimit
        ((m.note work.record.flowId seen).expire now).bounds false work.generation
        ((m.note work.record.flowId seen).expire now).tails work.record).1 ∧
      (m.content E work seen now).2 = (Matching.scanWithTail E work.snapshot
        ((m.note work.record.flowId seen).expire now).overlapLimit
        ((m.note work.record.flowId seen).expire now).bounds false work.generation
        ((m.note work.record.flowId seen).expire now).tails work.record).2 := by
  unfold MatcherWorker.content MatcherWorker.track
  dsimp only
  split_ifs <;> exact ⟨rfl, rfl⟩

theorem liveStep_of_interested {n : ℕ} {m : MatcherWorker} {a : Arrival}
    (h : set.isInterested a.record = true) : liveStep E (ingress set n generation) m a =
      ((m.content E ⟨a.record, set, generation⟩ a.seen a.now).1,
        (m.content E ⟨a.record, set, generation⟩ a.seen a.now).2.out) := by
  have hprepare : (ingress set n generation).prepareContent a.record =
      some ⟨a.record, set, generation⟩ :=
    (MatcherIngress.prepareContent_eq rfl a.record).trans (if_pos h)
  rw [liveStep, hprepare]

theorem liveStep_of_not_interested {n : ℕ} {m : MatcherWorker} {a : Arrival}
    (h : ¬ set.isInterested a.record = true) :
    liveStep E (ingress set n generation) m a = (m, []) := by
  have hprepare : (ingress set n generation).prepareContent a.record = none :=
    (MatcherIngress.prepareContent_eq rfl a.record).trans (if_neg h)
  rw [liveStep, hprepare]

theorem along_live {n : ℕ} {arrivals : List Arrival} {m : MatcherWorker}
    (h : TailsLeft set before m.tails) (hjoins : ¬ Joins (before ++ arrivals.map Arrival.record)) :
    Along (fun m a ↦ (liveStep E (ingress set n generation) m a).1)
      (fun m a ↦ Separate a.record (liveStep E (ingress set n generation) m a).2) m arrivals := by
  induction arrivals generalizing m before with
  | nil => trivial
  | cons a arrivals ih =>
      have hrest : ¬ Joins (before ++ [a.record] ++ arrivals.map Arrival.record) := by
        simpa using hjoins
      by_cases hint : set.isInterested a.record = true
      · have hexpired : TailsLeft set before
            ((m.note a.record.flowId a.seen).expire a.now).tails :=
          h.of_le fun key t ht ↦ le_tails_expire (m.note a.record.flowId a.seen) a.now ht
        obtain ⟨htails, hscan⟩ :=
          content_eq (E := E) m ⟨a.record, set, generation⟩ a.seen a.now
        refine ⟨?_, ih ?_ hrest⟩
        · beta_reduce
          rw [liveStep_of_interested hint, hscan]
          exact separate_of_tailsLeft hexpired hjoins hint
        · beta_reduce
          rw [liveStep_of_interested hint, htails]
          exact hexpired.scanWithTail
      · refine ⟨?_, ih ?_ hrest⟩
        · beta_reduce
          rw [liveStep_of_not_interested hint]
          simp [Separate]
        · beta_reduce
          rw [liveStep_of_not_interested hint]
          exact fun key t ht ↦ (h key t ht).skip fun _ hi ↦ absurd hi hint

theorem neverBridged_of_not_joins {records : List ContentRecord} (h : ¬ Joins records) :
    NeverBridged E records := by
  intro ps set htable hset overlapLimit b
  have hnone : TailsLeft set [] fun _ ↦ none := fun key t ht ↦ by cases ht
  refine ⟨along_replay hnone h, ?_⟩
  rintro n generation arrivals rfl
  exact along_live hnone h

end

/-! ## A pattern for two bodies -/

section

variable {E : Engines} {v : String} {view : ContentView} {x y : UInt8}

def scopedPattern (v : String) (view : ContentView) (id : Uuid) (service : Option String) :
    PatternRevision :=
  { pairPattern v view with id := id, service := service }

def scopedGroup (x y : UInt8) (p : PatternRevision) : CompiledGroup where
  literals := [[x, y]]
  literalMeta := [p]
  maxLiteralLen := 2

/-- Each pattern is in a group of its own. -/
def scopedSet (view : ContentView) (x y : UInt8) (ps : List PatternRevision) :
    CompiledPatternSet where
  globalGroups := (ps.filter fun p ↦ p.service.isNone).map fun p ↦ (view, scopedGroup x y p)
  serviceGroups := ps.filterMap fun p ↦ p.service.map fun name ↦
    ((name, view), scopedGroup x y p)
  ignoreRevisions := []

theorem compile_scopedPattern (hdec : decodeBinary E v = some [x, y])
    (hac : E.acNew [[x, y]] = true) (id : Uuid) (service : Option String) :
    CompiledGroup.compile E [scopedPattern v view id service] =
      some (scopedGroup x y (scopedPattern v view id service)) := by
  simp [CompiledGroup.compile, CompiledGroup.add, CompiledGroup.addLiteral, scopedPattern,
    pairPattern, hdec, hac, scopedGroup]

theorem isInterested_scopedSet {ps : List PatternRevision} {r : ContentRecord}
    (hr : r.view = view) : (scopedSet view x y ps).isInterested r = true ↔
      ∃ p ∈ ps, p.service = none ∨ p.service = r.service := by
  have hglobal : ((scopedSet view x y ps).globalGroups.lookup r.view).isSome = true ↔
      ∃ p ∈ ps, p.service = none := by
    simp [scopedSet, List.lookup_isSome_iff, hr]
  have hscoped : (r.service.bind fun name ↦ (scopedSet view x y ps).serviceGroups.lookup
      (name, r.view)).isSome = true ↔ ∃ p ∈ ps, p.service ≠ none ∧ p.service = r.service := by
    cases r.service with
    | none =>
        simp only [Option.bind_none, Option.isSome_none, Bool.false_eq_true, false_iff, not_exists]
        rintro p ⟨-, hne, hnone⟩
        exact hne hnone
    | some name =>
        rw [Option.bind_some, List.lookup_isSome_iff]
        constructor
        · rintro ⟨e, he, hkey⟩
          obtain ⟨p, hp, hmap⟩ := List.mem_filterMap.mp he
          obtain ⟨name', hname, rfl⟩ := Option.map_eq_some_iff.mp hmap
          obtain ⟨rfl, -⟩ := Prod.mk.inj (beq_iff_eq.mp hkey)
          exact ⟨p, hp, by simp [hname], hname⟩
        · rintro ⟨p, hp, -, hname⟩
          exact ⟨_, List.mem_filterMap.mpr ⟨p, hp, by rw [hname]; rfl⟩, by simp [hr]⟩
  unfold CompiledPatternSet.isInterested CompiledPatternSet.groupsFor
  rw [Bool.or_eq_true, hglobal, hscoped]
  constructor
  · rintro (⟨p, hp, hnone⟩ | ⟨p, hp, -, hsame⟩)
    · exact ⟨p, hp, .inl hnone⟩
    · exact ⟨p, hp, .inr hsame⟩
  · rintro ⟨p, hp, hservice⟩
    by_cases hnone : p.service = none
    · exact .inl ⟨p, hp, hnone⟩
    · exact .inr ⟨p, hp, hnone, hservice.resolve_left hnone⟩

theorem single_scopedSet {ps : List PatternRevision} {r : ContentRecord}
    {service : Option String} {g : CompiledGroup}
    (hg : (scopedSet view x y ps).Scans r service g) : ∃ p, g.Single p [x, y] := by
  have hsingle : ∀ p, (scopedGroup x y p).Single p [x, y] := fun p ↦ ⟨rfl, rfl, rfl, rfl⟩
  obtain ⟨-, hg⟩ := hg
  cases service with
  | none =>
      obtain ⟨as, bs, hsplit, -⟩ := List.lookup_eq_some_iff.mp hg
      have hmem : (r.view, g) ∈ (scopedSet view x y ps).globalGroups := by simp [hsplit]
      obtain ⟨p, -, heq⟩ := List.mem_map.mp hmem
      exact ⟨p, (Prod.mk.inj heq).2 ▸ hsingle p⟩
  | some name =>
      obtain ⟨as, bs, hsplit, -⟩ := List.lookup_eq_some_iff.mp hg
      have hmem : ((name, r.view), g) ∈ (scopedSet view x y ps).serviceGroups := by simp [hsplit]
      obtain ⟨p, -, hmap⟩ := List.mem_filterMap.mp hmem
      obtain ⟨name', -, heq⟩ := Option.map_eq_some_iff.mp hmap
      exact ⟨p, (Prod.mk.inj heq).2 ▸ hsingle p⟩

/-- Patterns for all records, or for those of two services. -/
theorem exists_compile_scopedSet (hv : v ≠ "") (hdec : decodeBinary E v = some [x, y])
    (hac : E.acNew [[x, y]] = true) (s₁ s₂ : Option String) :
    ∃ ps, Table ps ∧ CompiledPatternSet.compile E ps = some (scopedSet view x y ps) ∧
      ∀ s, (∃ p ∈ ps, p.service = none ∨ p.service = s) ↔
        s₁ = none ∨ s₂ = none ∨ s = s₁ ∨ s = s₂ := by
  have hgroup : ∀ id service, CompiledGroup.compile E [scopedPattern v view id service] =
      some (scopedGroup x y (scopedPattern v view id service)) := compile_scopedPattern hdec hac
  have hcompile : ∀ ps b gs gs', CompiledPatternSet.sort ps = b →
      CompiledPatternSet.compileBuckets E b.globalBuckets = some gs →
      CompiledPatternSet.compileBuckets E b.serviceBuckets = some gs' →
      ps.filter (fun p ↦ p.enabled && p.action == .ignore) = [] →
      CompiledPatternSet.compile E ps = some ⟨gs, gs', []⟩ := by
    rintro ps b gs gs' rfl hgs hgs' hignore
    simp [CompiledPatternSet.compile, hgs, hgs', hignore]
  by_cases hglobal : s₁ = none ∨ s₂ = none
  · refine ⟨[scopedPattern v view 0 none], ⟨by simp, by simpa [scopedPattern, pairPattern] using hv⟩,
      hcompile _ _ _ _ rfl ?_ rfl rfl, fun s ↦ ?_⟩
    · change CompiledPatternSet.compileBuckets E [(view, [scopedPattern v view 0 none])] =
        some [(view, scopedGroup x y (scopedPattern v view 0 none))]
      simp [CompiledPatternSet.compileBuckets, hgroup]
    · simp only [List.mem_singleton, exists_eq_left, scopedPattern, true_or, true_iff]
      tauto
  · push Not at hglobal
    obtain ⟨a, rfl⟩ := Option.ne_none_iff_exists'.mp hglobal.1
    obtain ⟨c, rfl⟩ := Option.ne_none_iff_exists'.mp hglobal.2
    by_cases hsame : a = c
    · subst hsame
      refine ⟨[scopedPattern v view 0 (some a)],
        ⟨by simp, by simpa [scopedPattern, pairPattern] using hv⟩,
        hcompile _ _ _ _ rfl rfl ?_ rfl, fun s ↦ by simp [scopedPattern, eq_comm]⟩
      change CompiledPatternSet.compileBuckets E [((a, view), [scopedPattern v view 0 (some a)])] =
        some [((a, view), scopedGroup x y (scopedPattern v view 0 (some a)))]
      simp [CompiledPatternSet.compileBuckets, hgroup]
    · refine ⟨[scopedPattern v view 0 (some a), scopedPattern v view 1 (some c)],
        ⟨by simp [scopedPattern], by simpa [scopedPattern, pairPattern] using hv⟩,
        hcompile _ _ _ _ rfl rfl ?_ rfl, fun s ↦ by simp [scopedPattern, eq_comm]⟩
      have hbuckets : (CompiledPatternSet.sort [scopedPattern v view 0 (some a),
          scopedPattern v view 1 (some c)]).serviceBuckets =
            [((a, view), [scopedPattern v view 0 (some a)]),
              ((c, view), [scopedPattern v view 1 (some c)])] := by
        change Buckets.push [((a, view), [scopedPattern v view 0 (some a)])] (c, view)
          (scopedPattern v view 1 (some c)) = _
        simp [Buckets.push, hsame]
      change _ = some [((a, view), scopedGroup x y (scopedPattern v view 0 (some a))),
        ((c, view), scopedGroup x y (scopedPattern v view 1 (some c)))]
      rw [hbuckets]
      simp [CompiledPatternSet.compileBuckets, hgroup]

/-- The tail of a set for two bytes is one byte. -/
theorem requiredOverlap_scopedSet {ps : List PatternRevision} {r : ContentRecord}
    (hint : (scopedSet view x y ps).isInterested r = true) (overlapLimit : ℕ) :
    (scopedSet view x y ps).requiredOverlap r overlapLimit = 1 := by
  have hone : ∀ {service g}, (scopedSet view x y ps).Scans r service g →
      g.requiredOverlap overlapLimit = 1 := by
    intro service g hg
    obtain ⟨p, hsingle⟩ := single_scopedSet hg
    simp [CompiledGroup.requiredOverlap, hsingle.regexes, hsingle.maxLiteralLen]
  unfold CompiledPatternSet.isInterested at hint
  unfold CompiledPatternSet.requiredOverlap
  rcases hgroups : (scopedSet view x y ps).groupsFor r with ⟨global, ofService⟩
  rw [hgroups] at hint
  have hglobal : ∀ g, global = some g → g.requiredOverlap overlapLimit = 1 := by
    rintro g rfl
    exact hone ⟨.inl rfl, congrArg Prod.fst hgroups⟩
  have hscoped : ∀ g, ofService = some g → g.requiredOverlap overlapLimit = 1 := by
    rintro g rfl
    obtain ⟨name, hname, hlookup⟩ := Option.bind_eq_some_iff.mp (congrArg Prod.snd hgroups)
    exact hone ⟨.inr hname.symm, hlookup⟩
  cases global with
  | none =>
      cases ofService with
      | none => simp at hint
      | some g' => exact hscoped g' rfl
  | some g =>
      cases ofService with
      | none => exact hglobal g rfl
      | some g' => simp [hglobal g rfl, hscoped g' rfl]

/-- A record that starts with the second byte is bridged to a tail that is the first byte. -/
theorem exists_bridges {ps : List PatternRevision} (hE : E.Standard) {r : ContentRecord}
    (hint : (scopedSet view x y ps).isInterested r = true) {rest : Bytes}
    (hdata : r.data = y :: rest) (hpos : 0 < r.streamOffset) :
    ∃ hit ∈ (scopedSet view x y ps).scan E r [x] false, Bridges r hit := by
  obtain ⟨service, g, hscans⟩ : ∃ service g,
      (scopedSet view x y ps).Scans r service g := by
    rcases Bool.or_eq_true_iff.mp hint with hglobal | hscoped
    · obtain ⟨g, hg⟩ := Option.isSome_iff_exists.mp hglobal
      exact ⟨none, g, .inl rfl, hg⟩
    · obtain ⟨g, hg⟩ := Option.isSome_iff_exists.mp hscoped
      obtain ⟨name, hname, hlookup⟩ := Option.bind_eq_some_iff.mp hg
      exact ⟨some name, g, .inr hname.symm, hlookup⟩
  obtain ⟨p, hsingle⟩ := single_scopedSet hscans
  have hwindow : window [x, y] [x] r.data = [x, y] := by
    simp [window, List.rtake, hdata]
  obtain ⟨m, hm, hbefore, -⟩ := (hE.searches (List.cons_ne_nil x [y]) [x, y]).complete 0 (by
    simp [OccursAt])
  obtain ⟨-, hfin, hocc⟩ := (hE.searches (List.cons_ne_nil x [y]) [x, y]).sound m hm
  have hend := hocc.end_le (List.cons_ne_nil x [y])
  have hoff : r.streamOffset = r.streamOffset - 1 + [x].length := by
    simp only [List.length_singleton]
    omega
  have hbridge := CompiledGroup.bridgeHits_eq hE hsingle (List.cons_ne_nil x [y]) hoff false
  have hmem : matchRecord p r (r.streamOffset - 1 + m.start) (r.streamOffset - 1 + m.finish) false ∈
      CompiledGroup.bridgeHits E g r [x] false := by
    rw [hwindow] at hbridge
    simp only [List.length_cons, List.length_nil] at hbridge
    rw [show [x] = [x].rtake 1 from rfl, hbridge]
    exact List.mem_map.mpr ⟨m, hm, rfl⟩
  simp only [List.length_cons, List.length_nil] at hend hfin
  refine ⟨_, CompiledPatternSet.mem_scan_of_literalHits hscans
    (CompiledGroup.bridgeHits_subset_literalHits E g r [x] false (by simp [hsingle.literals]) hmem),
    by simp [hdata], ?_, ?_⟩
  · simp only [matchRecord]
    omega
  · simp only [matchRecord]
    omega

/-! ## A run that joins two bodies -/

/-- A record that comes at once. -/
def prompt (record : ContentRecord) : Arrival := ⟨record, 0, 0⟩

theorem fresh_prompt (m : MatcherWorker) (work : Work) : m.Fresh work 0 0 := by
  intro _
  simp [MatcherWorker.stale]

theorem liveStep_prompt {set : CompiledPatternSet} {n generation : ℕ} {m : MatcherWorker}
    {record : ContentRecord} (hint : set.isInterested record = true) :
    (liveStep E (ingress set n generation) m (prompt record)).1.tails =
        (scanWithTail E set m.overlapLimit m.bounds false generation m.tails record).1 ∧
      (liveStep E (ingress set n generation) m (prompt record)).2 =
        (scanWithTail E set m.overlapLimit m.bounds false generation m.tails record).2.out ∧
      (liveStep E (ingress set n generation) m (prompt record)).1.bounds = m.bounds := by
  have hstep : liveStep E (ingress set n generation) m (prompt record) = _ :=
    liveStep_of_interested hint
  obtain ⟨htails, hscan, -, hbounds⟩ := MatcherWorker.content_of_fresh (E := E)
    (fresh_prompt m ⟨record, set, generation⟩)
  rw [hstep]
  exact ⟨htails, congrArg Scan.out hscan, hbounds⟩

theorem liveStep_prompt_skip {set : CompiledPatternSet} {n generation : ℕ} {m : MatcherWorker}
    {record : ContentRecord} (hint : ¬ set.isInterested record = true) :
    liveStep E (ingress set n generation) m (prompt record) = (m, []) :=
  liveStep_of_not_interested hint

variable {ps : List PatternRevision} {n : ℕ} {m : MatcherWorker} {record : ContentRecord}

theorem bounds_run (records : List ContentRecord) {set : CompiledPatternSet} (h : m.bounds = {}) :
    (runFrom (fun m a ↦ (liveStep E (ingress set n 0) m a).1) m (records.map prompt)).bounds =
      {} := by
  induction records generalizing m with
  | nil => exact h
  | cons record records ih =>
      refine ih ?_
      by_cases hint : set.isInterested record = true
      · exact (liveStep_prompt hint).2.2.trans h
      · beta_reduce
        rw [liveStep_prompt_skip hint]
        exact h

/-- A record leaves its last byte. -/
theorem tails_liveStep (hint : (scopedSet view x y ps).isInterested record = true)
    {front : Bytes} (hdata : record.data = front ++ [x]) :
    (liveStep E (ingress (scopedSet view x y ps) n 0) m (prompt record)).1.tails
        (streamKey record) =
      some ⟨[x], satAdd record.streamOffset record.data.length, 0⟩ := by
  rw [(liveStep_prompt hint).1, scanWithTail, if_pos hint]
  simp only [requiredOverlap_scopedSet hint, Function.update_self, one_ne_zero, if_false, buildTail,
    hdata, List.length_append, List.length_singleton]
  simp

/-- Records that are empty, of other streams or not of interest leave the tail. -/
theorem tails_run {key : StreamKey} {endOffset : ℕ} (hend : endOffset ≤ u64Max)
    {records : List ContentRecord}
    (hrecords : ∀ r ∈ records, streamKey r = key →
      (scopedSet view x y ps).isInterested r = true →
        r.data = [] ∧ r.streamOffset = endOffset)
    (ht : m.tails key = some ⟨[x], endOffset, 0⟩) :
    (runFrom (fun m a ↦ (liveStep E (ingress (scopedSet view x y ps) n 0) m a).1) m
      (records.map prompt)).tails key = some ⟨[x], endOffset, 0⟩ := by
  induction records generalizing m with
  | nil => exact ht
  | cons r records ih =>
      refine ih (fun r' hr' ↦ hrecords r' (List.mem_cons_of_mem r hr')) ?_
      by_cases hint : (scopedSet view x y ps).isInterested r = true
      · rw [(liveStep_prompt hint).1]
        by_cases hkey : key = streamKey r
        · obtain ⟨hempty, hoffset⟩ := hrecords r List.mem_cons_self hkey.symm hint
          subst hkey
          have hpre : m.tails.prefixFor r 0 = [x] := by
            rw [Tails.prefixFor, ht, Option.map_some, Option.getD_some, TailState.prefixFor,
              if_pos ⟨rfl, hoffset.symm⟩]
          rw [scanWithTail, if_pos hint]
          have hsame : satAdd endOffset 0 = endOffset := satAdd_of_le hend
          simp only [requiredOverlap_scopedSet hint, Function.update_self, one_ne_zero, if_false,
            hpre, hempty, hoffset, List.length_nil, hsame]
          rfl
        · rw [scanWithTail_of_ne hkey]
          exact ht
      · beta_reduce
        rw [liveStep_prompt_skip hint]
        exact ht

theorem not_neverBridged_of_joins (hE : E.Standard)
    (hhex : ∀ x y, ∃ v, v ≠ "" ∧ decodeBinary E v = some [x, y]) (hac : ∀ x y, E.acNew [[x, y]] = true)
    {records : List ContentRecord} (h : Joins records) : ¬ NeverBridged E records := by
  intro hnever
  obtain ⟨before, r₁, mid, r₂, later, rfl, hdecoded, hkey, hne₁, hne₂, hend, hmid⟩ := h
  obtain ⟨front, x, hfront⟩ := List.eq_nil_or_concat' r₁.data |>.resolve_left hne₁
  obtain ⟨y, rest, hrest⟩ := List.exists_cons_of_ne_nil hne₂
  obtain ⟨v, hv, hdec⟩ := hhex x y
  obtain ⟨ps, htable, hset, hservices⟩ : ∃ ps, Table ps ∧
      CompiledPatternSet.compile E ps = some (scopedSet r₁.view x y ps) ∧
        ∀ s, (∃ p ∈ ps, p.service = none ∨ p.service = s) ↔
          r₁.service = none ∨ r₂.service = none ∨ s = r₁.service ∨ s = r₂.service :=
    exists_compile_scopedSet hv hdec (hac x y) r₁.service r₂.service
  have hview : ∀ {r}, streamKey r = streamKey r₁ → r.view = r₁.view :=
    fun hr ↦ congrArg StreamKey.view hr
  have hint₁ : (scopedSet r₁.view x y ps).isInterested r₁ = true :=
    (isInterested_scopedSet rfl).mpr ((hservices _).mpr (.inr (.inr (.inl rfl))))
  have hint₂ : (scopedSet r₁.view x y ps).isInterested r₂ = true :=
    (isInterested_scopedSet (hview hkey)).mpr ((hservices _).mpr (.inr (.inr (.inr rfl))))
  have hlive := (hnever ps _ htable hset 0 {}).2 1 0
    ((before ++ r₁ :: (mid ++ r₂ :: later)).map prompt) (by simp [prompt, Function.comp_def])
  rw [List.map_append, List.map_cons, List.map_append, List.map_cons] at hlive
  obtain ⟨-, hlive⟩ := along_append.mp hlive
  obtain ⟨hseparate, -⟩ := (along_append.mp hlive.2).2
  -- the tail that the second body finds is the last byte of the first
  set S := scopedSet r₁.view x y ps
  set m := runFrom (fun m a ↦ (liveStep E (ingress S 1 0) m a).1)
    { overlapLimit := 0, bounds := {} } (before.map prompt) with hm
  set m' := runFrom (fun m a ↦ (liveStep E (ingress S 1 0) m a).1)
    (liveStep E (ingress S 1 0) m (prompt r₁)).1 (mid.map prompt) with hm'
  have hleft : (liveStep E (ingress S 1 0) m (prompt r₁)).1.tails (streamKey r₂) =
      some ⟨[x], r₂.streamOffset, 0⟩ := by
    rw [hkey, ← hend]
    exact tails_liveStep hint₁ hfront
  have htail : m'.tails (streamKey r₂) = some ⟨[x], r₂.streamOffset, 0⟩ := by
    refine tails_run (hend ▸ satAdd_le _ _) (fun r hr hrkey hint ↦ ?_) hleft
    have hrkey' := hrkey.trans hkey
    refine hmid r hr hrkey' ?_
    have hmember := (isInterested_scopedSet (hview hrkey')).mp hint
    exact (hservices _).mp hmember
  have hbounds : m'.bounds = {} := by
    have hall : m' = runFrom (fun m a ↦ (liveStep E (ingress S 1 0) m a).1)
        { overlapLimit := 0, bounds := {} } ((before ++ r₁ :: mid).map prompt) := by
      rw [List.map_append, List.map_cons, runFrom_append, ← hm]
      rfl
    rw [hall]
    exact bounds_run _ rfl
  have hpos : 0 < r₂.streamOffset := by
    have hlen := List.length_pos_iff.mpr hne₁
    rw [← hend, satAdd, u64Max]
    omega
  obtain ⟨hit, hhit, hbridges⟩ := exists_bridges hE hint₂ hrest hpos
  refine hseparate ((hview hkey).symm ▸ hdecoded) hit ?_ hbridges
  have hpre : m'.tails.prefixFor r₂ 0 = [x] := by
    rw [Tails.prefixFor, htail]
    simp [TailState.prefixFor]
  change hit ∈ (liveStep E (ingress S 1 0) m' (prompt r₂)).2
  rw [(liveStep_prompt hint₂).2.1, scanWithTail, if_pos hint₂, hbounds, hpre]
  exact hhit

end

/-! ## Connections -/

/-- The content of a connection as the scanners get it, each record with its identifier and the
service that it is published for. -/
def published (tags : ℕ → Uuid × Option String) (es : List HttpEmission) : List ContentRecord :=
  (es.flatMap HttpEmission.content).zipIdx.map fun (content, i) ↦
    { id := (tags i).1
      flowId := content.flowId
      tsNs := content.tsNs
      service := (tags i).2
      direction := content.direction
      view := content.view
      streamOffset := content.streamOffset
      data := content.data }

theorem neverBridged_iff_not_joins (E : Engines) (hE : E.Standard)
    (hhex : ∀ x y, ∃ v, v ≠ "" ∧ decodeBinary E v = some [x, y]) (hac : ∀ x y, E.acNew [[x, y]] = true)
    (cfg : HttpConfig) (cs : List StreamChunk) (tags : ℕ → Uuid × Option String) :
    NeverBridged E (published tags (allEvents cfg cs)) ↔
      ¬ Joins (published tags (allEvents cfg cs)) := by
  constructor
  · exact fun hnever hjoins ↦ not_neverBridged_of_joins hE hhex hac hjoins hnever
  · exact neverBridged_of_not_joins

/-- The compressed body of the first request, 85 bytes that end with `fl`. -/
def flBody : Bytes :=
  [31, 139, 8, 0, 0, 0, 0, 0, 2, 3, 171, 168, 160, 58, 72, 203, 1, 0, 41, 146, 76, 118, 85, 0, 0, 0]

/-- The compressed body of the second request, `ag`. -/
def agBody : Bytes :=
  [31, 139, 8, 0, 0, 0, 0, 0, 2, 3, 75, 76, 7, 0, 226, 188, 233, 238, 2, 0, 0, 0]

def gzipHeader (length : String) : Bytes :=
  ascii ("POST / HTTP/1.1\r\nContent-Encoding: gzip\r\nContent-Length: " ++ length ++ "\r\n\r\n")

def gzipConfig : HttpConfig where
  httpMaxHeaderBytes := 131072
  httpMaxBodyBytes := 67108864
  httpMaxDecodeBytes := 16777216
  httpMaxDecodeRatio := 32
  parseHeader header :=
    let parsed (length : ℕ) : ParsedHeader :=
      { request := true, method := some "POST", path := some "/", contentLength := some length
        encoding := .gzip }
    if header = gzipHeader "26" then some (parsed 26)
    else if header = gzipHeader "22" then some (parsed 22)
    else none
  inflate encoding data :=
    if encoding = .gzip ∧ data = flBody then some (List.replicate 83 120 ++ ascii "fl")
    else if encoding = .gzip ∧ data = agBody then some (ascii "ag")
    else none

/-- Two requests.  The first ends at offset 89, and the second is as long as the decompressed
body of the first. -/
def gzipChunks : List StreamChunk :=
  [{ flowId := 9, tsNs := 1, direction := .aToB, offset := 0, data := gzipHeader "26" ++ flBody },
    { flowId := 9, tsNs := 2, direction := .aToB, offset := 89, data := gzipHeader "22" ++ agBody }]

def gzipRecords : List ContentRecord :=
  published (fun i ↦ (BitVec.ofNat 128 i, some "shop")) (allEvents gzipConfig gzipChunks)

theorem not_neverBridged_gzipChunks :
    Admissible gzipChunks ∧ ¬ NeverBridged referenceEngines gzipRecords := by
  refine ⟨⟨by decide +kernel, by decide +kernel, by decide +kernel⟩, ?_⟩
  refine not_neverBridged_of_joins referenceEngines_standard exists_decodeBinary_reference
    (fun _ _ ↦ rfl) ?_
  refine ⟨gzipRecords.take 2,
    ⟨2, 9, 1, some "shop", .aToB, .httpRequestDecodedBody, 89, List.replicate 83 120 ++ ascii "fl"⟩,
    (gzipRecords.drop 3).take 2,
    ⟨5, 9, 2, some "shop", .aToB, .httpRequestDecodedBody, 174, ascii "ag"⟩, [], ?_⟩
  refine ⟨by decide +kernel, rfl, rfl, by decide +kernel, by decide +kernel, by decide +kernel, ?_⟩
  intro r hr hkey
  have hother : ∀ r ∈ (gzipRecords.drop 3).take 2, r.view ≠ .httpRequestDecodedBody := by
    decide +kernel
  exact absurd (congrArg StreamKey.view hkey) (hother r hr)

/-- The same requests the other way round. -/
def swappedChunks : List StreamChunk :=
  [{ flowId := 9, tsNs := 1, direction := .aToB, offset := 0, data := gzipHeader "22" ++ agBody },
    { flowId := 9, tsNs := 2, direction := .aToB, offset := 85, data := gzipHeader "26" ++ flBody }]

theorem neverBridged_swappedChunks : NeverBridged referenceEngines
    (published (fun i ↦ (BitVec.ofNat 128 i, some "shop")) (allEvents gzipConfig swappedChunks)) := by
  refine (neverBridged_iff_not_joins referenceEngines referenceEngines_standard
    exists_decodeBinary_reference (fun _ _ ↦ rfl) gzipConfig swappedChunks _).mpr ?_
  have hapart : ∀ r₁ ∈ published (fun i ↦ (BitVec.ofNat 128 i, some "shop"))
      (allEvents gzipConfig swappedChunks), isDecoded r₁.view = true →
        ∀ r₂ ∈ published (fun i ↦ (BitVec.ofNat 128 i, some "shop"))
          (allEvents gzipConfig swappedChunks),
          satAdd r₁.streamOffset r₁.data.length ≠ r₂.streamOffset := by
    decide +kernel
  rintro ⟨before, r₁, mid, r₂, later, hsplit, hdecoded, -, -, -, hend, -⟩
  rw [hsplit] at hapart
  exact hapart r₁ (by simp) hdecoded r₂ (by simp) hend

end Bazalt.Replay
