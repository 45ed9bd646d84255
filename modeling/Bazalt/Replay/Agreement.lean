import Bazalt.Matching.Worker
import Bazalt.Replay.Scanner

/-!
# Live matching and replay

Both scan a record with the tail of its stream.  A record that no pattern is interested in
ends the tail in replay; in live matching the ingress drops the record, and the tail stays.
It serves again when a later record starts where the tail ends.  As long as no record does
so, the two find the same hits.
-/

namespace Bazalt.Replay

open Bazalt.Lib Matching

/-- A record with the readings of the clock that its worker takes. -/
structure Arrival where
  record : ContentRecord
  seen : ℕ
  now : ℕ
  deriving DecidableEq, Repr

/-- The hits of one stream. -/
def ofStream (key : StreamKey) (hits : List (StreamKey × MatchRecord)) : List MatchRecord :=
  (hits.filter fun h ↦ decide (h.1 = key)).map Prod.snd

/-- What a worker of the live matcher gets. -/
def shardWork (m : MatcherIngress) (i : ℕ) (arrivals : List Arrival) : List (Work × ℕ × ℕ) :=
  arrivals.filterMap fun a ↦
    if workerOf m.shards a.record.flowId = i then
      (m.prepareContent a.record).map fun work ↦ (work, a.seen, a.now)
    else none

def workerHits (E : Engines) : MatcherWorker → List (Work × ℕ × ℕ) → List (StreamKey × MatchRecord)
  | _, [] => []
  | m, (work, seen, now) :: works =>
      (m.content E work seen now).2.out.map (fun hit ↦ (streamKey work.record, hit)) ++
        workerHits E (m.content E work seen now).1 works

/-- No flow of the worker is dropped for its age. -/
def NoneAged (E : Engines) (m : MatcherWorker) (works : List (Work × ℕ × ℕ)) : Prop :=
  Along (fun m w ↦ (m.content E w.1 w.2.1 w.2.2).1) (fun m w ↦ m.Fresh w.1 w.2.1 w.2.2) m works

def scannerHits (E : Engines) : ReplayScanner → List ContentRecord → List (StreamKey × MatchRecord)
  | _, [] => []
  | sc, record :: records =>
      (sc.scanRecord E record).2.out.map (fun hit ↦ (streamKey record, hit)) ++
        scannerHits E (sc.scanRecord E record).1 records

/-- No tail of the scanner expires. -/
def NoneExpired (E : Engines) (sc : ReplayScanner) (records : List ContentRecord) : Prop :=
  Along (fun sc record ↦ (ReplayScanner.scanRecord E sc record).1) (ReplayScanner.Keeps E) sc
    records

section

variable (set : CompiledPatternSet) (overlapLimit : ℕ)

def ingress (n generation : ℕ) : MatcherIngress := ⟨n, set.interestMask, set, generation⟩

/-- Every stream has the same hits on both paths, apart from the historical flag. -/
def Agree (E : Engines) (n generation : ℕ) (b : Bounds) (arrivals : List Arrival) : Prop :=
  ∀ key, ofStream key (scannerHits E { patterns := set, overlapLimit := overlapLimit, bounds := b }
      (arrivals.map Arrival.record)) =
    (ofStream key (workerHits E { overlapLimit := overlapLimit, bounds := b }
      (shardWork (ingress set n generation) (workerOf n key.flowId) arrivals))).map
        MatchRecord.replayed

/-! ## Streams that are interrupted -/

/-- The last interesting record of every stream, and whether another one has come since. -/
abbrev Marks := StreamKey → Option (ContentRecord × Bool)

def Marks.next (marks : Marks) (record : ContentRecord) : Marks :=
  Function.update marks (streamKey record)
    (if set.isInterested record then some (record, false)
      else (marks (streamKey record)).map fun l ↦ (l.1, true))

/-- The record starts where the last interesting record ends that has left a tail, although
the stream was interrupted in between. -/
def Marks.Resumes (marks : Marks) (record : ContentRecord) : Prop :=
  set.isInterested record = true ∧ ∃ l ∈ marks (streamKey record), l.2 = true ∧
    set.requiredOverlap l.1 overlapLimit ≠ 0 ∧
    satAdd l.1.streamOffset l.1.data.length = record.streamOffset

instance (marks : Marks) (record : ContentRecord) :
    Decidable (marks.Resumes set overlapLimit record) :=
  inferInstanceAs (Decidable (set.isInterested record = true ∧
    ∃ l ∈ marks (streamKey record), l.2 = true ∧ set.requiredOverlap l.1 overlapLimit ≠ 0 ∧
      satAdd l.1.streamOffset l.1.data.length = record.streamOffset))

def NeverResumes (records : List ContentRecord) : Prop :=
  Along (Marks.next set) (fun marks record ↦ ¬ marks.Resumes set overlapLimit record)
    (fun _ ↦ none) records

end

/-! ## Tails of one stream -/

/-- The tails of a stream on the two paths. -/
structure Paired (set : CompiledPatternSet) (overlapLimit generation : ℕ)
    (mark : Option (ContentRecord × Bool)) (live replay : Option TailState) : Prop where
  left : ∀ t ∈ live, ∃ l ∈ mark, set.requiredOverlap l.1 overlapLimit ≠ 0 ∧
    t.endOffset = satAdd l.1.streamOffset l.1.data.length
  same : (∀ l ∈ mark, l.2 = false) →
    live = replay.map (fun t ↦ { t with generation := generation }) ∧
      ∀ t ∈ replay, t.generation = 0
  gone : ∀ l ∈ mark, l.2 = true → replay = none

section

variable {set : CompiledPatternSet} {overlapLimit generation : ℕ} {record : ContentRecord}
  {marks : Marks} {live replay : Tails}

theorem Paired.prefixFor (h : Paired set overlapLimit generation (marks (streamKey record))
      (live (streamKey record)) (replay (streamKey record)))
    (hinterested : set.isInterested record = true)
    (hresumes : ¬ marks.Resumes set overlapLimit record) :
    replay.prefixFor record 0 = live.prefixFor record generation := by
  unfold Tails.prefixFor
  by_cases hgone : ∃ l ∈ marks (streamKey record), l.2 = true
  · obtain ⟨l, hl, hflag⟩ := hgone
    rw [h.gone l hl hflag]
    cases hlive : live (streamKey record) with
    | none => rfl
    | some t =>
        -- the tail that is left over ends somewhere else
        obtain ⟨l', hl', hkeep, hend⟩ := h.left t hlive
        obtain rfl : l = l' := Option.some.inj ((Option.mem_def.mp hl).symm.trans hl')
        have hne : ¬ t.endOffset = record.streamOffset := fun hoff ↦
          hresumes ⟨hinterested, l, hl, hflag, hkeep, hend.symm.trans hoff⟩
        simp [TailState.prefixFor, hne]
  · have hnone : ∀ l ∈ marks (streamKey record), l.2 = false := fun l hl ↦
      Bool.eq_false_iff.mpr fun hflag ↦ hgone ⟨l, hl, hflag⟩
    obtain ⟨hsame, hzero⟩ := h.same hnone
    rw [hsame]
    cases hreplay : replay (streamKey record) with
    | none => rfl
    | some t =>
        have hgen := hzero t hreplay
        simp [TailState.prefixFor, hgen]

/-- A record that both paths scan. -/
theorem Paired.scan {E : Engines} {b : Bounds}
    (h : Paired set overlapLimit generation (marks (streamKey record)) (live (streamKey record))
      (replay (streamKey record)))
    (hinterested : set.isInterested record = true)
    (hresumes : ¬ marks.Resumes set overlapLimit record) :
    (scanWithTail E set overlapLimit b true 0 replay record).2 =
        (scanWithTail E set overlapLimit b false generation live record).2.replayed ∧
      Paired set overlapLimit generation (marks.next set record (streamKey record))
        ((scanWithTail E set overlapLimit b false generation live record).1 (streamKey record))
        ((scanWithTail E set overlapLimit b true 0 replay record).1 (streamKey record)) := by
  have hpre := h.prefixFor hinterested hresumes
  simp only [scanWithTail, if_pos hinterested, Marks.next, Function.update_self, hpre]
  refine ⟨CompiledPatternSet.scanBounded_replayed E set record _ b, ?_, ?_, ?_⟩
  · intro t ht
    split_ifs at ht with hkeep
    · cases ht
    · obtain rfl := Option.some.inj ht
      exact ⟨_, rfl, hkeep, rfl⟩
  · intro _
    split_ifs
    · exact ⟨rfl, by simp⟩
    · refine ⟨rfl, fun t ht ↦ ?_⟩
      obtain rfl := Option.some.inj ht
      rfl
  · intro l hl hflag
    obtain rfl := Option.some.inj hl
    cases hflag

/-- A record that only replay sees. -/
theorem Paired.skip {mark : Option (ContentRecord × Bool)} {live replay : Option TailState}
    (h : Paired set overlapLimit generation mark live replay) :
    Paired set overlapLimit generation (mark.map fun l ↦ (l.1, true)) live none := by
  refine ⟨fun t ht ↦ ?_, fun hnone ↦ ?_, fun _ _ _ ↦ rfl⟩
  · obtain ⟨l, hl, hkeep, hend⟩ := h.left t ht
    exact ⟨(l.1, true), Option.mem_map_of_mem _ hl, hkeep, hend⟩
  · -- there has been no interesting record yet
    have hmark : mark = none := by
      cases mark with
      | none => rfl
      | some l => cases hnone (l.1, true) rfl
    refine ⟨?_, by simp⟩
    cases hlive : live with
    | none => rfl
    | some t =>
        obtain ⟨l, hl, -⟩ := h.left t hlive
        rw [hmark] at hl
        cases hl

end

/-! ## Runs -/

theorem ofStream_append_self (key : StreamKey) (hits : List MatchRecord)
    (rest : List (StreamKey × MatchRecord)) :
    ofStream key (hits.map (fun hit ↦ (key, hit)) ++ rest) = hits ++ ofStream key rest := by
  simp [ofStream, List.filter_map, Function.comp_def]

theorem ofStream_append_other {key other : StreamKey} (hne : key ≠ other) (hits : List MatchRecord)
    (rest : List (StreamKey × MatchRecord)) :
    ofStream key (hits.map (fun hit ↦ (other, hit)) ++ rest) = ofStream key rest := by
  simp [ofStream, List.filter_map, Function.comp_def, hne.symm]

theorem shardWork_cons (m : MatcherIngress) (i : ℕ) (a : Arrival) (arrivals : List Arrival) :
    shardWork m i (a :: arrivals) =
      (if workerOf m.shards a.record.flowId = i then
        (m.prepareContent a.record).map fun work ↦ (work, a.seen, a.now)
      else none).toList ++ shardWork m i arrivals := by
  rw [shardWork, List.filterMap_cons]
  cases (if workerOf m.shards a.record.flowId = i then
      (m.prepareContent a.record).map fun work ↦ (work, a.seen, a.now)
    else none) <;> rfl

/-- A worker and a scanner that have the tails of a stream in common. -/
structure Aligned (set : CompiledPatternSet) (overlapLimit generation : ℕ) (b : Bounds)
    (key : StreamKey) (marks : Marks) (m : MatcherWorker) (sc : ReplayScanner) : Prop where
  workerLimit : m.overlapLimit = overlapLimit
  workerBounds : m.bounds = b
  patterns : sc.patterns = set
  scannerLimit : sc.overlapLimit = overlapLimit
  scannerBounds : sc.bounds = b
  paired : Paired set overlapLimit generation (marks key) (m.tails key) (sc.tails key)

section

variable {E : Engines} {n generation overlapLimit : ℕ} {set : CompiledPatternSet} {b : Bounds}
  {key : StreamKey} {marks : Marks} {m : MatcherWorker} {sc : ReplayScanner}

/-- What replay does with a record, without expiry. -/
theorem Aligned.scanRecord (h : Aligned set overlapLimit generation b key marks m sc)
    {record : ContentRecord} (hkeeps : sc.Keeps E record) :
    (sc.scanRecord E record).1.tails =
        (scanWithTail E set overlapLimit b true 0 sc.tails record).1 ∧
      (sc.scanRecord E record).2 =
        (scanWithTail E set overlapLimit b true 0 sc.tails record).2 := by
  have hscan := sc.scanRecord_snd E record
  rw [ReplayScanner.Keeps] at hkeeps
  rw [h.patterns, h.scannerLimit, h.scannerBounds] at hkeeps hscan
  exact ⟨hkeeps, hscan⟩

theorem Aligned.next (h : Aligned set overlapLimit generation b key marks m sc)
    {record : ContentRecord} {m' : MatcherWorker} (hlimit : m'.overlapLimit = overlapLimit)
    (hbounds : m'.bounds = b) (hpaired : Paired set overlapLimit generation
      (marks.next set record key) (m'.tails key) ((sc.scanRecord E record).1.tails key)) :
    Aligned set overlapLimit generation b key (marks.next set record) m'
      (sc.scanRecord E record).1 := by
  obtain ⟨hp, hl, hb⟩ := sc.scanRecord_config E record
  exact ⟨hlimit, hbounds, hp.trans h.patterns, hl.trans h.scannerLimit,
    hb.trans h.scannerBounds, hpaired⟩

/-- A record of another stream changes nothing for this one. -/
theorem Aligned.other (h : Aligned set overlapLimit generation b key marks m sc)
    {record : ContentRecord} (hkeeps : sc.Keeps E record) (hkey : key ≠ streamKey record)
    {m' : MatcherWorker} (hlimit : m'.overlapLimit = overlapLimit) (hbounds : m'.bounds = b)
    (htails : m'.tails key = m.tails key) :
    Aligned set overlapLimit generation b key (marks.next set record) m'
      (sc.scanRecord E record).1 := by
  refine h.next hlimit hbounds ?_
  rw [htails, (h.scanRecord hkeeps).1, scanWithTail_of_ne hkey, Marks.next,
    Function.update_of_ne hkey]
  exact h.paired

theorem Aligned.uninteresting (h : Aligned set overlapLimit generation b key marks m sc)
    {record : ContentRecord} (hkeeps : sc.Keeps E record)
    (hinterested : set.isInterested record = false) :
    (sc.scanRecord E record).2.out = [] ∧
      Aligned set overlapLimit generation b key (marks.next set record) m
        (sc.scanRecord E record).1 := by
  obtain ⟨htails, hscan⟩ := h.scanRecord hkeeps
  have hno : ¬ set.isInterested record = true := by simp [hinterested]
  rw [scanWithTail, if_neg hno] at htails hscan
  dsimp only at htails hscan
  refine ⟨by rw [hscan], ?_⟩
  by_cases hkey : key = streamKey record
  · subst hkey
    refine h.next h.workerLimit h.workerBounds ?_
    rw [htails, Marks.next, Function.update_self, Function.update_self, if_neg hno]
    exact h.paired.skip
  · exact h.other hkeeps hkey h.workerLimit h.workerBounds rfl

/-- A record that the worker of the stream's flow gets. -/
theorem Aligned.content (h : Aligned set overlapLimit generation b key marks m sc)
    {record : ContentRecord} {seen now : ℕ} (hkeeps : sc.Keeps E record)
    (hinterested : set.isInterested record = true)
    (hfresh : m.Fresh ⟨record, set, generation⟩ seen now)
    (hresumes : ¬ marks.Resumes set overlapLimit record) :
    (key = streamKey record → (sc.scanRecord E record).2.out =
        (m.content E ⟨record, set, generation⟩ seen now).2.out.map MatchRecord.replayed) ∧
      Aligned set overlapLimit generation b key (marks.next set record)
        (m.content E ⟨record, set, generation⟩ seen now).1 (sc.scanRecord E record).1 := by
  obtain ⟨htails, hscan⟩ := h.scanRecord hkeeps
  obtain ⟨htails', hscan', hlimit, hbounds⟩ := MatcherWorker.content_of_fresh (E := E) hfresh
  rw [h.workerLimit, h.workerBounds] at htails' hscan'
  rw [h.workerLimit] at hlimit
  rw [h.workerBounds] at hbounds
  by_cases hkey : key = streamKey record
  · subst hkey
    obtain ⟨hsame, hpaired⟩ := h.paired.scan (E := E) (b := b) hinterested hresumes
    refine ⟨fun _ ↦ ?_, h.next hlimit hbounds ?_⟩
    · rw [hscan, hscan', hsame]
      rfl
    · rw [htails, htails']
      exact hpaired
  · refine ⟨fun hsame ↦ absurd hsame hkey, h.other hkeeps hkey hlimit hbounds ?_⟩
    rw [htails', scanWithTail_of_ne hkey]

/-- The two paths from a worker and a scanner that are aligned. -/
theorem Aligned.ofStream_eq {arrivals : List Arrival} :
    ∀ {m : MatcherWorker} {sc : ReplayScanner} {marks : Marks},
      Aligned set overlapLimit generation b key marks m sc →
      NoneAged E m (shardWork (ingress set n generation) (workerOf n key.flowId) arrivals) →
      NoneExpired E sc (arrivals.map Arrival.record) →
      Along (Marks.next set) (fun marks record ↦ ¬ marks.Resumes set overlapLimit record) marks
        (arrivals.map Arrival.record) →
      ofStream key (scannerHits E sc (arrivals.map Arrival.record)) =
        (ofStream key (workerHits E m
          (shardWork (ingress set n generation) (workerOf n key.flowId) arrivals))).map
            MatchRecord.replayed := by
  induction arrivals with
  | nil =>
      intros
      rfl
  | cons a arrivals ih =>
      intro m sc marks h haged hexpired hresumes
      obtain ⟨hkeeps, hexpired⟩ := hexpired
      obtain ⟨hresume, hresumes⟩ := hresumes
      rw [shardWork_cons, MatcherIngress.prepareContent_eq rfl] at haged ⊢
      rw [List.map_cons, scannerHits]
      have hactive : (ingress set n generation).active = set := rfl
      have hshards : (ingress set n generation).shards = n := rfl
      have hgeneration : (ingress set n generation).generation = generation := rfl
      simp only [hactive, hshards, hgeneration] at haged ⊢
      cases hinterested : set.isInterested a.record with
      | false =>
          obtain ⟨hquiet, hnext⟩ := h.uninteresting hkeeps hinterested
          simp only [hinterested, Bool.false_eq_true, if_false, Option.map_none, ite_self,
            Option.toList_none, List.nil_append] at haged ⊢
          rw [hquiet, List.map_nil, List.nil_append]
          exact ih hnext haged hexpired hresumes
      | true =>
          simp only [hinterested, if_true, Option.map_some] at haged ⊢
          by_cases hworker : workerOf n a.record.flowId = workerOf n key.flowId
          · rw [if_pos hworker] at haged ⊢
            obtain ⟨hfresh, haged⟩ := haged
            obtain ⟨hhits, hnext⟩ := h.content hkeeps hinterested hfresh hresume
            rw [Option.toList_some, List.singleton_append, workerHits]
            have hrest := ih hnext haged hexpired hresumes
            by_cases hkey : key = streamKey a.record
            · subst hkey
              rw [ofStream_append_self, ofStream_append_self, List.map_append, hhits rfl, hrest]
            · rw [ofStream_append_other hkey, ofStream_append_other hkey, hrest]
          · have hkey : key ≠ streamKey a.record := fun hsame ↦ hworker (by rw [hsame]; rfl)
            rw [if_neg hworker] at haged ⊢
            rw [ofStream_append_other hkey]
            exact ih (h.other hkeeps hkey h.workerLimit h.workerBounds rfl) haged hexpired hresumes

/-- Live matching and replay agree on every sequence of records in which no stream resumes
after an interruption. -/
theorem agree_of_neverResumes (E : Engines) (set : CompiledPatternSet)
    (n generation overlapLimit : ℕ) (b : Bounds) (arrivals : List Arrival)
    (haged : ∀ i, NoneAged E { overlapLimit := overlapLimit, bounds := b }
      (shardWork (ingress set n generation) i arrivals))
    (hexpired : NoneExpired E { patterns := set, overlapLimit := overlapLimit, bounds := b }
      (arrivals.map Arrival.record))
    (hresumes : NeverResumes set overlapLimit (arrivals.map Arrival.record)) :
    Agree set overlapLimit E n generation b arrivals := by
  intro key
  refine Aligned.ofStream_eq ⟨rfl, rfl, rfl, rfl, rfl, ?_⟩ (haged _) hexpired hresumes
  refine ⟨fun t ht ↦ ?_, fun _ ↦ ⟨rfl, fun t ht ↦ ?_⟩, fun l hl ↦ ?_⟩
  · cases ht
  · cases ht
  · cases hl

end

/-! ## A stream that resumes -/

theorem keeps_of_not_due {E : Engines} {sc : ReplayScanner} {record : ContentRecord}
    (h : (sc.scannedRecords + 1) % 2 ^ 64 % 4096 ≠ 0) : sc.Keeps E record := by
  unfold ReplayScanner.Keeps ReplayScanner.scanRecord
  dsimp only
  split_ifs <;> rfl

def webPattern : PatternRevision where
  id := 1
  revision := 1
  expression := "flag"
  kind := .text
  service := some "web"
  view := some .httpResponseDecodedBody

def webSet : CompiledPatternSet where
  globalGroups := []
  serviceGroups := [(("web", .httpResponseDecodedBody),
    { literals := [[102, 108, 97, 103]], literalMeta := [webPattern], maxLiteralLen := 4 })]
  ignoreRevisions := []

/-- Decoded bodies have the offset of the encoded body in the stream. -/
def decodedBody (id : Uuid) (service : String) (streamOffset : ℕ) (data : Bytes) : Arrival :=
  ⟨⟨id, 7, 1000, some service, .bToA, .httpResponseDecodedBody, streamOffset, data⟩, 0, 0⟩

/-- The body `xxxxxxfl`, and where it ends, the body `ag`. -/
def flagBodies : List Arrival :=
  [decodedBody 1 "web" 0 [120, 120, 120, 120, 120, 120, 102, 108], decodedBody 3 "web" 8 [97, 103]]

/-- In between the service had another name. -/
def renamedBodies : List Arrival :=
  [decodedBody 1 "web" 0 [120, 120, 120, 120, 120, 120, 102, 108], decodedBody 2 "api" 5 [121],
    decodedBody 3 "web" 8 [97, 103]]

def webScanner : ReplayScanner := { patterns := webSet, overlapLimit := 64, bounds := {} }

def webWorker : MatcherWorker := { overlapLimit := 64, bounds := {} }

instance (m : MatcherWorker) (work : Work) (seen now : ℕ) : Decidable (m.Fresh work seen now) :=
  inferInstanceAs (Decidable (_ → _))

theorem workerOf_one (flowId : Uuid) : workerOf 1 flowId = 0 := Nat.mod_one _

theorem shardWork_one {i : ℕ} (hi : i ≠ 0) (arrivals : List Arrival) :
    shardWork (ingress webSet 1 1) i arrivals = [] := by
  refine List.filterMap_eq_nil_iff.mpr fun a _ ↦ if_neg ?_
  exact fun h ↦ hi (h.symm.trans (workerOf_one _))

theorem noneAged_one {arrivals : List Arrival}
    (h : NoneAged referenceEngines webWorker (shardWork (ingress webSet 1 1) 0 arrivals)) (i : ℕ) :
    NoneAged referenceEngines webWorker (shardWork (ingress webSet 1 1) i arrivals) := by
  by_cases hi : i = 0
  · rw [hi]
    exact h
  · rw [shardWork_one hi]
    exact trivial

theorem agree_flagBodies :
    (∀ i, NoneAged referenceEngines webWorker (shardWork (ingress webSet 1 1) i flagBodies)) ∧
      NoneExpired referenceEngines webScanner (flagBodies.map Arrival.record) ∧
      NeverResumes webSet 64 (flagBodies.map Arrival.record) ∧
      Agree webSet 64 referenceEngines 1 1 {} flagBodies := by
  have haged : ∀ i, NoneAged referenceEngines webWorker
      (shardWork (ingress webSet 1 1) i flagBodies) :=
    noneAged_one (by unfold NoneAged; decide +kernel)
  have hexpired : NoneExpired referenceEngines webScanner (flagBodies.map Arrival.record) :=
    ⟨keeps_of_not_due (by decide +kernel), keeps_of_not_due (by decide +kernel), trivial⟩
  have hresumes : NeverResumes webSet 64 (flagBodies.map Arrival.record) := by
    unfold NeverResumes
    decide +kernel
  exact ⟨haged, hexpired, hresumes,
    agree_of_neverResumes referenceEngines webSet 1 1 64 {} flagBodies haged hexpired hresumes⟩

theorem not_agree_renamedBodies :
    CompiledPatternSet.compile referenceEngines [webPattern] = some webSet ∧
      (∀ i, NoneAged referenceEngines webWorker (shardWork (ingress webSet 1 1) i renamedBodies)) ∧
      NoneExpired referenceEngines webScanner (renamedBodies.map Arrival.record) ∧
      ¬ Agree webSet 64 referenceEngines 1 1 {} renamedBodies := by
  refine ⟨by decide +kernel, noneAged_one (by unfold NoneAged; decide +kernel),
    ⟨keeps_of_not_due (by decide +kernel), keeps_of_not_due (by decide +kernel),
      keeps_of_not_due (by decide +kernel), trivial⟩, fun h ↦ ?_⟩
  have hreplay : ofStream ⟨7, .bToA, .httpResponseDecodedBody⟩ (scannerHits referenceEngines
      webScanner (renamedBodies.map Arrival.record)) = [] := by
    decide +kernel
  have hlive : (ofStream ⟨7, .bToA, .httpResponseDecodedBody⟩ (workerHits referenceEngines webWorker
      (shardWork (ingress webSet 1 1) 0 renamedBodies))).length = 1 := by
    decide +kernel
  have hlength := congrArg List.length (h ⟨7, .bToA, .httpResponseDecodedBody⟩)
  rw [List.length_map] at hlength
  exact absurd ((congrArg List.length hreplay).symm.trans (hlength.trans hlive)) (by decide)

end Bazalt.Replay
