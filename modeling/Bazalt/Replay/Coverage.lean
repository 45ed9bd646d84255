import Bazalt.Matching.Order
import Bazalt.Replay.Agreement

/-!
# Activation and literals over two records

Live matching drops the tail of a stream when the generation changes, and the replay of a
pattern stops at its seal.  A literal that starts in one record and ends in the next is
reported if both records come before the seal, or if both are matched live for the pattern
under one generation.  Otherwise neither of the two scanners has both halves.
-/

namespace Bazalt.Replay

open Bazalt.Lib Matching

section

variable {ι : Type}

/-- The records before the seal. -/
def historyRecords (s : Pipeline ι) (g : ℕ) : List ContentRecord :=
  (s.history g).filterMap Command.record?

end

/-- The bytes that the stream of the record has had up to it, without a gap. -/
def stretchBefore (records : List ContentRecord) (r : ContentRecord) : Stretch :=
  runFrom Stretch.next {} ((ofKey (streamKey r) records).takeWhile (· ≠ r))

/-- Among the records, no other literal that is searched for overlaps `u ++ v`, which has
its second part at the start of the record. -/
def AloneIn (set : CompiledPatternSet) (p : PatternRevision) (records : List ContentRecord)
    (r : ContentRecord) (u v : Bytes) : Prop :=
  Alone set p r.view (u ++ v) ((stretchBefore records r).bytes ++ r.data)
    ((stretchBefore records r).bytes.length - u.length)

/-- The bytes start in one record and end in the next one of its stream, which goes on where
the first one ends. -/
structure Spans (bytes : Bytes) (records : List ContentRecord) (r₁ r₂ : ContentRecord)
    (u v : Bytes) : Prop where
  pair : [r₁, r₂] <:+: ofKey (streamKey r₂) records
  joined : r₁.streamOffset + r₁.data.length = r₂.streamOffset
  bytes : u ++ v = bytes
  start : u ≠ [] ∧ u <:+ r₁.data
  finish : v ≠ [] ∧ v <+: r₂.data

/-- The shards of the live matcher, with the works each is given and its readings of the
clock, and the workers of the replay. -/
structure Scanning where
  overlapLimit : ℕ
  bounds : Bounds
  shards : ℕ
  clocked : ℕ → List (Work × ℕ × ℕ)
  replayWorkers : ℕ
  scanner : ReplayScanner

namespace Scanning

variable {ι : Type} (E : Engines) (c : Scanning) (p : PatternRevision) (g : ℕ) (s : Pipeline ι)

def worker : MatcherWorker := { overlapLimit := c.overlapLimit, bounds := c.bounds }

def liveHits (i : ℕ) : List MatchRecord := (workerHits E c.worker (c.clocked i)).map Prod.snd

def replayHits (records : List ContentRecord) : List MatchRecord :=
  Scanners.hits E c.replayWorkers (fun _ ↦ c.scanner) records

/-- Every shard is given the works of its flows, the replay is for the pattern and scans what
is before the seal, and no tail is dropped for its age and no limit reached. -/
structure Follows : Prop where
  clocked : ∀ i, (c.clocked i).map Prod.fst =
    s.submitted.filter fun w ↦ decide (workerOf c.shards w.record.flowId = i)
  scanner : ∃ ps, p ∈ ps ∧
    ReplayScanner.new E ps c.overlapLimit c.bounds = some c.scanner
  noneAged : ∀ i, NoneAged E c.worker (c.clocked i)
  noExpiry : Scanners.NoExpiry E c.replayWorkers (fun _ ↦ c.scanner) (historyRecords s g)
  liveUnlimited : ∀ i, Along (fun m w ↦ (m.content E w.1 w.2.1 w.2.2).1)
    (fun m w ↦ (m.content E w.1 w.2.1 w.2.2).2.limited = false) c.worker (c.clocked i)
  replayUnlimited : Along (fun scanners r ↦ (Scanners.dispatch E c.replayWorkers scanners r).1)
    (fun scanners r ↦ ((scanners (workerOf c.replayWorkers r.flowId)).scanRecord E r).2.limited =
      false) (fun _ ↦ c.scanner) (historyRecords s g)

/-- Live matching or the replay has the hit. -/
def Reports (r : ContentRecord) (u v : Bytes) : Prop :=
  matchRecord p r (r.streamOffset - u.length) (r.streamOffset + v.length) false ∈
      c.liveHits E (workerOf c.shards r.flowId) ∨
    matchRecord p r (r.streamOffset - u.length) (r.streamOffset + v.length) true ∈
      c.replayHits E (historyRecords s g)

/-- Every occurrence over two records in scope is reported. -/
def ReportsAll (bytes : Bytes) : Prop :=
  ∀ r₁ r₂ u v, Spans bytes s.records r₁ r₂ u v → InScope p r₁ → InScope p r₂ →
    c.Reports E p g s r₂ u v

/-- Both records are before the seal, or both were submitted for the pattern under one
generation; and no other literal overlaps the occurrence there. -/
def Together (r₁ r₂ : ContentRecord) (u v : Bytes) : Prop :=
  .record r₂ ∈ s.history g ∧ AloneIn c.scanner.patterns p (historyRecords s g) r₂ u v ∨
    ∃ w₁ ∈ s.submitted, ∃ w₂ ∈ s.submitted, w₁.record = r₁ ∧ w₂.record = r₂ ∧
      w₁.generation = w₂.generation ∧ w₁.snapshot.Contains E p ∧ w₂.snapshot.Contains E p ∧
        AloneIn w₂.snapshot p s.given r₂ u v

end Scanning

/-! ## The scanners and their tails -/

section

variable {E : Engines}

theorem mem_workerHits {m : MatcherWorker} {before later : List (Work × ℕ × ℕ)}
    {w : Work × ℕ × ℕ} {hit : MatchRecord}
    (h : hit ∈ ((runFrom (fun m w ↦ (MatcherWorker.content E m w.1 w.2.1 w.2.2).1) m
      before).content E w.1 w.2.1 w.2.2).2.out) :
    hit ∈ (workerHits E m (before ++ w :: later)).map Prod.snd := by
  induction before generalizing m with
  | nil =>
      rw [List.nil_append, workerHits, List.map_append]
      refine List.mem_append_left _ (List.mem_map.mpr ⟨(streamKey w.1.record, hit), ?_, rfl⟩)
      exact List.mem_map_of_mem h
  | cons w' before ih =>
      rw [List.cons_append, workerHits, List.map_append]
      exact List.mem_append_right _ (ih h)

theorem tails_runFrom_content {m : MatcherWorker} {works : List (Work × ℕ × ℕ)}
    (h : NoneAged E m works) :
    let m' := runFrom (fun m w ↦ (MatcherWorker.content E m w.1 w.2.1 w.2.2).1) m works
    m'.tails = worksAfter E m.overlapLimit m.bounds false m.tails (works.map Prod.fst) ∧
      m'.overlapLimit = m.overlapLimit ∧ m'.bounds = m.bounds := by
  induction works generalizing m with
  | nil => exact ⟨rfl, rfl, rfl⟩
  | cons w works ih =>
      obtain ⟨htails, -, hlimit, hbounds⟩ := MatcherWorker.content_of_fresh (E := E) h.1
      obtain ⟨h₁, h₂, h₃⟩ := ih h.2
      rw [runFrom_cons]
      refine ⟨?_, h₂.trans hlimit, h₃.trans hbounds⟩
      rw [h₁, htails, hlimit, hbounds]
      rfl

/-- A record that is replayed, as a work. -/
def replayWork (set : CompiledPatternSet) (r : ContentRecord) : Work := ⟨r, set, 0⟩

theorem Scanners.scanRecord_snd_eq {n : ℕ} {set : CompiledPatternSet} {overlapLimit : ℕ}
    {b : Bounds} {scanners : Scanners} (h : scanners.Alike set overlapLimit b)
    (r : ContentRecord) : ((scanners (workerOf n r.flowId)).scanRecord E r).2 =
      (scanWithTail E set overlapLimit b true 0 (scanners.tails n) r).2 := by
  obtain ⟨h₁, h₂, h₃⟩ := h (workerOf n r.flowId)
  have hserved : (scanners (workerOf n r.flowId)).tails.prefixFor r 0 =
      (scanners.tails n).prefixFor r 0 := prefixFor_congr rfl
  rw [ReplayScanner.scanRecord_snd, h₁, h₂, h₃]
  exact (scanWithTail_congr hserved).2

theorem Scanners.tails_after {n : ℕ} {set : CompiledPatternSet} {overlapLimit : ℕ} {b : Bounds}
    {scanners : Scanners} (h : scanners.Alike set overlapLimit b) {records : List ContentRecord}
    (hkeep : scanners.NoExpiry E n records) :
    (scanners.after E n records).tails n =
        worksAfter E overlapLimit b true (scanners.tails n) (records.map (replayWork set)) ∧
      (scanners.after E n records).Alike set overlapLimit b := by
  induction records generalizing scanners with
  | nil => exact ⟨rfl, h⟩
  | cons r records ih =>
      obtain ⟨-, htails⟩ := dispatch_spec h hkeep.1
      obtain ⟨h₁, h₂⟩ := ih (h.dispatch r) hkeep.2
      refine ⟨?_, h₂⟩
      rw [Scanners.after, runFrom_cons, ← Scanners.after, h₁, htails]
      rfl

end

/-! ## Two records of a stream among the works of a scanner -/

/-- The works up to the second record: the first one, and then none of the stream. -/
theorem exists_works_of_pair {works : List Work} {r₁ r₂ : ContentRecord}
    (hpair : [r₁, r₂] <:+: ofKey (streamKey r₂) (works.map Work.record)) :
    ∃ before w₁ between w₂ later, works = before ++ w₁ :: between ++ w₂ :: later ∧
      w₁.record = r₁ ∧ w₂.record = r₂ ∧ ∀ w ∈ between, streamKey w.record ≠ streamKey r₂ := by
  obtain ⟨front, rest, hpair⟩ := hpair
  rw [ofKey, List.filter_map, List.append_assoc] at hpair
  obtain ⟨front', pair', hworks, -, hpair'⟩ := List.map_eq_append_iff.mp hpair.symm
  obtain ⟨as, bs, rfl, -, hbs⟩ := List.filter_eq_append_iff.mp hworks
  rw [List.cons_append, List.singleton_append] at hpair'
  obtain ⟨w₁, tail', rfl, rfl, htail'⟩ := List.map_eq_cons_iff.mp hpair'
  obtain ⟨w₂, later', rfl, rfl, -⟩ := List.map_eq_cons_iff.mp htail'
  obtain ⟨cs, ds, rfl, -, -, hds⟩ := List.filter_eq_cons_iff.mp hbs
  obtain ⟨es, fs, rfl, hes, -, -⟩ := List.filter_eq_cons_iff.mp hds
  refine ⟨as ++ cs, w₁, es, w₂, fs, by simp, rfl, rfl, fun w hw ↦ ?_⟩
  simpa using hes w hw

theorem takeWhile_ne_of_nodup {α : Type*} [DecidableEq α] {front rest : List α} {r : α}
    (h : (front ++ r :: rest).Nodup) : (front ++ r :: rest).takeWhile (· ≠ r) = front := by
  obtain ⟨-, -, hapart⟩ := List.nodup_append.mp h
  rw [List.takeWhile_append_of_pos, List.takeWhile_cons_of_neg (by simp), List.append_nil]
  intro r' hr'
  simpa using hapart r' hr' r List.mem_cons_self

/-- What the scanner has been given of the stream before the second record. -/
theorem stretchBefore_eq {records : List ContentRecord} (before later : List Work) (w : Work)
    (hnodup : (ofKey (streamKey w.record) records).Nodup)
    (h : ofKey (streamKey w.record) ((before ++ w :: later).map Work.record) =
      ofKey (streamKey w.record) records) :
    stretchBefore records w.record = stretch (streamKey w.record) (before.map Work.record) := by
  have hself : ofKey (streamKey w.record) ((before ++ w :: later).map Work.record) =
      ofKey (streamKey w.record) (before.map Work.record) ++ w.record ::
        ofKey (streamKey w.record) (later.map Work.record) := by
    rw [List.map_append, ofKey_append, List.map_cons, ofKey, ofKey, List.filter_cons_of_pos (by simp)]
    rfl
  rw [hself] at h
  rw [stretchBefore, stretch, ← h, takeWhile_ne_of_nodup (h ▸ hnodup)]

section

variable {E : Engines} {p : PatternRevision} {bytes : Bytes} {overlapLimit : ℕ} {b : Bounds}
  {historical : Bool}

/-- A scanner that was given both records one after the other, for the pattern and under one
generation, finds the literal over them. -/
theorem mem_out_of_spans (hE : E.Standard) (hliteral : literal? E p = some bytes)
    {before between : List Work} {w₁ w₂ : Work} {u v : Bytes} {records : List ContentRecord}
    (hspans : Spans bytes records w₁.record w₂.record u v)
    (hscope₁ : InScope p w₁.record) (hscope₂ : InScope p w₂.record)
    (hset₁ : w₁.snapshot.Contains E p) (hset₂ : w₂.snapshot.Contains E p)
    (hgeneration : w₁.generation = w₂.generation)
    (hbetween : ∀ w ∈ between, streamKey w.record ≠ streamKey w₂.record)
    (hfits : ∀ w ∈ before ++ w₁ :: between ++ [w₂],
      w.record.streamOffset + w.record.data.length ≤ u64Max)
    (halone : Alone w₂.snapshot p w₂.record.view (u ++ v)
      ((stretch (streamKey w₂.record) ((before ++ w₁ :: between).map Work.record)).bytes ++
        w₂.record.data)
      ((stretch (streamKey w₂.record) ((before ++ w₁ :: between).map Work.record)).bytes.length -
        u.length))
    {tails : Tails}
    (htails : tails = worksAfter E overlapLimit b historical (fun _ ↦ none)
      (before ++ w₁ :: between))
    (hlimit : (scanWithTail E w₂.snapshot overlapLimit b historical w₂.generation tails
      w₂.record).2.limited = false) :
    matchRecord p w₂.record (w₂.record.streamOffset - u.length)
        (w₂.record.streamOffset + v.length) historical ∈
      (scanWithTail E w₂.snapshot overlapLimit b historical w₂.generation tails
        w₂.record).2.out := by
  obtain ⟨hu, hdata₁⟩ := hspans.start
  obtain ⟨hv, hdata₂⟩ := hspans.finish
  have hliteral' : literal? E p = some (u ++ v) := hspans.bytes ▸ hliteral
  have hkey : streamKey w₁.record = streamKey w₂.record := by
    simpa using (List.mem_filter.mp (hspans.pair.subset List.mem_cons_self)).2
  have hfits₁ := hfits w₁ (by simp)
  -- the tail of the stream is the one that the first record left
  obtain ⟨t, ht, hsuffix, hfinish, hgen⟩ := @suffix_scanWithTail E w₁.snapshot p overlapLimit b
    historical w₁.generation (worksAfter E overlapLimit b historical (fun _ ↦ none) before)
    w₁.record u v hset₁ hscope₁ hliteral' hu hv hdata₁
  have htail : tails (streamKey w₂.record) = some t := by
    rw [htails, show before ++ w₁ :: between = before ++ [w₁] ++ between by simp, worksAfter_append,
      worksAfter_of_ne hbetween, worksAfter_append, worksAfter_singleton, ← hkey]
    exact ht
  rw [satAdd_of_le hfits₁, hspans.joined] at hfinish
  have hserved : tails.prefixFor w₂.record w₂.generation = t.data := by
    rw [Tails.prefixFor, htail, Option.map_some, Option.getD_some, TailState.prefixFor,
      if_pos ⟨hgen.trans hgeneration, hfinish⟩]
  have hreflects := reflects_worksAfter E overlapLimit b historical (streamKey w₂.record)
    (before ++ w₁ :: between) fun w hw ↦ hfits w (List.mem_append_left _ hw)
  rw [← htails] at hreflects
  obtain ⟨hfront, hstretch⟩ := hreflects t htail
  have hlength := length_stretch (streamKey w₂.record)
    ((before ++ w₁ :: between).map Work.record)
  refine mem_out_scanWithTail hE hset₂ hscope₂ hliteral' hu hv (hserved ▸ hsuffix) hdata₂
    (hserved ▸ hfront) ?_ halone hlimit
  rw [← hstretch, hfinish] at hlength
  exact hlength

end

/-! ## Both scanners -/

namespace Scanning

variable {ι : Type} {E : Engines} {c : Scanning} {p : PatternRevision} {g : ℕ} {s : Pipeline ι}
  {bytes u v : Bytes}

theorem work_eq {key : StreamKey} (hnodup : (ofKey key s.given).Nodup) {w w' : Work}
    (hw : w ∈ s.submitted) (hw' : w' ∈ s.submitted) (hkey : streamKey w.record = key)
    (h : w.record = w'.record) : w = w' := by
  rw [ofKey, Pipeline.given, List.filter_map] at hnodup
  refine List.inj_on_of_nodup_map hnodup (List.mem_filter.mpr ⟨hw, ?_⟩)
    (List.mem_filter.mpr ⟨hw', ?_⟩) h
  · simpa using hkey
  · simpa [← h] using hkey

theorem ofKey_clocked (hc : c.Follows E p g s) (key : StreamKey) :
    ofKey key (((c.clocked (workerOf c.shards key.flowId)).map Prod.fst).map Work.record) =
      ofKey key s.given := by
  rw [hc.clocked, ofKey, ofKey, Pipeline.given, List.filter_map, List.filter_map,
    List.filter_filter]
  congr 1
  refine List.filter_congr fun w _ ↦ ?_
  rw [Bool.and_eq_left_iff_imp]
  intro hkey
  obtain rfl := of_decide_eq_true hkey
  exact decide_eq_true rfl

/-- Live matching finds what was submitted for the pattern under one generation. -/
theorem mem_liveHits (hE : E.Standard) (hliteral : literal? E p = some bytes)
    (hc : c.Follows E p g s) {w₁ w₂ : Work} (hw₁ : w₁ ∈ s.submitted) (hw₂ : w₂ ∈ s.submitted)
    (hspans : Spans bytes s.given w₁.record w₂.record u v)
    (hscope₁ : InScope p w₁.record) (hscope₂ : InScope p w₂.record)
    (hset₁ : w₁.snapshot.Contains E p) (hset₂ : w₂.snapshot.Contains E p)
    (hgeneration : w₁.generation = w₂.generation)
    (hnodup : (ofKey (streamKey w₂.record) s.given).Nodup)
    (hfits : ∀ r ∈ s.given, r.streamOffset + r.data.length ≤ u64Max)
    (halone : AloneIn w₂.snapshot p s.given w₂.record u v) :
    matchRecord p w₂.record (w₂.record.streamOffset - u.length)
        (w₂.record.streamOffset + v.length) false ∈
      c.liveHits E (workerOf c.shards w₂.record.flowId) := by
  have hshard := ofKey_clocked hc (streamKey w₂.record)
  have hpair := hspans.pair
  rw [← hshard] at hpair
  obtain ⟨before, w₁', between, w₂', later, hworks, h₁, h₂, hbetween⟩ := exists_works_of_pair hpair
  have hsubmitted : ∀ w ∈ before ++ w₁' :: between ++ w₂' :: later, w ∈ s.submitted := by
    intro w hw
    rw [← hworks, hc.clocked] at hw
    exact List.mem_of_mem_filter hw
  have hkey₁ : streamKey w₁'.record = streamKey w₂.record := by
    rw [h₁]
    simpa using (List.mem_filter.mp (hspans.pair.subset List.mem_cons_self)).2
  obtain rfl := work_eq hnodup (hsubmitted w₁' (by simp)) hw₁ hkey₁ h₁
  obtain rfl := work_eq hnodup (hsubmitted w₂' (by simp)) hw₂ (congrArg streamKey h₂) h₂
  -- the readings of the clock that come with the works
  obtain ⟨first, rest, hclocked, hfirst, hrest⟩ := List.map_eq_append_iff.mp hworks
  obtain ⟨⟨w, seen, now⟩, rest', rfl, rfl, -⟩ := List.map_eq_cons_iff.mp hrest
  have haged := hc.noneAged (workerOf c.shards w.record.flowId)
  have hlimits := hc.liveUnlimited (workerOf c.shards w.record.flowId)
  rw [show (streamKey w.record).flowId = w.record.flowId from rfl] at hclocked
  rw [hclocked] at haged hlimits
  obtain ⟨haged, hfresh, -⟩ := along_append.mp haged
  obtain ⟨-, hlimit, -⟩ := along_append.mp hlimits
  obtain ⟨htails, hoverlap, hbounds⟩ := tails_runFrom_content haged
  obtain ⟨-, hscan, -, -⟩ := MatcherWorker.content_of_fresh (E := E) hfresh
  rw [liveHits, hclocked]
  refine mem_workerHits ?_
  dsimp only at hlimit hscan htails hoverlap hbounds ⊢
  rw [hscan, hoverlap, hbounds] at hlimit ⊢
  rw [hfirst] at htails
  rw [AloneIn, stretchBefore_eq (before ++ w₁' :: between) later _ hnodup
    (by rw [← hworks]; exact hshard)] at halone
  have hfitsWork : ∀ w' ∈ before ++ w₁' :: between ++ [w],
      w'.record.streamOffset + w'.record.data.length ≤ u64Max := by
    intro w' hw'
    refine hfits _ (List.mem_map_of_mem (hsubmitted w' ?_))
    rcases List.mem_append.mp hw' with hw' | hw'
    · exact List.mem_append_left _ hw'
    · simp [List.mem_singleton.mp hw']
  exact mem_out_of_spans hE hliteral hspans hscope₁ hscope₂ hset₁ hset₂ hgeneration hbetween
    hfitsWork halone htails hlimit

/-- The replay finds what is before the seal. -/
theorem mem_replayHits (hE : E.Standard) (hliteral : literal? E p = some bytes)
    (hc : c.Follows E p g s) {r₁ r₂ : ContentRecord}
    (hspans : Spans bytes (historyRecords s g) r₁ r₂ u v)
    (hscope₁ : InScope p r₁) (hscope₂ : InScope p r₂)
    (hnodup : (ofKey (streamKey r₂) (historyRecords s g)).Nodup)
    (hfits : ∀ r ∈ historyRecords s g, r.streamOffset + r.data.length ≤ u64Max)
    (halone : AloneIn c.scanner.patterns p (historyRecords s g) r₂ u v) :
    matchRecord p r₂ (r₂.streamOffset - u.length) (r₂.streamOffset + v.length) true ∈
      c.replayHits E (historyRecords s g) := by
  obtain ⟨ps, hps, hnew⟩ := hc.scanner
  obtain ⟨set, hset, hscanner⟩ := Option.map_eq_some_iff.mp hnew
  have hcontains : set.Contains E p := ⟨ps, hset, hps⟩
  have hpatterns : c.scanner.patterns = set := by rw [← hscanner]
  have halike : Scanners.Alike set c.overlapLimit c.bounds fun _ ↦ c.scanner := by
    intro i
    rw [← hscanner]
    exact ⟨rfl, rfl, rfl⟩
  have hempty : Scanners.tails c.replayWorkers (fun _ ↦ c.scanner) = fun _ ↦ none := by
    funext key
    rw [Scanners.tails, ← hscanner]
  have hmap : ((historyRecords s g).map (replayWork set)).map Work.record = historyRecords s g := by
    rw [List.map_map]
    exact List.map_id _
  have hpair := hspans.pair
  rw [← hmap] at hpair
  obtain ⟨before, w₁, between, w₂, later, hworks, rfl, rfl, hbetween⟩ := exists_works_of_pair hpair
  obtain ⟨first, rest, hhistory, hfirst, hrest⟩ := List.map_eq_append_iff.mp hworks
  obtain ⟨r, rest', rfl, rfl, -⟩ := List.map_eq_cons_iff.mp hrest
  obtain ⟨r', -, rfl⟩ : ∃ r' ∈ first, replayWork set r' = w₁ :=
    List.mem_map.mp (by rw [hfirst]; simp)
  have hkeep := hc.noExpiry
  have hlimits := hc.replayUnlimited
  rw [hhistory] at hkeep hlimits
  obtain ⟨hkeep, hkeeps, -⟩ := along_append.mp hkeep
  obtain ⟨-, hlimit, -⟩ := along_append.mp hlimits
  obtain ⟨htails, halike'⟩ := Scanners.tails_after halike hkeep
  rw [hempty, hfirst] at htails
  have hscan := Scanners.scanRecord_snd_eq (E := E) (n := c.replayWorkers) halike' r
  obtain ⟨hout, -⟩ := Scanners.dispatch_spec halike' hkeeps
  rw [Scanners.after] at hscan
  rw [hscan, ← Scanners.after] at hlimit
  rw [AloneIn, hpatterns, stretchBefore_eq (before ++ replayWork set r' :: between) later
    (replayWork set r) hnodup (by rw [← hworks, hmap])] at halone
  have hfitsWork : ∀ w ∈ before ++ replayWork set r' :: between ++ [replayWork set r],
      w.record.streamOffset + w.record.data.length ≤ u64Max := by
    intro w hw
    refine hfits _ (hmap ▸ List.mem_map_of_mem (f := Work.record) ?_)
    rw [hworks]
    rcases List.mem_append.mp hw with hw | hw
    · exact List.mem_append_left _ hw
    · simp [List.mem_singleton.mp hw]
  have hmem := mem_out_of_spans hE hliteral hspans hscope₁ hscope₂ hcontains hcontains rfl hbetween
    hfitsWork halone htails hlimit
  rw [replayHits, hhistory, Scanners.hits_append, Scanners.hits]
  refine List.mem_append_right _ (List.mem_append_left _ ?_)
  rw [hout]
  exact hmem

end Scanning

section

variable {ι : Type} {s : Pipeline ι}

theorem historyRecords_prefix (s : Pipeline ι) (g : ℕ) : historyRecords s g <+: s.records :=
  (List.takeWhile_prefix _).filterMap _

theorem mem_historyRecords {g : ℕ} {r : ContentRecord} (h : .record r ∈ s.history g) :
    r ∈ historyRecords s g :=
  List.mem_filterMap.mpr ⟨_, h, rfl⟩

variable [DecidableEq ι] {owner : Uuid → ι} {todos : ι → List ContentRecord}

theorem mem_todos (h : s.InOrder owner todos) {r : ContentRecord} (hr : r ∈ s.records) :
    r ∈ todos (owner r.flowId) := by
  refine (h.appended _).subset (List.mem_append_left _ (List.mem_filter.mpr ⟨hr, ?_⟩))
  exact decide_eq_true rfl

/-- An occurrence over two records is reported, if both are before the seal or both are
matched live for the pattern under one generation, and no other literal overlaps it. -/
theorem reports_of_together (E : Engines) (hE : E.Standard) (p : PatternRevision) (bytes : Bytes)
    (hliteral : literal? E p = some bytes) (g : ℕ) (owner : Uuid → ι) (s : Pipeline ι)
    (hstart : s.Starts owner) (es : List (Event ι)) (c : Scanning)
    (hc : c.Follows E p g (runFrom Pipeline.step s es)) (r₁ r₂ : ContentRecord) (u v : Bytes)
    (hspans : Spans bytes (runFrom Pipeline.step s es).records r₁ r₂ u v)
    (hscope₁ : InScope p r₁) (hscope₂ : InScope p r₂)
    (h : c.Together E p g (runFrom Pipeline.step s es) r₁ r₂ u v) :
    c.Reports E p g (runFrom Pipeline.step s es) r₂ u v := by
  have horder := hstart.run es
  set s' := runFrom Pipeline.step s es
  have hnodup := horder.nodup hstart.distinct (streamKey r₂)
  have hfits : ∀ r ∈ s'.records, r.streamOffset + r.data.length ≤ u64Max := fun r hr ↦
    hstart.fits _ r (mem_todos horder hr)
  rcases h with ⟨hsealed, halone⟩ | ⟨w₁, hw₁, w₂, hw₂, rfl, rfl, hgeneration, hset₁, hset₂, halone⟩
  · right
    have hearly := historyRecords_prefix s' g
    have hmem : r₂ ∈ ofKey (streamKey r₂) (historyRecords s' g) :=
      List.mem_filter.mpr ⟨mem_historyRecords hsealed, decide_eq_true rfl⟩
    have hpair := pair_infix_of_prefix hnodup (hearly.filter _) hspans.pair hmem
    exact Scanning.mem_replayHits hE hliteral hc { hspans with pair := hpair } hscope₁ hscope₂
      (hnodup.sublist (hearly.filter _).sublist) (fun r hr ↦ hfits r (hearly.subset hr)) halone
  · left
    have hpair := horder.pair_given hstart.distinct hspans.pair (List.mem_map_of_mem hw₁)
      (List.mem_map_of_mem hw₂)
    have hgiven : ∀ r ∈ s'.given, r ∈ s'.records := by
      intro r hr
      have hkey : r ∈ ofKey (streamKey r) s'.given :=
        List.mem_filter.mpr ⟨hr, decide_eq_true rfl⟩
      exact List.mem_of_mem_filter ((horder.given_sublist _).subset hkey)
    exact Scanning.mem_liveHits hE hliteral hc hw₁ hw₂ { hspans with pair := hpair } hscope₁
      hscope₂ hset₁ hset₂ hgeneration (hnodup.sublist (horder.given_sublist _))
      (fun r hr ↦ hfits r (hgiven r hr)) halone

end

/-! ## Runs -/

/-- One live worker and one replay worker. -/
def oneShard (set : CompiledPatternSet) (works : List (Work × ℕ × ℕ)) : Scanning where
  overlapLimit := 64
  bounds := {}
  shards := 1
  clocked := fun i ↦ if i = 0 then works else []
  replayWorkers := 1
  scanner := { patterns := set, overlapLimit := 64, bounds := {} }

theorem clocked_oneShard (set : CompiledPatternSet) (works : List (Work × ℕ × ℕ)) {i : ℕ}
    (hi : i ≠ 0) : (oneShard set works).clocked i = [] :=
  if_neg hi

theorem follows_oneShard {p : PatternRevision} {set : CompiledPatternSet}
    {works : List (Work × ℕ × ℕ)} {g : ℕ} {s : Pipeline (Fin 1)}
    (hset : CompiledPatternSet.compile referenceEngines [p] = some set)
    (hworks : works.map Prod.fst = s.submitted)
    (haged : NoneAged referenceEngines (oneShard set works).worker works)
    (hlimit : Along (fun m w ↦ (MatcherWorker.content referenceEngines m w.1 w.2.1 w.2.2).1)
      (fun m w ↦ (MatcherWorker.content referenceEngines m w.1 w.2.1 w.2.2).2.limited = false)
      (oneShard set works).worker works)
    (hkeep : Scanners.NoExpiry referenceEngines 1 (fun _ ↦ (oneShard set works).scanner)
      (historyRecords s g))
    (hreplay : Along (fun scanners r ↦ (Scanners.dispatch referenceEngines 1 scanners r).1)
      (fun scanners r ↦ ((scanners (workerOf 1 r.flowId)).scanRecord referenceEngines r).2.limited =
        false) (fun _ ↦ (oneShard set works).scanner) (historyRecords s g)) :
    (oneShard set works).Follows referenceEngines p g s where
  clocked := by
    intro i
    by_cases hi : i = 0
    · subst hi
      exact hworks.trans (List.filter_eq_self.mpr fun w _ ↦ decide_eq_true (workerOf_one _)).symm
    · rw [clocked_oneShard set works hi]
      refine (List.filter_eq_nil_iff.mpr fun w _ hw ↦ hi ?_).symm
      exact (of_decide_eq_true hw).symm.trans (workerOf_one _)
  scanner := ⟨[p], by simp, by rw [ReplayScanner.new, hset]; rfl⟩
  noneAged := by
    intro i
    by_cases hi : i = 0
    · subst hi
      exact haged
    · rw [clocked_oneShard set works hi]
      trivial
  noExpiry := hkeep
  liveUnlimited := by
    intro i
    by_cases hi : i = 0
    · subst hi
      exact hlimit
    · rw [clocked_oneShard set works hi]
      trivial
  replayUnlimited := hreplay

theorem starts_of_idle {s : Pipeline (Fin 1)} (hqueue : s.queue = []) (hsubmitted : s.submitted = [])
    (hidle : (s.workers 0).stage = .idle) (hdistinct : (s.workers 0).todo.Nodup)
    (hfits : ∀ r ∈ (s.workers 0).todo, r.streamOffset + r.data.length ≤ u64Max) :
    s.Starts fun _ ↦ (0 : Fin 1) where
  queue := hqueue
  submitted := hsubmitted
  idle := fun i ↦ Subsingleton.elim 0 i ▸ hidle
  owned := fun i _ _ ↦ Subsingleton.elim 0 i
  distinct := fun i ↦ Subsingleton.elim 0 i ▸ hdistinct
  fits := fun i ↦ Subsingleton.elim 0 i ▸ hfits

theorem flagSet_compile :
    CompiledPatternSet.compile referenceEngines [flagPattern] = some flagSet := by
  decide +kernel

/-- The pattern is activated and sealed, and then the two records come. -/
def orderedRun : List (Event (Fin 1)) :=
  [.install, .install, .install, .sealFor 2] ++ List.replicate 12 (.worker 0 true)

def flagWorks : List (Work × ℕ × ℕ) :=
  [(⟨rawRecord 1 0 [102, 108], flagSet, 2⟩, 0, 0), (⟨rawRecord 2 2 [97, 103], flagSet, 2⟩, 0, 0)]

theorem reports_orderedRun :
    (oneShard flagSet flagWorks).Reports referenceEngines flagPattern 2
      (runFrom Pipeline.step firstActivation orderedRun) (rawRecord 2 2 [97, 103]) [102, 108]
      [97, 103] := by
  have hhistory : historyRecords (runFrom Pipeline.step firstActivation orderedRun) 2 = [] := by
    decide +kernel
  have hsubmitted : (runFrom Pipeline.step firstActivation orderedRun).submitted =
      flagWorks.map Prod.fst := by
    decide +kernel
  refine reports_of_together referenceEngines referenceEngines_standard flagPattern
    [102, 108, 97, 103] (by decide +kernel) 2 (fun _ ↦ 0) firstActivation
    (starts_of_idle rfl rfl rfl (by decide) (by decide)) orderedRun (oneShard flagSet flagWorks)
    (follows_oneShard flagSet_compile hsubmitted.symm (by unfold NoneAged; decide +kernel)
      (by decide +kernel) (by rw [hhistory]; trivial) (by rw [hhistory]; trivial))
    (rawRecord 1 0 [102, 108]) (rawRecord 2 2 [97, 103]) [102, 108] [97, 103] ?_ (by decide)
    (by decide) (.inr ?_)
  · exact ⟨by decide +kernel, rfl, rfl, by decide, by decide⟩
  · rw [hsubmitted]
    refine ⟨_, List.mem_cons_self, _, List.mem_cons_of_mem _ List.mem_cons_self, rfl, rfl, rfl,
      flagSet_contains, flagSet_contains, ?_⟩
    have htext : (stretchBefore (runFrom Pipeline.step firstActivation orderedRun).given
        (rawRecord 2 2 [97, 103])).bytes = [102, 108] := by
      decide +kernel
    rw [AloneIn, htext]
    intro group hgroup
    have hflag : group =
        { literals := [[102, 108, 97, 103]], literalMeta := [flagPattern], maxLiteralLen := 4 } :=
      (Option.some.inj hgroup).symm
    subst hflag
    refine ⟨0, rfl, fun j w t hw hocc _ _ ↦ ?_⟩
    obtain ⟨rfl, rfl⟩ : j = 0 ∧ w = [102, 108, 97, 103] := by
      cases j with
      | zero => exact ⟨rfl, (Option.some.inj hw).symm⟩
      | succ j => cases hw
    have hend := hocc.end_le (by simp)
    refine ⟨rfl, ?_⟩
    simp only [rawRecord, List.length_append, List.length_cons, List.length_nil] at hend ⊢
    omega

/-- Two records of two bytes each come, and then a pattern of three such bytes. -/
def repeatedPattern : PatternRevision :=
  { id := 2, revision := 1, expression := "aaa", kind := .text }

def repeatedSet : CompiledPatternSet where
  globalGroups := [.tcpRaw, .httpRequestDecodedBody, .httpResponseDecodedBody].map fun view ↦
    (view, { literals := [[97, 97, 97]], literalMeta := [repeatedPattern], maxLiteralLen := 3 })
  serviceGroups := []
  ignoreRevisions := []

def repeatedActivation : Pipeline (Fin 1) where
  active := ⟨[], [], []⟩
  interestMask := 0
  generation := 1
  workers := fun _ ↦ ⟨.idle, [rawRecord 1 0 [97, 97], rawRecord 2 2 [97, 97]]⟩
  plan := [repeatedSet]

def repeatedRun : List (Event (Fin 1)) :=
  List.replicate 4 (.worker 0 true) ++ [.install, .install, .install, .sealFor 2]

theorem activates_repeatedActivation :
    repeatedActivation.Activates referenceEngines repeatedPattern 2 where
  queue := rfl
  install := rfl
  idle := fun _ ↦ rfl
  later := by decide
  plan := by
    intro k set hk _
    have hmem := List.mem_of_getElem? hk
    rw [List.mem_singleton.mp hmem]
    exact ⟨[repeatedPattern], by decide +kernel, List.mem_singleton_self _⟩

/-- With one record before the seal and one after it nothing is reported; and of two
occurrences that overlap, one. -/
theorem not_reportsAll_coveredRun :
    firstActivation.Activates referenceEngines flagPattern 2 ∧
      (oneShard flagSet [(⟨rawRecord 2 2 [97, 103], flagSet, 2⟩, 0, 0)]).Follows referenceEngines
        flagPattern 2 (runFrom Pipeline.step firstActivation coveredRun) ∧
      ¬ (oneShard flagSet [(⟨rawRecord 2 2 [97, 103], flagSet, 2⟩, 0, 0)]).ReportsAll
        referenceEngines flagPattern 2 (runFrom Pipeline.step firstActivation coveredRun)
        [102, 108, 97, 103] ∧
      repeatedActivation.Activates referenceEngines repeatedPattern 2 ∧
      (oneShard repeatedSet []).Follows referenceEngines repeatedPattern 2
        (runFrom Pipeline.step repeatedActivation repeatedRun) ∧
      ¬ (oneShard repeatedSet []).ReportsAll referenceEngines repeatedPattern 2
        (runFrom Pipeline.step repeatedActivation repeatedRun) [97, 97, 97] := by
  have hhistory : historyRecords (runFrom Pipeline.step firstActivation coveredRun) 2 =
      [rawRecord 1 0 [102, 108]] := by
    decide +kernel
  have hhistory' : historyRecords (runFrom Pipeline.step repeatedActivation repeatedRun) 2 =
      [rawRecord 1 0 [97, 97], rawRecord 2 2 [97, 97]] := by
    decide +kernel
  refine ⟨activates_firstActivation, follows_oneShard flagSet_compile (by decide +kernel)
      (by unfold NoneAged; decide +kernel) (by decide +kernel) ?_
      (by rw [hhistory]; decide +kernel), fun h ↦ ?_, activates_repeatedActivation,
    follows_oneShard (by decide +kernel) (by decide +kernel) trivial trivial ?_
      (by rw [hhistory']; decide +kernel), fun h ↦ ?_⟩
  · rw [hhistory]
    exact ⟨keeps_of_not_due (by decide +kernel), trivial⟩
  · have hreports := h (rawRecord 1 0 [102, 108]) (rawRecord 2 2 [97, 103]) [102, 108] [97, 103]
      ⟨by decide +kernel, rfl, rfl, by decide, by decide⟩ (by decide) (by decide)
    rcases hreports with hreports | hreports
    · revert hreports
      decide +kernel
    · revert hreports
      decide +kernel
  · rw [hhistory']
    exact ⟨keeps_of_not_due (by decide +kernel), keeps_of_not_due (by decide +kernel), trivial⟩
  · have hreports := h (rawRecord 1 0 [97, 97]) (rawRecord 2 2 [97, 97]) [97] [97, 97]
      ⟨by decide +kernel, rfl, rfl, by decide, by decide⟩ (by decide) (by decide)
    rcases hreports with hreports | hreports
    · revert hreports
      decide +kernel
    · revert hreports
      decide +kernel

end Bazalt.Replay
