import Bazalt.Matching.Masking
import Bazalt.Matching.Worker

/-!
# Limited scans

A scan with limits leaves hits out of the scan without limits, and says so.  No two hits of a
scan have the key by which the table of matches tells its rows apart.
-/

namespace Bazalt.Matching

open Lib

/-- The pattern revision that a hit is for. -/
def MatchRecord.pattern (hit : MatchRecord) : Uuid × ℤ := (hit.patternId, hit.patternRevision)

theorem MatchRecord.IsFor.pattern {hit : MatchRecord} {p : PatternRevision} (h : hit.IsFor p) :
    hit.pattern = (p.id, p.revision) := Prod.ext h.1 h.2

section Truncation

variable {b : Bounds} {s s' s'' : Scan} {hits more : List MatchRecord}

/-- The counts of the limiter agree with the hits and are within the limits. -/
structure Scan.Counts (b : Bounds) (s : Scan) : Prop where
  total : s.out.length ≤ s.candidates
  maxTotal : ∀ n ∈ b.maxTotal, s.candidates ≤ n
  shares : ∀ key, s.out.countP (fun hit ↦ hit.pattern = key) = s.perPattern key
  maxPerPattern : ∀ n ∈ b.maxPerPattern, ∀ key, s.perPattern key ≤ n

/-- The scan `s'` is `s` after the candidates `hits`. -/
structure Truncates (b : Bounds) (s s' : Scan) (hits : List MatchRecord) : Prop where
  kept : ∃ sub, sub.Sublist hits ∧ s'.out = s.out ++ sub
  whole : s'.limited = false → s.limited = false ∧ s'.out = s.out ++ hits
  counts : s.Counts b → s'.Counts b
  free : b = {} → s'.limited = s.limited

theorem Truncates.refl : Truncates b s s [] where
  kept := ⟨[], List.Sublist.refl _, (List.append_nil _).symm⟩
  whole h := ⟨h, (List.append_nil _).symm⟩
  counts h := h
  free _ := rfl

theorem Truncates.trans (h : Truncates b s s' hits) (h' : Truncates b s' s'' more) :
    Truncates b s s'' (hits ++ more) where
  kept := by
    obtain ⟨sub, hsub, hout⟩ := h.kept
    obtain ⟨sub', hsub', hout'⟩ := h'.kept
    exact ⟨sub ++ sub', hsub.append hsub', by rw [hout', hout, List.append_assoc]⟩
  whole hlimited := by
    obtain ⟨hmid, hout'⟩ := h'.whole hlimited
    obtain ⟨hlow, hout⟩ := h.whole hmid
    exact ⟨hlow, by rw [hout', hout, List.append_assoc]⟩
  counts hcounts := h'.counts (h.counts hcounts)
  free hb := (h'.free hb).trans (h.free hb)

/-- What comes after the flag was set may be left out. -/
theorem Truncates.cut (h : Truncates b s s' hits) (hlimited : s'.limited = true)
    (more : List MatchRecord) : Truncates b s s' (hits ++ more) where
  kept := by
    obtain ⟨sub, hsub, hout⟩ := h.kept
    exact ⟨sub, hsub.trans (List.sublist_append_left _ _), hout⟩
  whole hnot := by
    rw [hlimited] at hnot
    cases hnot
  counts := h.counts
  free := h.free

theorem not_exhausted_empty (s : Scan) : ¬s.exhausted {} = true := by simp [Scan.exhausted]

theorem truncates_markLimited (hfull : s.exhausted b = true) (hits : List MatchRecord) :
    Truncates b s s.markLimited hits where
  kept := ⟨[], List.nil_sublist _, (List.append_nil _).symm⟩
  whole hnot := nomatch hnot
  counts h := ⟨h.total, h.maxTotal, h.shares, h.maxPerPattern⟩
  free hb := by
    subst hb
    exact absurd hfull (not_exhausted_empty s)

theorem Scan.room (hroom : ¬s.exhausted b = true) :
    ∀ n ∈ b.maxTotal, s.candidates + 1 ≤ n := by
  intro n hn
  rw [Option.mem_def] at hn
  simpa [Scan.exhausted, hn] using hroom

theorem truncates_push {p : PatternRevision} {hit : MatchRecord} (hfor : hit.IsFor p) :
    Truncates b s (s.push b p hit) [hit] := by
  unfold Scan.push
  by_cases hfull : s.exhausted b = true
  · rw [if_pos hfull]
    exact truncates_markLimited hfull _
  · rw [if_neg hfull]
    dsimp only
    by_cases hshare : ∃ n ∈ b.maxPerPattern, n ≤ s.perPattern (p.id, p.revision)
    · rw [if_pos hshare]
      refine ⟨⟨[], List.nil_sublist _, (List.append_nil _).symm⟩, fun h ↦ (by cases h),
        fun h ↦ ⟨?_, Scan.room hfull, h.shares, h.maxPerPattern⟩, fun hb ↦ ?_⟩
      · exact h.total.trans (Nat.le_succ _)
      · subst hb
        obtain ⟨n, hn, -⟩ := hshare
        cases hn
    · rw [if_neg hshare]
      refine ⟨⟨[hit], List.Sublist.refl _, rfl⟩, fun h ↦ ⟨h, rfl⟩,
        fun h ↦ ⟨?_, Scan.room hfull, fun key ↦ ?_, fun n hn key ↦ ?_⟩, fun _ ↦ rfl⟩
      · rw [List.length_append]
        exact Nat.succ_le_succ h.total
      · rw [List.countP_append, h.shares, List.countP_singleton, hfor.pattern]
        by_cases hkey : (p.id, p.revision) = key
        · subst hkey
          simp
        · simp [hkey, Function.update_of_ne (Ne.symm hkey)]
      · by_cases hkey : key = (p.id, p.revision)
        · subst hkey
          have hless := not_exists.mp hshare n
          rw [not_and, not_le] at hless
          simpa using hless hn
        · simpa [Function.update_of_ne hkey] using h.maxPerPattern n hn key

/-- A loop over matches.  If it leaves the scan, the flag is set. -/
theorem truncates_each {M : Type} (keep : M → Option (PatternRevision × MatchRecord))
    (hfor : ∀ m p hit, keep m = some (p, hit) → hit.IsFor p) (ms : List M) (s : Scan) :
    Truncates b s (Scan.each b keep ms s).1 ((ms.filterMap keep).map Prod.snd) ∧
      ((Scan.each b keep ms s).2 = false → (Scan.each b keep ms s).1.limited = true) := by
  induction ms generalizing s with
  | nil => exact ⟨Truncates.refl, fun h ↦ (by cases h)⟩
  | cons m ms ih =>
      rw [Scan.each]
      by_cases hfull : s.exhausted b = true
      · rw [if_pos hfull]
        exact ⟨truncates_markLimited hfull _, fun _ ↦ rfl⟩
      · rw [if_neg hfull]
        cases hkeep : keep m with
        | none =>
            rw [List.filterMap_cons_none hkeep]
            exact ih s
        | some e =>
            obtain ⟨p, hit⟩ := e
            rw [List.filterMap_cons_some hkeep]
            obtain ⟨hrest, hleft⟩ := ih (s.push b p hit)
            exact ⟨(truncates_push (hfor m p hit hkeep)).trans hrest, hleft⟩

end Truncation

namespace CompiledGroup

variable {E : Engines} {b : Bounds} {g : CompiledGroup} {record : ContentRecord} {tail : Bytes}
  {historical : Bool} {p : PatternRevision} {hit : MatchRecord}

theorem keepBridge_eq {base : ℕ} {m : Hit}
    (h : g.keepBridge record historical base m = some (p, hit)) :
    g.literalMeta[m.word]? = some p ∧ base + m.start < record.streamOffset ∧
      hit = matchRecord p record (base + m.start) (base + m.finish) historical := by
  obtain ⟨q, hq, hhit⟩ := Option.bind_eq_some_iff.mp h
  dsimp only at hhit
  split_ifs at hhit with hcross
  cases hhit
  exact ⟨hq, hcross.1, rfl⟩

theorem keepData_eq {m : Hit} (h : g.keepData record historical m = some (p, hit)) :
    g.literalMeta[m.word]? = some p ∧ hit = matchRecord p record (record.streamOffset + m.start)
      (record.streamOffset + m.finish) historical := by
  obtain ⟨q, hq, hhit⟩ := Option.map_eq_some_iff.mp h
  cases hhit
  exact ⟨hq, rfl⟩

theorem keepRegex_eq {base : ℕ} {boundary : Option ℕ} {q : PatternRevision} {m : ℕ × ℕ}
    (h : keepRegex record historical base boundary q m = some (p, hit)) :
    p = q ∧ hit = matchRecord q record (base + m.1) (base + m.2) historical := by
  unfold keepRegex at h
  split_ifs at h
  cases h
  exact ⟨rfl, rfl⟩

theorem isFor_matchRecord (p : PatternRevision) (record : ContentRecord) (start finish : ℕ)
    (historical : Bool) : (matchRecord p record start finish historical).IsFor p := ⟨rfl, rfl⟩

variable (E g record tail historical)

/-- The hits of the regular expressions. -/
def regexHits : List MatchRecord :=
  if g.regexes.isEmpty then []
  else
    ((g.regexes.zip g.regexMeta).filter fun e ↦ E.regexIsMatch e.1 (tail ++ record.data)).flatMap
      fun e ↦ ((E.regexFindIter e.1 (tail ++ record.data)).filterMap
        (keepRegex record historical (record.streamOffset - tail.length)
          (if tail.isEmpty then none else some record.streamOffset) e.2)).map Prod.snd

/-- All hits of a group, in the order in which they are found. -/
def groupHits : List MatchRecord :=
  literalHits E g record tail historical ++ regexHits E g record tail historical

theorem truncates_scanBridge (b : Bounds) (s : Scan) :
    Truncates b s (g.scanBridge E b record tail historical s).1
      (bridgeHits E g record tail historical) ∧
    ((g.scanBridge E b record tail historical s).2 = false →
      (g.scanBridge E b record tail historical s).1.limited = true) := by
  unfold scanBridge bridgeHits
  dsimp only
  split_ifs
  · refine truncates_each _ (fun m p hit hkeep ↦ ?_) _ s
    rw [(keepBridge_eq hkeep).2.2]
    exact isFor_matchRecord _ _ _ _ _
  · exact ⟨Truncates.refl, fun h ↦ (by cases h)⟩

theorem truncates_scanLiterals (b : Bounds) (s : Scan) :
    Truncates b s (g.scanLiterals E b record tail historical s).1
      (literalHits E g record tail historical) ∧
    ((g.scanLiterals E b record tail historical s).2 = false →
      (g.scanLiterals E b record tail historical s).1.limited = true) := by
  unfold scanLiterals literalHits
  split_ifs
  · exact ⟨Truncates.refl, fun h ↦ (by cases h)⟩
  · obtain ⟨hbridge, hleft⟩ := truncates_scanBridge E g record tail historical b s
    rcases hscan : g.scanBridge E b record tail historical s with ⟨s', _ | _⟩
    · rw [hscan] at hbridge hleft
      exact ⟨hbridge.cut (hleft rfl) _, fun _ ↦ hleft rfl⟩
    · rw [hscan] at hbridge
      have hdata := truncates_each (b := b) (g.keepData record historical)
        (fun m p hit hkeep ↦ by
          rw [(keepData_eq hkeep).2]
          exact isFor_matchRecord _ _ _ _ _) (E.acFindIter g.literals record.data) s'
      exact ⟨hbridge.trans hdata.1, hdata.2⟩

theorem truncates_scanRegexes (b : Bounds) (combined : Bytes) (base : ℕ) (boundary : Option ℕ)
    (res : List (String × PatternRevision)) (s : Scan) :
    Truncates b s (scanRegexes E b record historical combined base boundary res s)
      (res.flatMap fun e ↦ ((E.regexFindIter e.1 combined).filterMap
        (keepRegex record historical base boundary e.2)).map Prod.snd) := by
  induction res generalizing s with
  | nil => exact Truncates.refl
  | cons e res ih =>
      obtain ⟨re, p⟩ := e
      rw [scanRegexes, List.flatMap_cons]
      by_cases hfull : s.exhausted b = true
      · rw [if_pos hfull]
        exact truncates_markLimited hfull _
      · rw [if_neg hfull]
        obtain ⟨hone, hleft⟩ := truncates_each (b := b)
          (keepRegex record historical base boundary p)
          (fun m q hit hkeep ↦ by
            obtain ⟨rfl, rfl⟩ := keepRegex_eq hkeep
            exact isFor_matchRecord _ _ _ _ _) (E.regexFindIter re combined) s
        rcases hscan : Scan.each b (keepRegex record historical base boundary p)
          (E.regexFindIter re combined) s with ⟨s', _ | _⟩
        · rw [hscan] at hone hleft
          exact hone.cut (hleft rfl) _
        · rw [hscan] at hone
          exact hone.trans (ih s')

/-- A scan of a group, whatever the limits. -/
theorem truncates_scanInto (b : Bounds) (s : Scan) :
    Truncates b s (g.scanInto E b record tail historical s)
      (groupHits E g record tail historical) := by
  unfold scanInto groupHits
  obtain ⟨hliterals, hleft⟩ := truncates_scanLiterals E g record tail historical b s
  rcases hscan : g.scanLiterals E b record tail historical s with ⟨s', _ | _⟩
  · rw [hscan] at hliterals hleft
    exact hliterals.cut (hleft rfl) _
  · rw [hscan] at hliterals
    refine hliterals.trans ?_
    unfold regexHits
    dsimp only
    by_cases hempty : g.regexes.isEmpty = true
    · rw [if_pos hempty, if_pos hempty]
      exact Truncates.refl
    · rw [if_neg hempty, if_neg hempty]
      by_cases hfull : s'.exhausted b = true
      · rw [if_pos hfull]
        exact truncates_markLimited hfull _
      · rw [if_neg hfull]
        exact truncates_scanRegexes E record historical b _ _ _ _ s'

end CompiledGroup

namespace CompiledPatternSet

variable (E : Engines) (set : CompiledPatternSet) (record : ContentRecord) (tail : Bytes)
  (historical : Bool)

/-- All hits of the groups of a record. -/
def scanHits : List MatchRecord :=
  ((set.groupsFor record).1.elim [] fun g ↦ g.groupHits E record tail historical) ++
    (set.groupsFor record).2.elim [] fun g ↦ g.groupHits E record tail historical

theorem truncates_scanBounded (b : Bounds) :
    Truncates b {} (set.scanBounded E record tail historical b)
      (set.scanHits E record tail historical) := by
  have hglobal : Truncates b {} ((set.groupsFor record).1.elim {} fun group ↦
      group.scanInto E b record tail historical {})
      ((set.groupsFor record).1.elim [] fun g ↦ g.groupHits E record tail historical) := by
    cases (set.groupsFor record).1 with
    | none => exact Truncates.refl
    | some group => exact group.truncates_scanInto E record tail historical b {}
  rw [scanBounded_eq, scanHits]
  refine hglobal.trans ?_
  cases (set.groupsFor record).2 with
  | none => exact Truncates.refl
  | some group =>
      dsimp only [Option.elim]
      split_ifs with hfull
      · exact truncates_markLimited hfull _
      · exact group.truncates_scanInto E record tail historical b _

theorem scan_eq : set.scan E record tail historical = set.scanHits E record tail historical := by
  have hscan := set.truncates_scanBounded E record tail historical {}
  exact (hscan.whole (hscan.free rfl)).2

/-- A limited scan is an honest part of the scan without limits. -/
theorem scanBounded_truncates (b : Bounds) :
    (set.scanBounded E record tail historical b).out.Sublist
        (set.scan E record tail historical) ∧
      (∀ n ∈ b.maxTotal, (set.scanBounded E record tail historical b).out.length ≤ n) ∧
      (∀ n ∈ b.maxPerPattern, ∀ key, ((set.scanBounded E record tail historical b).out.filter
        fun hit ↦ hit.pattern = key).length ≤ n) ∧
      ((set.scanBounded E record tail historical b).limited = false →
        (set.scanBounded E record tail historical b).out =
          set.scan E record tail historical) := by
  have hscan := set.truncates_scanBounded E record tail historical b
  have hempty : ({} : Scan).Counts b := ⟨le_rfl, fun _ _ ↦ Nat.zero_le _, fun _ ↦ rfl,
    fun _ _ _ ↦ Nat.zero_le _⟩
  have hcounts := hscan.counts hempty
  obtain ⟨sub, hsub, hout⟩ := hscan.kept
  rw [scan_eq]
  refine ⟨?_, fun n hn ↦ hcounts.total.trans (hcounts.maxTotal n hn), fun n hn key ↦ ?_,
    fun hlimited ↦ (hscan.whole hlimited).2⟩
  · rw [hout]
    exact hsub
  · rw [← List.countP_eq_length_filter, hcounts.shares]
    exact hcounts.maxPerPattern n hn key

end CompiledPatternSet

/-! ## The keys of matches -/

/-- The key by which the table of matches tells its rows apart. -/
def MatchRecord.key (hit : MatchRecord) : Uuid × ℤ × Uuid × ℕ :=
  (hit.patternId, hit.patternRevision, hit.contentId, hit.offsetStart)

/-- What is relied on of the libraries: matches are found from left to right. -/
structure Engines.LeftToRight (E : Engines) : Prop where
  literals : ∀ words text, (E.acFindIter words text).Pairwise fun m m' ↦ m.start < m'.start
  regexes : ∀ re text, (E.regexFindIter re text).Pairwise fun m m' ↦ m.1 < m'.1

/-- No two patterns have the same identifier and revision. -/
def DistinctPatterns (ps : List PatternRevision) : Prop :=
  ps.Pairwise fun p q ↦ ¬(p.id = q.id ∧ p.revision = q.revision)

def DistinctKeys (hits : List MatchRecord) : Prop :=
  hits.Pairwise fun hit hit' ↦ hit.key ≠ hit'.key

section Keys

variable {E : Engines} {ps : List PatternRevision} {g : CompiledGroup} {record : ContentRecord}
  {tail : Bytes} {historical : Bool}

theorem ne_of_pattern_ne {hit hit' : MatchRecord} (h : hit.pattern ≠ hit'.pattern) :
    hit.key ≠ hit'.key := by
  intro heq
  simp only [MatchRecord.key, Prod.mk.injEq] at heq
  exact h (Prod.ext heq.1 heq.2.1)

theorem ne_of_start_ne {hit hit' : MatchRecord} (h : hit.offsetStart ≠ hit'.offsetStart) :
    hit.key ≠ hit'.key := by
  intro heq
  simp only [MatchRecord.key, Prod.mk.injEq] at heq
  exact h heq.2.2.2

theorem DistinctPatterns.eq_of_key (h : DistinctPatterns ps) {p q : PatternRevision} (hp : p ∈ ps)
    (hq : q ∈ ps) (hkey : (p.id, p.revision) = (q.id, q.revision)) : p = q := by
  rw [Prod.mk.injEq] at hkey
  by_contra hne
  have hsymm : Std.Symm fun p q : PatternRevision ↦ ¬(p.id = q.id ∧ p.revision = q.revision) :=
    ⟨fun _ _ h h' ↦ h ⟨h'.1.symm, h'.2.symm⟩⟩
  exact List.Pairwise.forall h hp hq hne hkey

/-- Hits for different patterns. -/
theorem DistinctPatterns.key_ne (h : DistinctPatterns ps) {p q : PatternRevision} (hp : p ∈ ps)
    (hq : q ∈ ps) (hne : p ≠ q) {hit hit' : MatchRecord} (hfor : hit.IsFor p)
    (hfor' : hit'.IsFor q) : hit.key ≠ hit'.key := by
  refine ne_of_pattern_ne fun heq ↦ hne (h.eq_of_key hp hq ?_)
  rw [← hfor.pattern, ← hfor'.pattern, heq]

theorem DistinctPatterns.nodup (h : DistinctPatterns ps) : ps.Nodup :=
  List.Pairwise.imp (fun hne heq ↦ hne ⟨congrArg _ heq, congrArg _ heq⟩) h

/-- Matches that are found from left to right have different keys. -/
theorem distinctKeys_filterMap {M : Type} {keep : M → Option (PatternRevision × MatchRecord)}
    (start : M → ℕ) (base : ℕ)
    (hstart : ∀ m p hit, keep m = some (p, hit) → hit.offsetStart = base + start m)
    {ms : List M} (hms : ms.Pairwise fun m m' ↦ start m < start m') :
    DistinctKeys ((ms.filterMap keep).map Prod.snd) := by
  refine List.Pairwise.map _ (fun _ _ h ↦ h) (List.Pairwise.filterMap _ ?_ hms)
  rintro m m' hlt ⟨p, hit⟩ hkeep ⟨p', hit'⟩ hkeep'
  refine ne_of_start_ne ?_
  rw [hstart m p hit hkeep, hstart m' p' hit' hkeep']
  omega

theorem pairwise_zip_snd {α β : Type*} {R : β → β → Prop} {bs : List β} (as : List α)
    (h : bs.Pairwise R) : (as.zip bs).Pairwise fun e e' ↦ R e.2 e'.2 := by
  induction as generalizing bs with
  | nil => exact List.Pairwise.nil
  | cons a as ih =>
      cases h with
      | nil => exact List.Pairwise.nil
      | cons hb hbs =>
          exact List.Pairwise.cons (fun e he ↦ hb e.2 (List.of_mem_zip he).2) (ih hbs)

namespace CompiledGroup

theorem distinctKeys_literalHits (hE : E.LeftToRight) (g : CompiledGroup) (record : ContentRecord)
    (tail : Bytes) (historical : Bool) :
    DistinctKeys (literalHits E g record tail historical) := by
  unfold literalHits
  split_ifs
  · exact List.Pairwise.nil
  · refine List.pairwise_append.mpr ⟨?_, ?_, fun hit hhit hit' hhit' ↦ ne_of_start_ne ?_⟩
    · unfold bridgeHits
      dsimp only
      split_ifs
      · refine distinctKeys_filterMap Hit.start
          (record.streamOffset - (tail.drop (tail.length - (g.maxLiteralLen - 1))).length)
          (fun m p hit hkeep ↦ ?_) (hE.literals _ _)
        rw [(keepBridge_eq hkeep).2.2]
        rfl
      · exact List.Pairwise.nil
    · refine distinctKeys_filterMap Hit.start record.streamOffset (fun m p hit hkeep ↦ ?_)
        (hE.literals _ _)
      rw [(keepData_eq hkeep).2]
      rfl
    · -- a hit over the start of the record starts before it
      have hbefore := start_lt_of_mem_bridgeHits hhit
      obtain ⟨m, -, p, -, rfl⟩ := mem_dataHits.mp hhit'
      simp only [matchRecord]
      omega

theorem isFor_of_mem_literalHits {hit : MatchRecord}
    (h : hit ∈ literalHits E g record tail historical) : ∃ p ∈ g.literalMeta, hit.IsFor p := by
  unfold literalHits at h
  split_ifs at h
  · cases h
  · rcases List.mem_append.mp h with h | h
    · unfold bridgeHits at h
      dsimp only at h
      split_ifs at h
      · obtain ⟨⟨p, hit'⟩, hmem, rfl⟩ := List.mem_map.mp h
        obtain ⟨m, -, hkeep⟩ := List.mem_filterMap.mp hmem
        obtain ⟨hp, -, rfl⟩ := keepBridge_eq hkeep
        exact ⟨p, List.mem_of_getElem? hp, isFor_matchRecord _ _ _ _ _⟩
      · cases h
    · obtain ⟨m, -, p, hp, rfl⟩ := mem_dataHits.mp h
      exact ⟨p, List.mem_of_getElem? hp, isFor_matchRecord _ _ _ _ _⟩

theorem isFor_of_mem_regexHits {hit : MatchRecord}
    (h : hit ∈ regexHits E g record tail historical) : ∃ p ∈ g.regexMeta, hit.IsFor p := by
  unfold regexHits at h
  by_cases hempty : g.regexes.isEmpty = true
  · rw [if_pos hempty] at h
    cases h
  · rw [if_neg hempty] at h
    obtain ⟨e, he, hmem⟩ := List.mem_flatMap.mp h
    obtain ⟨⟨p, hit'⟩, hfound, rfl⟩ := List.mem_map.mp hmem
    obtain ⟨m, -, hkeep⟩ := List.mem_filterMap.mp hfound
    obtain ⟨rfl, rfl⟩ := keepRegex_eq hkeep
    exact ⟨e.2, (List.of_mem_zip (List.mem_filter.mp he).1).2, isFor_matchRecord _ _ _ _ _⟩

theorem distinctKeys_regexHits (hE : E.LeftToRight) (hps : DistinctPatterns ps)
    (hmeta : g.regexMeta.Nodup) (hsub : g.regexMeta ⊆ ps) (record : ContentRecord)
    (tail : Bytes) (historical : Bool) :
    DistinctKeys (regexHits E g record tail historical) := by
  unfold regexHits
  by_cases hempty : g.regexes.isEmpty = true
  · rw [if_pos hempty]
    exact List.Pairwise.nil
  · rw [if_neg hempty]
    refine List.pairwise_flatMap.mpr ⟨fun e _ ↦ ?_, ?_⟩
    · refine distinctKeys_filterMap Prod.fst (record.streamOffset - tail.length)
        (fun m p hit hkeep ↦ ?_) (hE.regexes _ _)
      rw [(keepRegex_eq hkeep).2]
      rfl
    · -- each expression has its own pattern
      have hzip := (pairwise_zip_snd g.regexes hmeta).filter
        fun e ↦ E.regexIsMatch e.1 (tail ++ record.data)
      refine hzip.imp_of_mem fun {e e'} he he' hne hit hhit hit' hhit' ↦ ?_
      have hmem : ∀ e ∈ (g.regexes.zip g.regexMeta).filter
          fun e ↦ E.regexIsMatch e.1 (tail ++ record.data), e.2 ∈ ps := fun e he ↦
        hsub (List.of_mem_zip (List.mem_filter.mp he).1).2
      obtain ⟨⟨p, _⟩, hfound, rfl⟩ := List.mem_map.mp hhit
      obtain ⟨⟨p', _⟩, hfound', rfl⟩ := List.mem_map.mp hhit'
      obtain ⟨m, -, hkeep⟩ := List.mem_filterMap.mp hfound
      obtain ⟨m', -, hkeep'⟩ := List.mem_filterMap.mp hfound'
      obtain ⟨rfl, rfl⟩ := keepRegex_eq hkeep
      obtain ⟨rfl, rfl⟩ := keepRegex_eq hkeep'
      exact hps.key_ne (hmem e he) (hmem e' he') hne (isFor_matchRecord _ _ _ _ _)
        (isFor_matchRecord _ _ _ _ _)

/-- The hits of a group that is compiled from some of the patterns. -/
theorem distinctKeys_groupHits (hE : E.LeftToRight) (hps : DistinctPatterns ps)
    {qs : List PatternRevision} (hqs : qs.Sublist ps) (hg : Grown E {} g qs)
    (record : ContentRecord) (tail : Bytes) (historical : Bool) :
    DistinctKeys (groupHits E g record tail historical) := by
  have hliterals : g.literalMeta = qs.filter fun p ↦ (literal? E p).isSome := by
    rw [hg.literalMeta, List.nil_append, map_snd_literalsOf]
  have hregexes : g.regexMeta = qs.filter fun p ↦ p.kind == .regex := by
    rw [hg.regexMeta, List.nil_append]
  have hsub : g.regexMeta.Sublist ps := by
    rw [hregexes]
    exact List.filter_sublist.trans hqs
  refine List.pairwise_append.mpr ⟨distinctKeys_literalHits hE g record tail historical,
    distinctKeys_regexHits hE hps (hps.nodup.sublist hsub) hsub.subset record tail historical,
    fun hit hhit hit' hhit' ↦ ?_⟩
  obtain ⟨p, hp, hfor⟩ := isFor_of_mem_literalHits hhit
  obtain ⟨q, hq, hfor'⟩ := isFor_of_mem_regexHits hhit'
  rw [hliterals, List.mem_filter] at hp
  rw [hregexes, List.mem_filter, beq_iff_eq] at hq
  refine hps.key_ne (hqs.subset hp.1) (hqs.subset hq.1) ?_ hfor hfor'
  rintro rfl
  have hliteral := hp.2
  rw [literal?, hq.2] at hliteral
  cases hliteral

theorem isFor_of_mem_groupHits {qs : List PatternRevision} (hg : Grown E {} g qs)
    {hit : MatchRecord} (h : hit ∈ groupHits E g record tail historical) :
    ∃ p ∈ qs, hit.IsFor p := by
  rcases List.mem_append.mp h with h | h
  · obtain ⟨p, hp, hfor⟩ := isFor_of_mem_literalHits h
    rw [hg.literalMeta, List.nil_append, map_snd_literalsOf, List.mem_filter] at hp
    exact ⟨p, hp.1, hfor⟩
  · obtain ⟨p, hp, hfor⟩ := isFor_of_mem_regexHits h
    rw [hg.regexMeta, List.nil_append, List.mem_filter] at hp
    exact ⟨p, hp.1, hfor⟩

end CompiledGroup

theorem DistinctKeys.eq {hits : List MatchRecord} (h : DistinctKeys hits) {hit hit' : MatchRecord}
    (hhit : hit ∈ hits) (hhit' : hit' ∈ hits) (hkey : hit.key = hit'.key) : hit = hit' := by
  by_contra hne
  have hsymm : Std.Symm fun hit hit' : MatchRecord ↦ hit.key ≠ hit'.key :=
    ⟨fun _ _ h ↦ Ne.symm h⟩
  exact List.Pairwise.forall h hhit hhit' hne hkey

namespace CompiledPatternSet

variable {set : CompiledPatternSet}

/-- The global group and the group of the service have different patterns. -/
theorem distinctKeys_scanHits (hE : E.LeftToRight) (hps : DistinctPatterns ps)
    (hset : compile E ps = some set) (record : ContentRecord) (tail : Bytes)
    (historical : Bool) : DistinctKeys (set.scanHits E record tail historical) := by
  have hgrown : ∀ service g, set.group service record.view = some g → CompiledGroup.Grown E {} g
      (ps.filter fun p ↦ decide (Belongs service record.view p)) := fun service g hg ↦
    CompiledGroup.compile_grown ((group_spec hset service record.view).1 g hg)
  have hgroup : ∀ service g, set.group service record.view = some g →
      DistinctKeys (g.groupHits E record tail historical) := fun service g hg ↦
    CompiledGroup.distinctKeys_groupHits hE hps List.filter_sublist (hgrown service g hg) record
      tail historical
  unfold scanHits groupsFor
  dsimp only
  refine List.pairwise_append.mpr ⟨?_, ?_, fun hit hhit hit' hhit' ↦ ?_⟩
  · cases hglobal : set.globalGroups.lookup record.view with
    | none => exact List.Pairwise.nil
    | some g => exact hgroup none g hglobal
  · cases hname : record.service with
    | none => exact List.Pairwise.nil
    | some name =>
        dsimp only [Option.bind]
        cases hservice : set.serviceGroups.lookup (name, record.view) with
        | none => exact List.Pairwise.nil
        | some g => exact hgroup (some name) g hservice
  · cases hglobal : set.globalGroups.lookup record.view with
    | none =>
        rw [hglobal] at hhit
        cases hhit
    | some g =>
        cases hname : record.service with
        | none =>
            rw [hname] at hhit'
            cases hhit'
        | some name =>
            rw [hname] at hhit'
            dsimp only [Option.bind] at hhit'
            cases hservice : set.serviceGroups.lookup (name, record.view) with
            | none =>
                rw [hservice] at hhit'
                cases hhit'
            | some g' =>
                rw [hglobal] at hhit
                rw [hservice] at hhit'
                obtain ⟨p, hp, hfor⟩ :=
                  CompiledGroup.isFor_of_mem_groupHits (hgrown none g hglobal) hhit
                obtain ⟨q, hq, hfor'⟩ :=
                  CompiledGroup.isFor_of_mem_groupHits (hgrown (some name) g' hservice) hhit'
                rw [List.mem_filter, decide_eq_true_eq] at hp hq
                refine hps.key_ne hp.1 hq.1 ?_ hfor hfor'
                rintro rfl
                cases hp.2.2.1.symm.trans hq.2.2.1

/-- Two hits of one scan have different keys, and two hits with one key of two scans of a
record, live or in a replay, differ in the historical flag at most. -/
theorem scanBounded_keys (E : Engines) (hE : E.LeftToRight) (ps : List PatternRevision)
    (hps : DistinctPatterns ps) (set : CompiledPatternSet) (hset : compile E ps = some set)
    (record : ContentRecord) (tail : Bytes) (b : Bounds) :
    (∀ historical, DistinctKeys (set.scanBounded E record tail historical b).out) ∧
      ∀ historical historical', ∀ hit ∈ (set.scanBounded E record tail historical b).out,
        ∀ hit' ∈ (set.scanBounded E record tail historical' b).out, hit.key = hit'.key →
          hit.replayed = hit'.replayed := by
  have hdistinct : ∀ historical,
      DistinctKeys (set.scanBounded E record tail historical b).out := by
    intro historical
    obtain ⟨sub, hsub, hout⟩ := (set.truncates_scanBounded E record tail historical b).kept
    rw [hout]
    exact (distinctKeys_scanHits hE hps hset record tail historical).sublist hsub
  have hreplayed : ∀ historical, ∀ hit ∈ (set.scanBounded E record tail historical b).out,
      hit.replayed ∈ (set.scanBounded E record tail true b).out := by
    intro historical hit hhit
    rw [scanBounded_replayed]
    cases historical with
    | false => exact List.mem_map_of_mem hhit
    | true =>
        rw [scanBounded_replayed] at hhit
        obtain ⟨live, hlive, rfl⟩ := List.mem_map.mp hhit
        exact List.mem_map.mpr ⟨live, hlive, rfl⟩
  exact ⟨hdistinct, fun historical historical' hit hhit hit' hhit' hkey ↦
    (hdistinct true).eq (hreplayed historical hit hhit) (hreplayed historical' hit' hhit') hkey⟩

end CompiledPatternSet

end Keys

/-- The reference engines, for automata without an empty word. -/
def wordEngines : Engines := { referenceEngines with
  acFindIter := fun words text ↦
    if [] ∈ words then [] else referenceEngines.acFindIter words text }

theorem wordEngines_leftToRight : wordEngines.LeftToRight where
  literals words text := by
    simp only [wordEngines]
    split_ifs with hempty
    · exact List.Pairwise.nil
    · have hne : ∀ w ∈ words, w ≠ [] := by
        rintro w hw rfl
        exact hempty hw
      obtain ⟨hhits, hpair⟩ :=
        hitsFrom_spec (searchFrom_earliest hne text) (text.length + 1) 0
      refine hpair.imp_of_mem fun {m m'} hm _ hle ↦ ?_
      have hlt := ((hhits m hm).lt_finish hne).1
      omega
  regexes _ _ := List.Pairwise.nil

/-- A record of the service of one of the patterns, with a hit over its start. -/
def shopRecord : ContentRecord :=
  ⟨3, 4, 0, some "shop", .aToB, .tcpRaw, 2, [97, 103, 32, 102, 108, 97, 103, 115]⟩

theorem scanBounded_keys_shopRecord :
    ∃ set, CompiledPatternSet.compile wordEngines separatePatterns = some set ∧
      (set.scan wordEngines shopRecord [102, 108] false).length = 3 ∧
      DistinctKeys (set.scanBounded wordEngines shopRecord [102, 108] false {}).out := by
  have hsome : (CompiledPatternSet.compile wordEngines separatePatterns).isSome := by
    decide +kernel
  refine ⟨(CompiledPatternSet.compile wordEngines separatePatterns).get hsome, by simp,
    by decide +revert +kernel, ?_⟩
  exact (CompiledPatternSet.scanBounded_keys wordEngines wordEngines_leftToRight
    separatePatterns (by unfold DistinctPatterns; decide +kernel) _ (by simp) shopRecord
    [102, 108] {}).1 false

end Bazalt.Matching
