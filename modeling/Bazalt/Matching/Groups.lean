import Bazalt.Matching.Patterns

/-!
# Groups and unlimited scans

What compilation puts into the group of a service and a view, and what a scan without
bounds returns.
-/

namespace Bazalt.Matching

open Lib

/-- The bytes of a text or binary pattern. -/
def literal? (E : Engines) (p : PatternRevision) : Option Bytes :=
  match p.kind with
  | .text => some p.expression.toUTF8.data.toList
  | .binary => decodeBinary E p.expression
  | .regex => none

/-- The pattern belongs to the group of the service and the view. -/
def Belongs (service : Option String) (view : ContentView) (p : PatternRevision) : Prop :=
  p.enabled = true ∧ p.service = service ∧ view ∈ viewsForPattern p

instance (service : Option String) (view : ContentView) :
    DecidablePred (Belongs service view) :=
  fun _ ↦ inferInstanceAs (Decidable (_ ∧ _ ∧ _))

/-! ## One group -/

namespace CompiledGroup

variable {E : Engines}

/-- The literals of a list of patterns, each with its pattern. -/
def literalsOf (E : Engines) (ps : List PatternRevision) : List (Bytes × PatternRevision) :=
  ps.filterMap fun p ↦ (literal? E p).map (·, p)

theorem mem_literalsOf {ps : List PatternRevision} {bytes : Bytes} {p : PatternRevision} :
    (bytes, p) ∈ literalsOf E ps ↔ p ∈ ps ∧ literal? E p = some bytes := by
  simp only [literalsOf, List.mem_filterMap, Option.map_eq_some_iff, Prod.mk.injEq]
  constructor
  · rintro ⟨q, hq, b, hb, rfl, rfl⟩
    exact ⟨hq, hb⟩
  · rintro ⟨hp, hb⟩
    exact ⟨p, hp, bytes, hb, rfl, rfl⟩

theorem map_snd_literalsOf (ps : List PatternRevision) :
    (literalsOf E ps).map Prod.snd = ps.filter fun p ↦ (literal? E p).isSome := by
  induction ps with
  | nil => rfl
  | cons p ps ih =>
      rw [literalsOf, List.filterMap_cons, List.filter_cons]
      cases hlit : literal? E p with
      | none => simpa [hlit, literalsOf] using ih
      | some bytes => simpa [hlit, literalsOf] using ih

/-- `g'` is `g` with the patterns `ps` added. -/
structure Grown (E : Engines) (g g' : CompiledGroup) (ps : List PatternRevision) : Prop where
  literals : g'.literals = g.literals ++ (literalsOf E ps).map Prod.fst
  literalMeta : g'.literalMeta = g.literalMeta ++ (literalsOf E ps).map Prod.snd
  regexMeta : g'.regexMeta = g.regexMeta ++ ps.filter fun p ↦ p.kind == .regex

theorem add_grown {g g' : CompiledGroup} {p : PatternRevision} (h : g.add E p = some g') :
    Grown E g g' [p] := by
  unfold add at h
  cases hk : p.kind with
  | text =>
      simp only [hk, Option.some.injEq] at h
      subst h
      have hlit : literal? E p = some p.expression.toUTF8.data.toList := by simp [literal?, hk]
      exact ⟨by simp [literalsOf, hlit, addLiteral], by simp [literalsOf, hlit, addLiteral],
        by simp [addLiteral, hk]⟩
  | binary =>
      simp only [hk, Option.map_eq_some_iff] at h
      obtain ⟨bytes, hdec, rfl⟩ := h
      have hlit : literal? E p = some bytes := by simp [literal?, hk, hdec]
      exact ⟨by simp [literalsOf, hlit, addLiteral], by simp [literalsOf, hlit, addLiteral],
        by simp [addLiteral, hk]⟩
  | regex =>
      simp only [hk, Option.some.injEq] at h
      subst h
      have hlit : literal? E p = none := by simp [literal?, hk]
      exact ⟨by simp [literalsOf, hlit], by simp [literalsOf, hlit], by simp [hk]⟩

theorem Grown.cons {g g' g'' : CompiledGroup} {p : PatternRevision}
    {ps : List PatternRevision} (h : Grown E g g' [p]) (h' : Grown E g' g'' ps) :
    Grown E g g'' (p :: ps) := by
  have hsplit : literalsOf E (p :: ps) = literalsOf E [p] ++ literalsOf E ps := by
    rw [← List.singleton_append, literalsOf, List.filterMap_append]
    rfl
  refine ⟨?_, ?_, ?_⟩
  · rw [h'.literals, h.literals, hsplit, List.map_append, List.append_assoc]
  · rw [h'.literalMeta, h.literalMeta, hsplit, List.map_append, List.append_assoc]
  · rw [h'.regexMeta, h.regexMeta, List.append_assoc, ← List.filter_append,
      List.singleton_append]

theorem foldlM_add_grown (ps : List PatternRevision) : ∀ {g g' : CompiledGroup},
    ps.foldlM (add E) g = some g' → Grown E g g' ps := by
  induction ps with
  | nil =>
      intro g g' h
      obtain rfl : g = g' := by simpa using h
      exact ⟨by simp [literalsOf], by simp [literalsOf], by simp⟩
  | cons p ps ih =>
      intro g g' h
      rw [List.foldlM_cons, Option.bind_eq_bind, Option.bind_eq_some_iff] at h
      obtain ⟨g₁, h₁, h₂⟩ := h
      exact (add_grown h₁).cons (ih h₂)

theorem compile_grown {ps : List PatternRevision} {g : CompiledGroup}
    (h : compile E ps = some g) : Grown E {} g ps :=
  foldlM_add_grown ps (Option.filter_eq_some_iff.mp h).1

end CompiledGroup

/-! ## Buckets -/

section buckets

variable {κ : Type} [DecidableEq κ] [BEq κ] [LawfulBEq κ]

theorem Buckets.lookup_push (b : Buckets κ) (k k' : κ) (p : PatternRevision) :
    ((b.push k p).lookup k').getD [] =
      (b.lookup k').getD [] ++ if k' = k then [p] else [] := by
  induction b with
  | nil =>
      by_cases hk : k' = k
      · simp [push, hk]
      · simp [push, hk, List.lookup_cons, beq_eq_false_iff_ne.mpr hk]
  | cons e rest ih =>
      obtain ⟨k₀, ps⟩ := e
      rw [push]
      by_cases hk₀ : k₀ = k
      · subst hk₀
        by_cases hk : k' = k₀
        · simp [hk]
        · simp [hk, List.lookup_cons, beq_eq_false_iff_ne.mpr hk]
      · rw [if_neg hk₀]
        by_cases hk : k' = k₀
        · subst hk
          simp [hk₀]
        · simp only [List.lookup_cons, beq_eq_false_iff_ne.mpr hk]
          exact ih

end buckets

namespace CompiledPatternSet

variable {E : Engines}

/-- The bucket of a service, or of the global patterns, and a view. -/
def Sorted.bucket (b : Sorted) (service : Option String) (view : ContentView) :
    List PatternRevision :=
  match service with
  | none => (b.globalBuckets.lookup view).getD []
  | some name => (b.serviceBuckets.lookup (name, view)).getD []

theorem Sorted.bucket_push (b : Sorted) (p : PatternRevision) (view : ContentView)
    (service : Option String) (view' : ContentView) :
    (b.push p view).bucket service view' =
      b.bucket service view' ++ if p.service = service ∧ view' = view then [p] else [] := by
  unfold push bucket
  cases hp : p.service with
  | none =>
      cases service with
      | none => simpa using Buckets.lookup_push b.globalBuckets view view' p
      | some name => simp
  | some name' =>
      cases service with
      | none => simp
      | some name =>
          have hpush := Buckets.lookup_push b.serviceBuckets (name', view) (name, view') p
          simpa [Prod.mk.injEq, eq_comm] using hpush

theorem viewsForPattern_nodup (p : PatternRevision) : (viewsForPattern p).Nodup := by
  unfold viewsForPattern
  split
  · simp only
    split_ifs <;> simp
  · split <;> decide

theorem bucket_foldl_push (p : PatternRevision) (service : Option String)
    (view : ContentView) : ∀ (views : List ContentView) (b : Sorted), views.Nodup →
    (views.foldl (fun b v ↦ b.push p v) b).bucket service view =
      b.bucket service view ++ if p.service = service ∧ view ∈ views then [p] else [] := by
  intro views
  induction views with
  | nil => simp
  | cons v views ih =>
      intro b hnd
      obtain ⟨hv, hnd⟩ := List.nodup_cons.mp hnd
      rw [List.foldl_cons, ih _ hnd, Sorted.bucket_push, List.append_assoc]
      congr 1
      by_cases hs : p.service = service
      · by_cases heq : view = v
        · subst heq
          simp [hs, hv]
        · simp [hs, heq]
      · simp [hs]

theorem sort_bucket (ps : List PatternRevision) (service : Option String)
    (view : ContentView) :
    (sort ps).bucket service view = ps.filter fun p ↦ decide (Belongs service view p) := by
  have hfold : ∀ (l : List PatternRevision) (b : Sorted),
      (l.foldl (fun b p ↦ (viewsForPattern p).foldl (fun b v ↦ b.push p v) b) b).bucket service
          view = b.bucket service view ++
        l.filter fun p ↦ decide (p.service = service ∧ view ∈ viewsForPattern p) := by
    intro l
    induction l with
    | nil => simp
    | cons p l ih =>
        intro b
        rw [List.foldl_cons, ih, bucket_foldl_push p service view _ b (viewsForPattern_nodup p),
          List.append_assoc, List.filter_cons]
        congr 1
        by_cases h : p.service = service ∧ view ∈ viewsForPattern p
        · simp [h]
        · simp [h]
  have hempty : ({} : Sorted).bucket service view = [] := by
    cases service <;> rfl
  rw [sort, hfold, hempty, List.nil_append, List.filter_filter]
  refine List.filter_congr fun p _ ↦ ?_
  rw [Bool.eq_iff_iff, Bool.and_eq_true, decide_eq_true_iff, decide_eq_true_iff]
  exact and_comm

/-- The group of a service, or of the global patterns, and a view. -/
def group (set : CompiledPatternSet) (service : Option String) (view : ContentView) :
    Option CompiledGroup :=
  match service with
  | none => set.globalGroups.lookup view
  | some name => set.serviceGroups.lookup (name, view)

theorem lookup_compileBuckets {κ : Type} [BEq κ] [LawfulBEq κ] (k : κ) :
    ∀ {b : Buckets κ} {gs : List (κ × CompiledGroup)}, compileBuckets E b = some gs →
      (b.lookup k).bind (CompiledGroup.compile E) = gs.lookup k ∧
        (b.lookup k = none ↔ gs.lookup k = none) := by
  intro b
  induction b with
  | nil =>
      intro gs h
      obtain rfl : [] = gs := by simpa [compileBuckets] using h
      simp
  | cons e rest ih =>
      intro gs h
      obtain ⟨k₀, ps⟩ := e
      rw [compileBuckets, List.mapM_cons] at h
      simp only [Option.bind_eq_bind, Option.pure_def, Option.bind_eq_some_iff,
        Option.map_eq_some_iff] at h
      obtain ⟨_, ⟨g, hg, rfl⟩, gs', hgs', heq⟩ := h
      obtain rfl := Option.some.inj heq
      by_cases hk : k = k₀
      · subst hk
        simp [hg]
      · simp only [List.lookup_cons, beq_eq_false_iff_ne.mpr hk]
        exact ih hgs'

/-- The group of a service and a view is compiled from the patterns that belong there. -/
theorem group_spec {ps : List PatternRevision} {set : CompiledPatternSet}
    (h : compile E ps = some set) (service : Option String) (view : ContentView) :
    (∀ g, set.group service view = some g →
      CompiledGroup.compile E (ps.filter fun p ↦ decide (Belongs service view p)) = some g) ∧
      ((∃ p ∈ ps, Belongs service view p) → (set.group service view).isSome) := by
  simp only [compile, Option.bind_eq_bind, Option.bind_eq_some_iff] at h
  obtain ⟨gg, hgg, sg, hsg, heq⟩ := h
  obtain rfl := Option.some.inj heq
  have hbucket := sort_bucket ps service view
  have hcore : ∀ {κ : Type} [BEq κ] [LawfulBEq κ] {b : Buckets κ} {gs : List (κ × CompiledGroup)}
      (k : κ), compileBuckets E b = some gs →
      (b.lookup k).getD [] = ps.filter (fun p ↦ decide (Belongs service view p)) →
      (∀ g, gs.lookup k = some g →
        CompiledGroup.compile E (ps.filter fun p ↦ decide (Belongs service view p)) = some g) ∧
        ((∃ p ∈ ps, Belongs service view p) → (gs.lookup k).isSome) := by
    intro κ _ _ b gs k hgs hl
    obtain ⟨hbind, hnone⟩ := lookup_compileBuckets k hgs
    constructor
    · intro g hg
      rw [hg] at hbind
      obtain ⟨l, hl', hg'⟩ := Option.bind_eq_some_iff.mp hbind
      rw [hl', Option.getD_some] at hl
      exact hl ▸ hg'
    · rintro ⟨p, hp, hb⟩
      by_contra hempty
      have hgn := Option.not_isSome_iff_eq_none.mp hempty
      rw [hnone.mpr hgn, Option.getD_none] at hl
      have hmem : p ∈ ps.filter fun p ↦ decide (Belongs service view p) :=
        List.mem_filter.mpr ⟨hp, by simpa using hb⟩
      rw [← hl] at hmem
      exact absurd hmem List.not_mem_nil
  cases service with
  | none => exact hcore view hgg hbucket
  | some name => exact hcore (name, view) hsg hbucket

end CompiledPatternSet

/-! ## Scans without bounds -/

theorem Scan.push_unbounded (s : Scan) (p : PatternRevision) (hit : MatchRecord) :
    (s.push {} p hit).out = s.out ++ [hit] := by
  simp [push, exhausted]

theorem Scan.each_unbounded {M : Type} (keep : M → Option (PatternRevision × MatchRecord))
    (ms : List M) : ∀ s : Scan, (each {} keep ms s).2 = true ∧
      (each {} keep ms s).1.out = s.out ++ (ms.filterMap keep).map Prod.snd := by
  induction ms with
  | nil => simp [each]
  | cons m ms ih =>
      intro s
      rw [each, if_neg (by simp [exhausted])]
      cases hk : keep m with
      | none => simpa [hk] using ih s
      | some e =>
          obtain ⟨p, hit⟩ := e
          have hrest := ih (s.push {} p hit)
          simp only at hrest ⊢
          rw [hrest.2, push_unbounded, List.filterMap_cons_some hk]
          exact ⟨hrest.1, by simp⟩

/-- The hit belongs to the pattern revision. -/
def MatchRecord.IsFor (hit : MatchRecord) (p : PatternRevision) : Prop :=
  hit.patternId = p.id ∧ hit.patternRevision = p.revision

namespace CompiledGroup

variable (E : Engines) (g : CompiledGroup) (record : ContentRecord) (tail : Bytes)
  (historical : Bool)

/-- The literal hits in the bytes of the record itself. -/
def dataHits : List MatchRecord :=
  ((E.acFindIter g.literals record.data).filterMap (g.keepData record historical)).map Prod.snd

theorem mem_dataHits {E g record historical} {hit : MatchRecord} :
    hit ∈ dataHits E g record historical ↔
    ∃ m ∈ E.acFindIter g.literals record.data, ∃ p, g.literalMeta[m.word]? = some p ∧
      hit = matchRecord p record (record.streamOffset + m.start)
        (record.streamOffset + m.finish) historical := by
  simp only [dataHits, List.mem_map, List.mem_filterMap, keepData, Option.map_eq_some_iff]
  constructor
  · rintro ⟨-, ⟨m, hm, p, hp, rfl⟩, rfl⟩
    exact ⟨m, hm, p, hp, rfl⟩
  · rintro ⟨m, hm, p, hp, rfl⟩
    exact ⟨_, ⟨m, hm, p, hp, rfl⟩, rfl⟩

/-- The literal hits over the start of the record. -/
def bridgeHits : List MatchRecord :=
  if !tail.isEmpty && decide (1 < g.maxLiteralLen) then
    let literalPrefix := tail.drop (tail.length - (g.maxLiteralLen - 1))
    ((E.acFindIter g.literals (literalPrefix ++
        record.data.take (min (g.maxLiteralLen - 1) record.data.length))).filterMap
      (g.keepBridge record historical (record.streamOffset - literalPrefix.length))).map Prod.snd
  else []

theorem of_mem_bridgeHits {E g record tail historical} {hit : MatchRecord}
    (h : hit ∈ bridgeHits E g record tail historical) :
    tail ≠ [] ∧ ∃ p start finish, start < record.streamOffset ∧ record.streamOffset < finish ∧
      hit = matchRecord p record start finish historical := by
  unfold bridgeHits at h
  simp only at h
  split_ifs at h with hcond
  · obtain ⟨⟨p, hit'⟩, hmem, rfl⟩ := List.mem_map.mp h
    obtain ⟨m, -, hkeep⟩ := List.mem_filterMap.mp hmem
    obtain ⟨q, -, hq⟩ := Option.bind_eq_some_iff.mp hkeep
    simp only at hq
    split_ifs at hq with hcross
    cases hq
    refine ⟨?_, _, _, _, hcross.1, hcross.2, rfl⟩
    rintro rfl
    simp at hcond
  · cases h

theorem start_lt_of_mem_bridgeHits {E g record tail historical} {hit : MatchRecord}
    (h : hit ∈ bridgeHits E g record tail historical) : hit.offsetStart < record.streamOffset := by
  obtain ⟨-, p, start, finish, hlt, -, rfl⟩ := of_mem_bridgeHits h
  exact hlt

theorem scanBridge_unbounded (s : Scan) :
    (g.scanBridge E {} record tail historical s).2 = true ∧
      (g.scanBridge E {} record tail historical s).1.out =
        s.out ++ bridgeHits E g record tail historical := by
  unfold scanBridge bridgeHits
  simp only
  split_ifs
  · exact Scan.each_unbounded _ _ s
  · exact ⟨rfl, by simp⟩

/-- All literal hits. -/
def literalHits : List MatchRecord :=
  if g.literals.isEmpty then []
  else bridgeHits E g record tail historical ++ dataHits E g record historical

theorem scanLiterals_unbounded (s : Scan) :
    (g.scanLiterals E {} record tail historical s).2 = true ∧
      (g.scanLiterals E {} record tail historical s).1.out =
        s.out ++ literalHits E g record tail historical := by
  unfold scanLiterals literalHits
  split_ifs with hempty
  · exact ⟨rfl, by simp⟩
  · obtain ⟨hgo, hout⟩ := scanBridge_unbounded E g record tail historical s
    generalize g.scanBridge E {} record tail historical s = r at hgo hout ⊢
    obtain ⟨s', go⟩ := r
    simp only at hgo hout
    subst hgo
    obtain ⟨hgo', hout'⟩ := Scan.each_unbounded (g.keepData record historical)
      (E.acFindIter g.literals record.data) s'
    refine ⟨hgo', ?_⟩
    rw [← List.append_assoc, ← hout]
    exact hout'

theorem scanRegexes_unbounded (combined : Bytes) (base : ℕ) (boundary : Option ℕ)
    (res : List (String × PatternRevision)) : ∀ s : Scan,
    ∃ hits, (scanRegexes E {} record historical combined base boundary res s).out =
        s.out ++ hits ∧ ∀ hit ∈ hits, ∃ e ∈ res, hit.IsFor e.2 := by
  induction res with
  | nil => exact fun s ↦ ⟨[], by simp [scanRegexes], by simp⟩
  | cons e res ih =>
      intro s
      obtain ⟨re, p⟩ := e
      obtain ⟨hgo, hout⟩ := Scan.each_unbounded (keepRegex record historical base boundary p)
        (E.regexFindIter re combined) s
      rw [scanRegexes, if_neg (by simp [Scan.exhausted])]
      generalize Scan.each {} (keepRegex record historical base boundary p)
        (E.regexFindIter re combined) s = r at hgo hout ⊢
      obtain ⟨s', go⟩ := r
      simp only at hgo hout
      subst hgo
      obtain ⟨hits, hrest, hfor⟩ := ih s'
      rw [hout, List.append_assoc] at hrest
      refine ⟨_, hrest, fun hit hmem ↦ ?_⟩
      rcases List.mem_append.mp hmem with hmem | hmem
      · simp only [List.mem_map, List.mem_filterMap] at hmem
        obtain ⟨⟨q, hit'⟩, ⟨m, -, hkeep⟩, rfl⟩ := hmem
        refine ⟨(re, p), List.mem_cons_self, ?_⟩
        unfold keepRegex at hkeep
        split_ifs at hkeep
        cases hkeep
        exact ⟨rfl, rfl⟩
      · obtain ⟨e, he, hhit⟩ := hfor hit hmem
        exact ⟨e, List.mem_cons_of_mem _ he, hhit⟩

/-- Without bounds a group adds its literal hits and hits of its regular expressions. -/
theorem scanInto_unbounded (s : Scan) : ∃ regex,
    (g.scanInto E {} record tail historical s).out =
        s.out ++ literalHits E g record tail historical ++ regex ∧
      ∀ hit ∈ regex, ∃ p ∈ g.regexMeta, hit.IsFor p := by
  obtain ⟨hgo, hout⟩ := scanLiterals_unbounded E g record tail historical s
  unfold scanInto
  generalize g.scanLiterals E {} record tail historical s = r at hgo hout ⊢
  obtain ⟨s', go⟩ := r
  simp only at hgo hout
  subst hgo
  simp only
  by_cases hre : g.regexes.isEmpty
  · rw [if_pos hre]
    exact ⟨[], by rw [List.append_nil, hout], by simp⟩
  · obtain ⟨regex, hscan, hfor⟩ := scanRegexes_unbounded E record historical (tail ++ record.data)
      (record.streamOffset - tail.length) (if tail.isEmpty then none else some record.streamOffset)
      ((g.regexes.zip g.regexMeta).filter fun e ↦ E.regexIsMatch e.1 (tail ++ record.data)) s'
    rw [if_neg hre, if_neg (by simp [Scan.exhausted])]
    refine ⟨regex, by rw [hscan, hout], fun hit hmem ↦ ?_⟩
    obtain ⟨e, he, hhit⟩ := hfor hit hmem
    exact ⟨e.2, (List.of_mem_zip (List.mem_filter.mp he).1).2, hhit⟩

theorem mem_scanInto {E g record tail historical} {s : Scan} {hit : MatchRecord}
    (h : hit ∈ (g.scanInto E {} record tail historical s).out) :
    hit ∈ s.out ∨ hit ∈ bridgeHits E g record tail historical ∨
      hit ∈ dataHits E g record historical ∨ ∃ p ∈ g.regexMeta, hit.IsFor p := by
  obtain ⟨regex, hout, hregex⟩ := scanInto_unbounded E g record tail historical s
  rw [hout, literalHits] at h
  simp only [List.mem_append] at h
  rcases h with (h | h) | h
  · exact .inl h
  · split_ifs at h
    · cases h
    · rcases List.mem_append.mp h with h | h
      · exact .inr (.inl h)
      · exact .inr (.inr (.inl h))
  · exact .inr (.inr (.inr (hregex hit h)))

theorem mem_scanInto_of_mem {E g record historical} (tail : Bytes) {s : Scan}
    {hit : MatchRecord}
    (h : hit ∈ s.out ∨ hit ∈ literalHits E g record tail historical) :
    hit ∈ (g.scanInto E {} record tail historical s).out := by
  obtain ⟨regex, hout, -⟩ := scanInto_unbounded E g record tail historical s
  rw [hout]
  simp only [List.mem_append]
  rcases h with h | h
  · exact .inl (.inl h)
  · exact .inl (.inr h)

theorem dataHits_subset_literalHits (hne : g.literals ≠ []) :
    dataHits E g record historical ⊆ literalHits E g record tail historical := by
  rw [literalHits, if_neg (by simpa using hne)]
  exact List.subset_append_right _ _

theorem bridgeHits_subset_literalHits (hne : g.literals ≠ []) :
    bridgeHits E g record tail historical ⊆ literalHits E g record tail historical := by
  rw [literalHits, if_neg (by simpa using hne)]
  exact List.subset_append_left _ _

end CompiledGroup

end Bazalt.Matching
