import Bazalt.Matching.Worker

/-!
# The scopes of patterns

The groups of a record hold the patterns that are in scope of it, each of them once.  The
interest mask has the views of the groups.
-/

namespace Bazalt.Matching

open Lib

namespace CompiledGroup

variable {E : Engines}

/-- The patterns that are compiled into a group. -/
def patterns (g : CompiledGroup) : Multiset PatternRevision := ↑(g.literalMeta ++ g.regexMeta)

/-- A pattern that is compiled is a literal or a regular expression. -/
theorem isSome_literal_of_add {g g' : CompiledGroup} {p : PatternRevision}
    (h : g.add E p = some g') : (literal? E p).isSome = !(p.kind == .regex) := by
  unfold add at h
  unfold literal?
  cases hkind : p.kind with
  | text => rfl
  | binary =>
      simp only [hkind, Option.map_eq_some_iff] at h
      obtain ⟨bytes, hdecode, -⟩ := h
      simp only
      rw [hdecode]
      rfl
  | regex => rfl

theorem isSome_literal_of_foldlM {qs : List PatternRevision} :
    ∀ {g g' : CompiledGroup}, qs.foldlM (add E) g = some g' →
      ∀ p ∈ qs, (literal? E p).isSome = !(p.kind == .regex) := by
  induction qs with
  | nil => exact fun _ p hp ↦ by cases hp
  | cons q qs ih =>
      intro g g' h p hp
      rw [List.foldlM_cons, Option.bind_eq_bind, Option.bind_eq_some_iff] at h
      obtain ⟨mid, hadd, hrest⟩ := h
      rcases List.mem_cons.mp hp with rfl | hp
      · exact isSome_literal_of_add hadd
      · exact ih hrest p hp

theorem patterns_compile {qs : List PatternRevision} {g : CompiledGroup}
    (h : compile E qs = some g) : g.patterns = ↑qs := by
  have hgrown := compile_grown h
  have hkinds := isSome_literal_of_foldlM (Option.filter_eq_some_iff.mp h).1
  have hliterals : g.literalMeta = qs.filter fun p ↦ !(p.kind == .regex) := by
    rw [hgrown.literalMeta, List.nil_append, map_snd_literalsOf]
    exact List.filter_congr hkinds
  have hregexes : g.regexMeta = qs.filter fun p ↦ p.kind == .regex := by
    rw [hgrown.regexMeta, List.nil_append]
  rw [patterns, hliterals, hregexes, Multiset.coe_eq_coe]
  exact List.perm_append_comm.trans (List.filter_append_perm _ _)

end CompiledGroup

namespace CompiledPatternSet

variable {E : Engines} {ps : List PatternRevision} {set : CompiledPatternSet}

/-- The patterns of a group, if there is one. -/
def patternsOf (g : Option CompiledGroup) : Multiset PatternRevision :=
  g.elim 0 CompiledGroup.patterns

theorem patternsOf_group (hset : compile E ps = some set) (service : Option String)
    (view : ContentView) :
    patternsOf (set.group service view) = Multiset.filter (Belongs service view) ↑ps := by
  obtain ⟨hcompiled, hexists⟩ := group_spec hset service view
  rw [Multiset.filter_coe]
  cases hgroup : set.group service view with
  | some g => exact CompiledGroup.patterns_compile (hcompiled g hgroup)
  | none =>
      rw [hgroup] at hexists
      have hnone : ps.filter (fun p ↦ decide (Belongs service view p)) = [] := by
        refine List.filter_eq_nil_iff.mpr fun p hp hbelongs ↦ ?_
        have hsome := hexists ⟨p, hp, of_decide_eq_true hbelongs⟩
        cases hsome
      rw [hnone]
      rfl

/-- The groups of a record hold the patterns in its scope. -/
theorem patternsOf_groupsFor (hset : compile E ps = some set) (record : ContentRecord) :
    patternsOf (set.groupsFor record).1 + patternsOf (set.groupsFor record).2 =
      Multiset.filter (InScope · record) ↑ps := by
  have hglobal : patternsOf (set.groupsFor record).1 =
      Multiset.filter (Belongs none record.view) ↑ps := patternsOf_group hset none record.view
  rw [hglobal]
  cases hservice : record.service with
  | none =>
      have hempty : (set.groupsFor record).2 = none := by
        rw [groupsFor, hservice]
        rfl
      rw [hempty]
      refine (add_zero _).trans (Multiset.filter_congr fun p _ ↦ ?_)
      rw [Belongs, InScope, hservice, or_self]
  | some name =>
      have hgroup : (set.groupsFor record).2 = set.group (some name) record.view := by
        rw [groupsFor, hservice]
        rfl
      rw [hgroup, patternsOf_group hset, Multiset.filter_add_filter]
      have hnone : Multiset.filter (fun p ↦ Belongs none record.view p ∧
          Belongs (some name) record.view p) (↑ps : Multiset PatternRevision) = 0 := by
        refine Multiset.filter_eq_nil.mpr fun p _ hboth ↦ ?_
        cases hboth.1.2.1.symm.trans hboth.2.2.1
      rw [hnone, add_zero]
      refine Multiset.filter_congr fun p _ ↦ ?_
      rw [Belongs, Belongs, InScope, hservice]
      tauto

theorem lookup_isSome_of_mem_keys {κ β : Type} [BEq κ] [LawfulBEq κ] {l : List (κ × β)} {k : κ}
    (h : k ∈ l.map Prod.fst) : (l.lookup k).isSome := by
  obtain ⟨e, he, rfl⟩ := List.mem_map.mp h
  exact List.lookup_isSome_iff.mpr ⟨e, he, beq_self_eq_true _⟩

/-- The views of the interest mask. -/
theorem interestMask_iff (set : CompiledPatternSet) (view : ContentView) :
    set.interestMask &&& contentViewBit view ≠ 0 ↔
      ∃ service, (set.group service view).isSome := by
  rw [interestMask, and_foldl_viewBit, List.mem_append]
  constructor
  · rintro (hzero | hglobal | hservice)
    · simp at hzero
    · exact ⟨none, lookup_isSome_of_mem_keys hglobal⟩
    · obtain ⟨e, he, rfl⟩ := List.mem_map.mp hservice
      exact ⟨some e.1.1, lookup_isSome_of_mem_keys (List.mem_map.mpr ⟨e, he, rfl⟩)⟩
  · rintro ⟨service, hgroup⟩
    cases service with
    | none => exact .inr (.inl (mem_keys_of_lookup hgroup))
    | some name =>
        obtain ⟨e, he, heq⟩ := List.mem_map.mp (mem_keys_of_lookup hgroup)
        exact .inr (.inr (List.mem_map.mpr ⟨e, he, by rw [heq]⟩))

theorem isInterested_iff (set : CompiledPatternSet) (record : ContentRecord) :
    set.isInterested record = true ↔ ∃ service, (service = none ∨ service = record.service) ∧
      (set.group service record.view).isSome := by
  rw [isInterested, Bool.or_eq_true]
  constructor
  · rintro (hglobal | hservice)
    · exact ⟨none, .inl rfl, hglobal⟩
    · cases hname : record.service with
      | none =>
          rw [groupsFor, hname] at hservice
          cases hservice
      | some name =>
          rw [groupsFor, hname] at hservice
          exact ⟨some name, .inr rfl, hservice⟩
  · rintro ⟨service, hscope, hgroup⟩
    cases service with
    | none => exact .inl hgroup
    | some name =>
        have hname := hscope.resolve_left (Option.some_ne_none name)
        rw [groupsFor, ← hname]
        exact .inr hgroup

/-- The groups of a record, the interest mask and the check of the ingress say the same. -/
theorem groupsFor_partition (E : Engines) (ps : List PatternRevision) (set : CompiledPatternSet)
    (hset : compile E ps = some set) :
    (∀ record, patternsOf (set.groupsFor record).1 + patternsOf (set.groupsFor record).2 =
      Multiset.filter (fun p ↦ p.enabled = true ∧
        (p.service = none ∨ p.service = record.service) ∧ record.view ∈ viewsForPattern p) ↑ps) ∧
    (∀ view, set.interestMask &&& contentViewBit view ≠ 0 ↔
      ∃ record, record.view = view ∧ set.isInterested record = true) ∧
    ∀ m : MatcherIngress, m.active = set → m.interestMask = set.interestMask →
      ∀ record, set.isInterested record = true →
        m.prepareContent record = some ⟨record, set, m.generation⟩ := by
  refine ⟨patternsOf_groupsFor hset, fun view ↦ ?_, fun m hactive hmask record hinterested ↦ ?_⟩
  · rw [interestMask_iff]
    constructor
    · rintro ⟨service, hgroup⟩
      exact ⟨⟨0, 0, 0, service, .aToB, view, 0, []⟩, rfl,
        (isInterested_iff set _).mpr ⟨service, .inr rfl, hgroup⟩⟩
    · rintro ⟨record, rfl, hinterested⟩
      obtain ⟨service, -, hgroup⟩ := (isInterested_iff set record).mp hinterested
      exact ⟨service, hgroup⟩
  · subst hactive
    rw [MatcherIngress.prepareContent_eq hmask, if_pos hinterested]

end CompiledPatternSet

/-- A pattern of every service beside patterns of one. -/
def mixedPatterns : List PatternRevision :=
  [{ id := 1, revision := 1, expression := "flag", kind := .text },
    { id := 2, revision := 1, expression := "token", kind := .text, service := some "shop" },
    { id := 3, revision := 1, expression := "id", kind := .text, service := some "shop"
      directionType := .input }]

theorem groupsFor_partition_mixedPatterns :
    ∃ set, CompiledPatternSet.compile referenceEngines mixedPatterns = some set ∧
      ∀ view, set.interestMask &&& contentViewBit view ≠ 0 ↔
        ∃ record, record.view = view ∧ set.isInterested record = true := by
  have hsome : (CompiledPatternSet.compile referenceEngines mixedPatterns).isSome := by
    decide +kernel
  exact ⟨(CompiledPatternSet.compile referenceEngines mixedPatterns).get hsome, by simp,
    (CompiledPatternSet.groupsFor_partition referenceEngines mixedPatterns _ (by simp)).2.1⟩

end Bazalt.Matching
