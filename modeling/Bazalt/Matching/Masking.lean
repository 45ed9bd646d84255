import Bazalt.Matching.Groups

/-!
# No pattern masks another

Whether a literal pattern is reported for a record that contains it depends on the other
literals of its group: they share one automaton, and its matches do not overlap.  Every
pattern is reported whenever it occurs exactly when no two literals of a group overlap.
-/

namespace Bazalt.Matching

open Lib

/-- The record is scanned for the pattern. -/
def InScope (p : PatternRevision) (record : ContentRecord) : Prop :=
  p.enabled = true ∧ (p.service = none ∨ p.service = record.service) ∧
    record.view ∈ viewsForPattern p

instance (p : PatternRevision) (record : ContentRecord) : Decidable (InScope p record) :=
  inferInstanceAs (Decidable (_ ∧ _ ∧ _))

/-- Some hit for the pattern lies in the record. -/
def Reported (hits : List MatchRecord) (p : PatternRevision) (record : ContentRecord) : Prop :=
  ∃ hit ∈ hits, hit.IsFor p ∧ record.streamOffset ≤ hit.offsetStart ∧
    hit.offsetEnd ≤ record.streamOffset + record.data.length

/-- A text or binary pattern whose bytes occur in a record in its scope is reported. -/
def NoneMasked (E : Engines) (ps : List PatternRevision) (set : CompiledPatternSet) : Prop :=
  ∀ record tail historical, ∀ p ∈ ps, InScope p record →
    ∀ bytes, literal? E p = some bytes → bytes <:+: record.data →
      Reported (set.scan E record tail historical) p record

/-- No two literals that share a group overlap. -/
def LiteralsApart (E : Engines) (ps : List PatternRevision) : Prop :=
  ∀ p ∈ ps, ∀ q ∈ ps, p ≠ q → p.enabled = true → q.enabled = true → p.service = q.service →
    (∃ view ∈ viewsForPattern p, view ∈ viewsForPattern q) →
    ∀ a, literal? E p = some a → ∀ b, literal? E q = some b → ¬ Overlap a b

/-- The rows of the pattern table: keyed by identifier and revision, and without an empty
expression. -/
structure Table (ps : List PatternRevision) : Prop where
  keys : ps.Pairwise fun p q ↦ ¬ (p.id = q.id ∧ p.revision = q.revision)
  expressions : ∀ p ∈ ps, p.expression ≠ ""

theorem Table.eq_of_key {ps : List PatternRevision} (ht : Table ps) {p q : PatternRevision}
    (hp : p ∈ ps) (hq : q ∈ ps) (hid : p.id = q.id) (hrev : p.revision = q.revision) :
    p = q := by
  let Differ (p q : PatternRevision) : Prop := ¬ (p.id = q.id ∧ p.revision = q.revision)
  have : Std.Symm Differ := ⟨fun _ _ h h' ↦ h ⟨h'.1.symm, h'.2.symm⟩⟩
  by_contra hne
  exact (show ps.Pairwise Differ from ht.keys).forall hp hq hne ⟨hid, hrev⟩

theorem Table.nodup {ps : List PatternRevision} (ht : Table ps) : ps.Nodup :=
  ht.keys.imp fun h heq ↦ h ⟨congrArg _ heq, congrArg _ heq⟩

theorem Table.literal_ne_nil {E : Engines} {ps : List PatternRevision} (ht : Table ps)
    {p : PatternRevision} (hp : p ∈ ps) {bytes : Bytes} (hb : literal? E p = some bytes) :
    bytes ≠ [] := by
  unfold literal? at hb
  split at hb
  · obtain rfl := Option.some.inj hb
    intro hnil
    refine ht.expressions p hp (String.utf8ByteSize_eq_zero_iff.mp ?_)
    have hlen := congrArg List.length hnil
    simpa using hlen
  · have := (Option.filter_eq_some_iff.mp hb).2
    simpa using this
  · cases hb

namespace CompiledPatternSet

variable {E : Engines} {ps : List PatternRevision} {set : CompiledPatternSet}

/-- What stands at an index of the automaton of a group. -/
theorem literal_at {service : Option String} {view : ContentView} {g : CompiledGroup}
    (hg : CompiledGroup.Grown E {} g (ps.filter fun p ↦ decide (Belongs service view p)))
    {i : ℕ} {p : PatternRevision} (hp : g.literalMeta[i]? = some p) :
    ∃ bytes, g.literals[i]? = some bytes ∧ literal? E p = some bytes ∧ p ∈ ps ∧
      Belongs service view p := by
  have hmeta := hg.literalMeta
  have hlits := hg.literals
  rw [List.nil_append] at hmeta hlits
  rw [hmeta, List.getElem?_map, Option.map_eq_some_iff] at hp
  obtain ⟨⟨bytes, p'⟩, he, rfl⟩ := hp
  obtain ⟨hmem, hbytes⟩ := CompiledGroup.mem_literalsOf.mp (List.mem_of_getElem? he)
  obtain ⟨hp, hb⟩ := List.mem_filter.mp hmem
  refine ⟨bytes, ?_, hbytes, hp, by simpa using hb⟩
  rw [hlits, List.getElem?_map, he, Option.map_some]

/-- A literal pattern that belongs to a group has an index in its automaton. -/
theorem exists_literal_at {service : Option String} {view : ContentView} {g : CompiledGroup}
    (hg : CompiledGroup.Grown E {} g (ps.filter fun p ↦ decide (Belongs service view p)))
    {p : PatternRevision} {bytes : Bytes} (hp : p ∈ ps) (hb : Belongs service view p)
    (hlit : literal? E p = some bytes) :
    ∃ i : ℕ, g.literalMeta[i]? = some p ∧ g.literals[i]? = some bytes := by
  have hmem : (bytes, p) ∈ CompiledGroup.literalsOf E
      (ps.filter fun p ↦ decide (Belongs service view p)) :=
    CompiledGroup.mem_literalsOf.mpr ⟨List.mem_filter.mpr ⟨hp, by simpa using hb⟩, hlit⟩
  obtain ⟨i, hi⟩ := List.mem_iff_getElem?.mp hmem
  refine ⟨i, ?_, ?_⟩
  · rw [hg.literalMeta, List.nil_append, List.getElem?_map, hi, Option.map_some]
  · rw [hg.literals, List.nil_append, List.getElem?_map, hi, Option.map_some]

theorem literalMeta_nodup (ht : Table ps) {service : Option String} {view : ContentView}
    {g : CompiledGroup}
    (hg : CompiledGroup.Grown E {} g (ps.filter fun p ↦ decide (Belongs service view p))) :
    g.literalMeta.Nodup := by
  rw [hg.literalMeta, List.nil_append]
  rw [CompiledGroup.map_snd_literalsOf]
  exact (ht.nodup.filter _).filter _

/-- The literals of a group are not empty, so its automaton behaves as documented. -/
theorem literals_ne_nil (ht : Table ps) {service : Option String} {view : ContentView}
    {g : CompiledGroup}
    (hg : CompiledGroup.Grown E {} g (ps.filter fun p ↦ decide (Belongs service view p))) :
    ∀ w ∈ g.literals, w ≠ [] := by
  intro w hw
  rw [hg.literals, List.nil_append, List.mem_map] at hw
  obtain ⟨⟨bytes, p⟩, he, rfl⟩ := hw
  obtain ⟨hmem, hbytes⟩ := CompiledGroup.mem_literalsOf.mp he
  exact ht.literal_ne_nil (List.mem_filter.mp hmem).1 hbytes

/-- The groups that scan a record. -/
def Scans (set : CompiledPatternSet) (record : ContentRecord) (service : Option String)
    (g : CompiledGroup) : Prop :=
  (service = none ∨ service = record.service) ∧ set.group service record.view = some g

/-- What an unlimited scan returns, group by group. -/
theorem mem_scan {record : ContentRecord} {tail : Bytes} {historical : Bool}
    {hit : MatchRecord} (h : hit ∈ set.scan E record tail historical) :
    ∃ service g, set.Scans record service g ∧
      (hit ∈ CompiledGroup.bridgeHits E g record tail historical ∨
        hit ∈ CompiledGroup.dataHits E g record historical ∨
        ∃ p ∈ g.regexMeta, hit.IsFor p) := by
  have hglobal : ∀ hit ∈ ((set.groupsFor record).1.elim {} fun group ↦
      group.scanInto E {} record tail historical {}).out,
      ∃ service g, set.Scans record service g ∧
        (hit ∈ CompiledGroup.bridgeHits E g record tail historical ∨
          hit ∈ CompiledGroup.dataHits E g record historical ∨ ∃ p ∈ g.regexMeta, hit.IsFor p) := by
    intro hit hmem
    cases hg : (set.groupsFor record).1 with
    | none => simp [hg] at hmem
    | some g =>
        simp only [hg, Option.elim_some] at hmem
        rcases CompiledGroup.mem_scanInto hmem with hmem | hmem
        · cases hmem
        · exact ⟨none, g, ⟨.inl rfl, hg⟩, hmem⟩
  rw [scan, scanBounded_eq] at h
  cases hg : (set.groupsFor record).2 with
  | none =>
      simp only [hg, Option.elim_none] at h
      exact hglobal hit h
  | some g =>
      simp only [hg, Option.elim_some] at h
      rw [if_neg (by simp [Scan.exhausted])] at h
      rcases CompiledGroup.mem_scanInto h with h | h
      · exact hglobal hit h
      · obtain ⟨name, hname, hlook⟩ := Option.bind_eq_some_iff.mp hg
        exact ⟨some name, g, ⟨.inr hname.symm, hlook⟩, h⟩

theorem mem_scan_of_literalHits {record : ContentRecord} {tail : Bytes} {historical : Bool}
    {hit : MatchRecord} {service : Option String} {g : CompiledGroup}
    (hg : set.Scans record service g)
    (h : hit ∈ CompiledGroup.literalHits E g record tail historical) :
    hit ∈ set.scan E record tail historical := by
  rw [scan, scanBounded]
  cases service with
  | none =>
      have hglobal : (set.groupsFor record).1 = some g := hg.2
      have hmem : hit ∈ (g.scanInto E {} record tail historical {}).out :=
        CompiledGroup.mem_scanInto_of_mem tail (.inr h)
      rw [hglobal]
      simp only
      split
      · exact hmem
      · rw [if_neg (by simp [Scan.exhausted])]
        exact CompiledGroup.mem_scanInto_of_mem tail (.inl hmem)
  | some name =>
      have hname : record.service = some name := by simpa [eq_comm] using hg.1
      have hservice : (set.groupsFor record).2 = some g := by
        simp only [groupsFor, hname, Option.bind_some]
        exact hg.2
      rw [hservice]
      simp only
      rw [if_neg (by simp [Scan.exhausted])]
      exact CompiledGroup.mem_scanInto_of_mem tail (.inr h)

/-- A reported literal pattern has a match in the automaton of its own group. -/
theorem hit_of_reported (hset : compile E ps = some set) (ht : Table ps)
    {record : ContentRecord} {tail : Bytes} {historical : Bool} {p : PatternRevision}
    {bytes : Bytes} (hp : p ∈ ps) (hlit : literal? E p = some bytes)
    (h : Reported (set.scan E record tail historical) p record) :
    ∃ g, set.group p.service record.view = some g ∧
      ∃ m ∈ E.acFindIter g.literals record.data, g.literalMeta[m.word]? = some p := by
  obtain ⟨hit, hmem, hfor, hstart, -⟩ := h
  obtain ⟨service, g, hscans, hcase⟩ := mem_scan hmem
  have hgrown := CompiledGroup.compile_grown ((group_spec hset service record.view).1 g hscans.2)
  rcases hcase with hbefore | hdata | ⟨q, hq, hqfor⟩
  · have hlt := CompiledGroup.start_lt_of_mem_bridgeHits hbefore
    omega
  · obtain ⟨m, hm, q, hq, rfl⟩ := CompiledGroup.mem_dataHits.mp hdata
    obtain ⟨-, -, -, hqps, hbel⟩ := literal_at hgrown hq
    obtain rfl := ht.eq_of_key hqps hp hfor.1 hfor.2
    exact ⟨g, hbel.2.1 ▸ hscans.2, m, hm, hq⟩
  · rw [hgrown.regexMeta, List.nil_append] at hq
    obtain ⟨hq, hkind⟩ := List.mem_filter.mp hq
    obtain rfl := ht.eq_of_key (List.mem_filter.mp hq).1 hp (hqfor.1.symm.trans hfor.1)
      (hqfor.2.symm.trans hfor.2)
    simp [literal?, beq_iff_eq.mp hkind] at hlit

theorem noneMasked_of_apart (hE : E.Standard) (ht : Table ps) (hset : compile E ps = some set)
    (hapart : LiteralsApart E ps) : NoneMasked E ps set := by
  intro record tail historical p hp hscope bytes hlit hin
  have hbel : Belongs p.service record.view p := ⟨hscope.1, rfl, hscope.2.2⟩
  obtain ⟨hcomp, hsome⟩ := group_spec hset p.service record.view
  obtain ⟨g, hg⟩ := Option.isSome_iff_exists.mp (hsome ⟨p, hp, hbel⟩)
  have hgrown := CompiledGroup.compile_grown (hcomp g hg)
  have hne := literals_ne_nil ht hgrown
  obtain ⟨i, hi, hbytes⟩ := exists_literal_at hgrown hp hbel hlit
  obtain ⟨next, hnext, hiter⟩ := hE g.literals hne record.data
  obtain ⟨s, hocc⟩ := infix_iff_occursAt.mp hin
  have hno : ∀ j v, j ≠ i → g.literals[j]? = some v → ¬ Overlap bytes v := by
    intro j v hj hv
    obtain ⟨q, hq⟩ : ∃ q, g.literalMeta[j]? = some q := by
      have hlen : g.literalMeta.length = g.literals.length := by
        rw [hgrown.literalMeta, hgrown.literals]
        simp
      rw [List.getElem?_eq_some_iff] at hv
      obtain ⟨hlt, -⟩ := hv
      exact ⟨_, List.getElem?_eq_getElem (hlen ▸ hlt)⟩
    obtain ⟨v', hv', hqlit, hqps, hqbel⟩ := literal_at hgrown hq
    obtain rfl := Option.some.inj (hv.symm.trans hv')
    have hpq : p ≠ q := by
      rintro rfl
      exact hj ((List.getElem?_inj (List.getElem?_eq_some_iff.mp hq).1
        (literalMeta_nodup ht hgrown)).mp (hq.trans hi.symm))
    exact hapart p hp q hqps hpq hscope.1 hqbel.1 hqbel.2.1.symm ⟨_, hbel.2.2, hqbel.2.2⟩
      bytes hlit v hqlit
  obtain ⟨m, hm, hword⟩ := exists_mem_hitsFrom hne hnext hbytes hocc hno _ 0 (Nat.zero_le s)
    (by omega : record.data.length < 0 + (record.data.length + 1))
  have hend := ((hitsFrom_spec hnext _ 0).1 m hm).lt_finish hne
  rw [← hiter] at hm
  have hhit := CompiledGroup.mem_dataHits.mpr
    ⟨m, hm, p, hword ▸ hi, (rfl : _ = matchRecord p record _ _ historical)⟩
  have hliterals : g.literals ≠ [] := by
    rintro hnil
    simp [hnil] at hbytes
  refine ⟨_, mem_scan_of_literalHits ⟨hscope.2.1, hg⟩
    (CompiledGroup.dataHits_subset_literalHits E g record tail historical hliterals hhit),
    ⟨rfl, rfl⟩, ?_, ?_⟩
  · simp [matchRecord]
  · simp only [matchRecord]
    omega

theorem apart_of_noneMasked (hE : E.Standard) (ht : Table ps) (hset : compile E ps = some set)
    (hnone : NoneMasked E ps set) : LiteralsApart E ps := by
  intro p hp q hq hpq hpe hqe hservice ⟨view, hpv, hqv⟩ a ha b hb hover
  obtain ⟨text, hat, hbt, hshort⟩ := exists_short_of_overlap (ht.literal_ne_nil hp ha)
    (ht.literal_ne_nil hq hb) hover
  let record : ContentRecord := ⟨0, 0, 0, p.service, .aToB, view, 0, text⟩
  obtain ⟨g, hg, m, hm, hmp⟩ := hit_of_reported hset ht hp ha
    (hnone record [] false p hp ⟨hpe, .inr rfl, hpv⟩ a ha hat)
  obtain ⟨g', hg', m', hm', hmq⟩ := hit_of_reported hset ht hq hb
    (hnone record [] false q hq ⟨hqe, .inr hservice.symm, hqv⟩ b hb hbt)
  obtain rfl := Option.some.inj (hg.symm.trans (hservice ▸ hg'))
  have hgrown := CompiledGroup.compile_grown ((group_spec hset p.service view).1 g hg)
  have hne := literals_ne_nil ht hgrown
  obtain ⟨next, hnext, hiter⟩ := hE g.literals hne text
  obtain ⟨a', ha', hla, -, -⟩ := literal_at hgrown hmp
  obtain ⟨b', hb', hlb, -, -⟩ := literal_at hgrown hmq
  obtain rfl := Option.some.inj (ha.symm.trans hla)
  obtain rfl := Option.some.inj (hb.symm.trans hlb)
  have hdiff : m.word ≠ m'.word := by
    intro hw
    rw [hw] at hmp
    exact hpq (Option.some.inj (hmp.symm.trans hmq))
  have hroom := length_add_length_le hnext hne (hiter ▸ hm) (hiter ▸ hm') ha' hb' hdiff
  omega

/-- Literals are reported whenever they occur exactly when the literals of each group do
not overlap. -/
theorem noneMasked_iff_literalsApart (E : Engines) (hE : E.Standard)
    (ps : List PatternRevision) (ht : Table ps) (set : CompiledPatternSet)
    (hset : compile E ps = some set) : NoneMasked E ps set ↔ LiteralsApart E ps :=
  ⟨apart_of_noneMasked hE ht hset, noneMasked_of_apart hE ht hset⟩

end CompiledPatternSet

/-! ## Reference engines -/

def hexDigit (c : Char) : Option ℕ :=
  if '0' ≤ c ∧ c ≤ '9' then some (c.toNat - '0'.toNat)
  else if 'a' ≤ c ∧ c ≤ 'f' then some (c.toNat - 'a'.toNat + 10)
  else if 'A' ≤ c ∧ c ≤ 'F' then some (c.toNat - 'A'.toNat + 10)
  else none

def hexBytes : List Char → Option Bytes
  | [] => some []
  | [_] => none
  | hi :: lo :: rest => do
      let h ← hexDigit hi
      let l ← hexDigit lo
      let bytes ← hexBytes rest
      return UInt8.ofNat (16 * h + l) :: bytes

/-- Engines for pattern lists without regular expressions. -/
def referenceEngines : Engines where
  hexDecode v := hexBytes v.toList
  acNew _ := true
  acFindIter words text := hitsFrom (searchFrom words text) (text.length + 1) 0
  regexNew _ := true
  regexSetNew _ := true
  regexIsMatch _ _ := false
  regexFindIter _ _ := []

theorem referenceEngines_standard : referenceEngines.Standard :=
  fun _ hne text ↦ ⟨_, searchFrom_earliest hne text, rfl⟩

instance (hit : MatchRecord) (p : PatternRevision) : Decidable (hit.IsFor p) :=
  inferInstanceAs (Decidable (_ ∧ _))

instance (ps : List PatternRevision) : Decidable (Table ps) :=
  decidable_of_iff (ps.Pairwise (fun p q ↦ ¬ (p.id = q.id ∧ p.revision = q.revision)) ∧
    ∀ p ∈ ps, p.expression ≠ "") ⟨fun h ↦ ⟨h.1, h.2⟩, fun h ↦ ⟨h.keys, h.expressions⟩⟩

instance (E : Engines) (ps : List PatternRevision) : Decidable (LiteralsApart E ps) :=
  inferInstanceAs (Decidable (∀ p ∈ ps, ∀ q ∈ ps, _))

/-- The text `ab` is found first in `abc`, and the search goes on after it. -/
def prefixPatterns : List PatternRevision :=
  [{ id := 1, revision := 1, expression := "ab", kind := .text },
    { id := 2, revision := 1, expression := "abc", kind := .text }]

theorem not_noneMasked_prefixPatterns :
    referenceEngines.Standard ∧ Table prefixPatterns ∧
      ∃ set, CompiledPatternSet.compile referenceEngines prefixPatterns = some set ∧
        ¬ NoneMasked referenceEngines prefixPatterns set := by
  refine ⟨referenceEngines_standard, by decide +kernel,
    (CompiledPatternSet.compile referenceEngines prefixPatterns).get (by decide +kernel),
    by simp, fun hnone ↦ ?_⟩
  have hreported := hnone ⟨3, 4, 0, none, .aToB, .tcpRaw, 0, [97, 98, 99]⟩ [] false
    { id := 2, revision := 1, expression := "abc", kind := .text } (by decide +kernel)
    ⟨rfl, .inl rfl, by decide⟩ [97, 98, 99] (by decide +kernel) (List.infix_refl _)
  obtain ⟨hit, hmem, hfor, -⟩ := hreported
  revert hit
  decide +kernel

def separatePatterns : List PatternRevision :=
  [{ id := 1, revision := 1, expression := "flag", kind := .text },
    { id := 2, revision := 1, expression := "de:ad BE ef", kind := .binary },
    { id := 3, revision := 1, expression := "flags", kind := .text, service := some "shop" }]

theorem noneMasked_separatePatterns :
    ∃ set, CompiledPatternSet.compile referenceEngines separatePatterns = some set ∧
      NoneMasked referenceEngines separatePatterns set := by
  have hsome : (CompiledPatternSet.compile referenceEngines separatePatterns).isSome := by
    decide +kernel
  refine ⟨(CompiledPatternSet.compile referenceEngines separatePatterns).get hsome, by simp, ?_⟩
  exact (CompiledPatternSet.noneMasked_iff_literalsApart referenceEngines
    referenceEngines_standard separatePatterns (by decide +kernel) _ (by simp)).mpr
    (by decide +kernel)

end Bazalt.Matching
