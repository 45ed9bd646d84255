import Bazalt.Matching.Limits
import Bazalt.Matching.Worker

/-!
# Literals over two records

What a scanner finds of a literal that starts in one record of a stream and ends in the
next.  The tails that a scanner keeps hold nothing but the bytes of the stream that came
last without a gap, and after a record that is scanned for the literal they hold enough of
it.
-/

namespace Bazalt.Matching

open Lib

/-- The bytes that a stream ends with without a gap, and where they end. -/
structure Stretch where
  bytes : Bytes := []
  finish : ℕ := 0
  deriving DecidableEq, Repr

def Stretch.next (t : Stretch) (record : ContentRecord) : Stretch where
  bytes := if t.finish = record.streamOffset then t.bytes ++ record.data else record.data
  finish := record.streamOffset + record.data.length

def ofKey (key : StreamKey) (records : List ContentRecord) : List ContentRecord :=
  records.filter fun record ↦ decide (streamKey record = key)

def stretch (key : StreamKey) (records : List ContentRecord) : Stretch :=
  runFrom Stretch.next {} (ofKey key records)

/-- The tails after a scanner has been given the works. -/
def worksAfter (E : Engines) (overlapLimit : ℕ) (b : Bounds) (historical : Bool) (tails : Tails)
    (works : List Work) : Tails :=
  runFrom (fun tails w ↦ (scanWithTail E w.snapshot overlapLimit b historical w.generation tails
    w.record).1) tails works

/-- No other occurrence of a literal that is searched for together with the pattern overlaps
the one at the position. -/
def Alone (set : CompiledPatternSet) (p : PatternRevision) (view : ContentView) (bytes text : Bytes)
    (s : ℕ) : Prop :=
  ∀ g, set.group p.service view = some g → ∃ i : ℕ, g.literalMeta[i]? = some p ∧
    ∀ (j : ℕ) w t, g.literals[j]? = some w → OccursAt w text t → t < s + bytes.length →
      s < t + w.length → j = i ∧ t = s

/-! ## What the tails hold -/

theorem buildTail_suffix (previous data : Bytes) (keep : ℕ) :
    buildTail previous data keep <:+ previous ++ data := by
  unfold buildTail
  split_ifs
  · exact List.nil_suffix
  · exact (List.drop_suffix _ _).trans (List.suffix_append _ _)
  · obtain ⟨front, hfront⟩ := List.drop_suffix
      (previous.length - min (keep - data.length) previous.length) previous
    refine ⟨front, ?_⟩
    rw [← List.append_assoc, hfront]

theorem Stretch.length_next {t : Stretch} (h : t.bytes.length ≤ t.finish) (record : ContentRecord) :
    (t.next record).bytes.length ≤ (t.next record).finish := by
  simp only [next]
  split_ifs with hfinish
  · rw [List.length_append]
    omega
  · exact Nat.le_add_left _ _

theorem length_stretch (key : StreamKey) (records : List ContentRecord) :
    (stretch key records).bytes.length ≤ (stretch key records).finish :=
  invariant_runFrom_of_step (I := fun t : Stretch ↦ t.bytes.length ≤ t.finish)
    (fun _ record h ↦ Stretch.length_next h record) _ le_rfl

/-- The tail of a stream is an end of the bytes. -/
def Reflects (tails : Tails) (key : StreamKey) (t : Stretch) : Prop :=
  ∀ s, tails key = some s → s.data <:+ t.bytes ∧ s.endOffset = t.finish

section

variable {E : Engines} {set : CompiledPatternSet} {overlapLimit : ℕ} {b : Bounds}
  {historical : Bool} {generation : ℕ} {tails : Tails} {record : ContentRecord} {t : Stretch}

/-- A record is scanned with an end of the bytes, if they go up to it. -/
theorem Reflects.prefixFor (h : Reflects tails (streamKey record) t) (generation : ℕ) :
    tails.prefixFor record generation = [] ∨
      tails.prefixFor record generation <:+ t.bytes ∧ t.finish = record.streamOffset := by
  unfold Tails.prefixFor
  cases htail : tails (streamKey record) with
  | none => exact .inl rfl
  | some s =>
      obtain ⟨hsuffix, hfinish⟩ := h s htail
      simp only [Option.map_some, Option.getD_some, TailState.prefixFor]
      split_ifs with hserves
      · exact .inr ⟨hsuffix, hfinish.symm.trans hserves.2⟩
      · exact .inl rfl

theorem Reflects.scan (h : Reflects tails (streamKey record) t)
    (hfits : record.streamOffset + record.data.length ≤ u64Max) :
    Reflects (scanWithTail E set overlapLimit b historical generation tails record).1
      (streamKey record) (t.next record) := by
  intro s hs
  have hfinish := endOffset_scanWithTail hs
  rw [satAdd_of_le hfits] at hfinish
  refine ⟨?_, hfinish⟩
  unfold scanWithTail at hs
  split_ifs at hs with hinterested
  · simp only [Function.update_self] at hs
    split_ifs at hs
    cases hs
    refine (buildTail_suffix _ _ _).trans ?_
    rcases h.prefixFor generation with hnil | ⟨⟨front, hfront⟩, hjoin⟩
    · rw [hnil, List.nil_append, Stretch.next]
      dsimp only
      split_ifs
      · exact List.suffix_append _ _
      · exact List.suffix_refl _
    · rw [Stretch.next]
      dsimp only
      rw [if_pos hjoin]
      exact ⟨front, by rw [← List.append_assoc, hfront]⟩
  · simp at hs

theorem worksAfter_append (tails : Tails) (as bs : List Work) :
    worksAfter E overlapLimit b historical tails (as ++ bs) =
      worksAfter E overlapLimit b historical (worksAfter E overlapLimit b historical tails as) bs :=
  runFrom_append _ _ _ _

@[simp] theorem worksAfter_singleton (tails : Tails) (w : Work) :
    worksAfter E overlapLimit b historical tails [w] = (scanWithTail E w.snapshot overlapLimit b
      historical w.generation tails w.record).1 := rfl

theorem ofKey_append (key : StreamKey) (as bs : List ContentRecord) :
    ofKey key (as ++ bs) = ofKey key as ++ ofKey key bs :=
  List.filter_append _ _

theorem ofKey_of_ne {key : StreamKey} {records : List ContentRecord}
    (h : ∀ r ∈ records, streamKey r ≠ key) : ofKey key records = [] :=
  List.filter_eq_nil_iff.mpr fun r hr ↦ by simpa using h r hr

/-- The run lemma: the tails of a scanner reflect the streams that it has been given. -/
theorem reflects_worksAfter (E : Engines) (overlapLimit : ℕ) (b : Bounds) (historical : Bool)
    (key : StreamKey) (works : List Work)
    (hfits : ∀ w ∈ works, w.record.streamOffset + w.record.data.length ≤ u64Max) :
    Reflects (worksAfter E overlapLimit b historical (fun _ ↦ none) works) key
      (stretch key (works.map Work.record)) := by
  induction works using List.reverseRecOn with
  | nil =>
      intro s hs
      cases hs
  | append_singleton works w ih =>
      have hbefore := ih fun w' hw' ↦ hfits w' (List.mem_append_left _ hw')
      have hlast := hfits w (by simp)
      rw [worksAfter_append, worksAfter_singleton, List.map_append, stretch, ofKey_append,
        runFrom_append, ← stretch]
      by_cases hkey : streamKey w.record = key
      · subst hkey
        have hself : ofKey (streamKey w.record) ([w].map Work.record) = [w.record] := by
          simp [ofKey]
        rw [hself]
        exact hbefore.scan hlast
      · rw [ofKey_of_ne (by simpa using hkey)]
        intro s hs
        rw [scanWithTail_of_ne (Ne.symm hkey)] at hs
        exact hbefore s hs

/-- A tail stays until the next record of its stream. -/
theorem worksAfter_of_ne {key : StreamKey} {works : List Work}
    (h : ∀ w ∈ works, streamKey w.record ≠ key) (tails : Tails) :
    worksAfter E overlapLimit b historical tails works key = tails key := by
  induction works generalizing tails with
  | nil => rfl
  | cons w works ih =>
      have hw := h w List.mem_cons_self
      rw [worksAfter, runFrom_cons, ← worksAfter,
        ih (fun w' hw' ↦ h w' (List.mem_cons_of_mem _ hw')), scanWithTail_of_ne (Ne.symm hw)]

end

/-! ## What a scanned record leaves -/

namespace CompiledGroup

variable {E : Engines}

theorem add_length_le {g g' : CompiledGroup} {p : PatternRevision} (h : g.add E p = some g')
    (hg : ∀ w ∈ g.literals, w.length ≤ g.maxLiteralLen) :
    ∀ w ∈ g'.literals, w.length ≤ g'.maxLiteralLen := by
  have hadd : ∀ bytes, ∀ w ∈ (g.addLiteral p bytes).literals,
      w.length ≤ (g.addLiteral p bytes).maxLiteralLen := by
    intro bytes w hw
    rcases List.mem_append.mp hw with hw | hw
    · exact (hg w hw).trans (le_max_left _ _)
    · obtain rfl := List.mem_singleton.mp hw
      exact le_max_right _ _
  unfold add at h
  cases hk : p.kind with
  | text =>
      simp only [hk, Option.some.injEq] at h
      subst h
      exact hadd _
  | binary =>
      simp only [hk, Option.map_eq_some_iff] at h
      obtain ⟨bytes, -, rfl⟩ := h
      exact hadd bytes
  | regex =>
      simp only [hk, Option.some.injEq] at h
      subst h
      exact hg

theorem compile_length_le {ps : List PatternRevision} {g : CompiledGroup}
    (h : compile E ps = some g) : ∀ w ∈ g.literals, w.length ≤ g.maxLiteralLen := by
  have hfold : ∀ (ps : List PatternRevision) {g g' : CompiledGroup},
      ps.foldlM (add E) g = some g' → (∀ w ∈ g.literals, w.length ≤ g.maxLiteralLen) →
        ∀ w ∈ g'.literals, w.length ≤ g'.maxLiteralLen := by
    intro ps
    induction ps with
    | nil =>
        intro g g' h hg
        obtain rfl : g = g' := by simpa using h
        exact hg
    | cons p ps ih =>
        intro g g' h hg
        rw [List.foldlM_cons, Option.bind_eq_bind, Option.bind_eq_some_iff] at h
        obtain ⟨g₁, h₁, h₂⟩ := h
        exact ih h₂ (add_length_le h₁ hg)
  exact hfold ps (Option.filter_eq_some_iff.mp h).1 (by simp)

end CompiledGroup

namespace CompiledPatternSet

variable {E : Engines} {set : CompiledPatternSet} {p : PatternRevision} {record : ContentRecord}
  {bytes : Bytes}

/-- The group that searches a record for a literal. -/
theorem Contains.group_spec (h : set.Contains E p) (hscope : InScope p record)
    (hliteral : literal? E p = some bytes) :
    ∃ g, set.Scans record p.service g ∧ bytes.length ≤ g.maxLiteralLen ∧
      ∀ i : ℕ, g.literalMeta[i]? = some p → g.literals[i]? = some bytes := by
  obtain ⟨g, hg⟩ := Option.isSome_iff_exists.mp (h.group hscope)
  obtain ⟨ps, hset, hp⟩ := h
  have hcompile := (CompiledPatternSet.group_spec hset p.service record.view).1 g hg
  have hgrown := CompiledGroup.compile_grown hcompile
  refine ⟨g, ⟨hscope.2.1, hg⟩, ?_, fun i hi ↦ ?_⟩
  · obtain ⟨i, -, hi⟩ := exists_literal_at hgrown hp ⟨hscope.1, rfl, hscope.2.2⟩ hliteral
    exact CompiledGroup.compile_length_le hcompile _ (List.mem_of_getElem? hi)
  · obtain ⟨bytes', hi', hliteral', -, -⟩ := literal_at hgrown hi
    obtain rfl := Option.some.inj (hliteral.symm.trans hliteral')
    exact hi'

theorem Scans.le_requiredOverlap {service : Option String} {g : CompiledGroup}
    (h : set.Scans record service g) (overlapLimit : ℕ) :
    g.maxLiteralLen - 1 ≤ set.requiredOverlap record overlapLimit := by
  have hgroup : g.maxLiteralLen - 1 ≤ g.requiredOverlap overlapLimit := by
    unfold CompiledGroup.requiredOverlap
    split_ifs
    · exact le_rfl
    · exact le_max_left _ _
  refine hgroup.trans ?_
  unfold requiredOverlap
  cases service with
  | none =>
      have hglobal : (set.groupsFor record).1 = some g := h.2
      rcases hgroups : set.groupsFor record with ⟨g₁, g₂⟩
      rw [hgroups] at hglobal
      obtain rfl : g₁ = some g := hglobal
      cases g₂ with
      | none => exact le_rfl
      | some g₂ => exact le_max_left _ _
  | some name =>
      have hname : record.service = some name := by simpa [eq_comm] using h.1
      have hservice : (set.groupsFor record).2 = some g := by
        simp only [groupsFor, hname, Option.bind_some]
        exact h.2
      rcases hgroups : set.groupsFor record with ⟨g₁, g₂⟩
      rw [hgroups] at hservice
      obtain rfl : g₂ = some g := hservice
      cases g₁ with
      | none => exact le_rfl
      | some g₁ => exact le_max_right _ _

end CompiledPatternSet

section

variable {E : Engines} {set : CompiledPatternSet} {p : PatternRevision} {overlapLimit : ℕ}
  {b : Bounds} {historical : Bool} {generation : ℕ} {tails : Tails} {record : ContentRecord}
  {u v : Bytes}

/-- A record that is scanned for the literal leaves a tail with its start. -/
theorem suffix_scanWithTail (hset : set.Contains E p) (hscope : InScope p record)
    (hliteral : literal? E p = some (u ++ v)) (hu : u ≠ []) (hv : v ≠ [])
    (hdata : u <:+ record.data) :
    ∃ t, (scanWithTail E set overlapLimit b historical generation tails record).1
        (streamKey record) = some t ∧ u <:+ t.data ∧
      t.endOffset = satAdd record.streamOffset record.data.length ∧ t.generation = generation := by
  obtain ⟨g, hscans, hlen, -⟩ := hset.group_spec hscope hliteral
  have hu0 := List.length_pos_iff.mpr hu
  have hv0 := List.length_pos_iff.mpr hv
  have hkeep := hscans.le_requiredOverlap overlapLimit
  rw [List.length_append] at hlen
  have hzero : set.requiredOverlap record overlapLimit ≠ 0 := by omega
  refine ⟨_, by simp [scanWithTail, hset.isInterested hscope, hzero]; rfl, ?_, rfl, rfl⟩
  obtain ⟨front, hfront⟩ := hdata
  have hend : record.data.drop (record.data.length - u.length) = u := by
    rw [← hfront, List.length_append, Nat.add_sub_cancel, List.drop_left]
  have hshort : u.length ≤ record.data.length := by
    rw [← hfront, List.length_append]
    omega
  have hsuffix := @suffix_buildTail (tails.prefixFor record generation) record.data
    (set.requiredOverlap record overlapLimit) u.length (by omega) hshort
  rwa [hend] at hsuffix

/-- A literal that lies across the start of a record is found, if the record is scanned with
its start and no other occurrence overlaps it. -/
theorem mem_out_scanWithTail (hE : E.Standard) (hset : set.Contains E p)
    (hscope : InScope p record) (hliteral : literal? E p = some (u ++ v)) (hu : u ≠ [])
    (hv : v ≠ []) (htail : u <:+ tails.prefixFor record generation) (hdata : v <+: record.data)
    {front : Bytes} (hfront : tails.prefixFor record generation <:+ front)
    (hoff : front.length ≤ record.streamOffset)
    (halone : Alone set p record.view (u ++ v) (front ++ record.data) (front.length - u.length))
    (hlimit : (scanWithTail E set overlapLimit b historical generation tails record).2.limited =
      false) :
    matchRecord p record (record.streamOffset - u.length) (record.streamOffset + v.length)
        historical ∈
      (scanWithTail E set overlapLimit b historical generation tails record).2.out := by
  obtain ⟨g, hscans, hlen, hat⟩ := hset.group_spec hscope hliteral
  obtain ⟨i, hi, halone⟩ := halone g hscans.2
  have hbytes := hat i hi
  set tail := tails.prefixFor record generation with htaildef
  have hu0 := List.length_pos_iff.mpr hu
  have hv0 := List.length_pos_iff.mpr hv
  have hne : ∀ w ∈ g.literals, w ≠ [] := by
    -- an empty literal would occur inside the one that is alone
    rintro w hw rfl
    obtain ⟨j, hj⟩ := List.mem_iff_getElem?.mp hw
    have := (halone j [] (front.length - u.length + 1) hj List.nil_prefix
      (by rw [List.length_append]; omega) (by simp)).2
    omega
  simp only [scanWithTail, hset.isInterested hscope, if_true] at hlimit ⊢
  rw [(set.scanBounded_truncates E record tail historical b).2.2.2 hlimit]
  refine CompiledPatternSet.mem_scan_of_literalHits hscans
    (CompiledGroup.bridgeHits_subset_literalHits E g record _ historical ?_ ?_)
  · rintro hnil
    simp [hnil] at hbytes
  have htaillen := htail.length_le
  have hfrontlen := hfront.length_le
  set head := tail.drop (tail.length - (g.maxLiteralLen - 1)) with hhead
  have hheadlen : head.length = min tail.length (g.maxLiteralLen - 1) := by
    rw [hhead, List.length_drop]
    omega
  rw [List.length_append] at hlen
  refine CompiledGroup.mem_bridgeHits hE hne historical hi hbytes hu hv htail hdata
    (by rw [List.length_append]; omega) (by omega) fun j w t hw hocc hbefore hafter ↦ ?_
  rw [← hhead] at hbefore hafter ⊢
  -- the text of the search is a part of the stream
  have hwne := hne w (List.mem_of_getElem? hw)
  have hend := hocc.end_le hwne
  obtain ⟨before, hbefore'⟩ := (List.drop_suffix _ _ : head <:+ tail).trans hfront
  have hsplit : front ++ record.data = before ++ (g.bridge record tail ++
      record.data.drop (min (g.maxLiteralLen - 1) record.data.length)) := by
    rw [CompiledGroup.bridge, ← hhead, ← hbefore', List.append_assoc, List.append_assoc,
      List.take_append_drop]
  have hocc' : OccursAt w (front ++ record.data) (before.length + t) := by
    rw [hsplit]
    exact occursAt_append_left.mpr ((occursAt_append_right hend).mpr hocc)
  have hlength : before.length + head.length = front.length := by
    rw [← hbefore', List.length_append]
  obtain ⟨rfl, hpos⟩ := halone j w _ hw hocc' (by rw [List.length_append]; omega) (by omega)
  refine ⟨rfl, ?_⟩
  omega

end

end Bazalt.Matching
