import Bazalt.Api.Suppression
import Bazalt.Matching.Patterns

/-!
# Matches of the records that the content view leaves out

The matcher scans the raw stream.  A match in a raw record that the content view leaves out
is shown on the HTTP records of its direction that it overlaps, once on each of them; a
match in a record that is shown stays where it is.
-/

namespace Bazalt.Api

open Lib Matching

/-- The matches of each record. -/
abbrev Hits := Uuid → List MatchRecord

def Hits.push (out : Hits) (id : Uuid) (hit : MatchRecord) : Hits :=
  Function.update out id (out id ++ [hit])

/-- What makes two matches on one record the same. -/
def identity (hit : MatchRecord) : Uuid × ℤ × ℕ × ℕ × Bool :=
  (hit.patternId, hit.patternRevision, hit.offsetStart, hit.offsetEnd, hit.historical)

/-- A match on another record. -/
def projected (hit : MatchRecord) (target : ContentRecord) : MatchRecord :=
  { hit with contentId := target.id, view := target.view }

/-- The ranges of a match and of a record meet. -/
def Overlaps (hit : MatchRecord) (r : ContentRecord) : Prop :=
  hit.offsetStart < (streamRange r).2 ∧ (streamRange r).1 < hit.offsetEnd

instance (hit : MatchRecord) (r : ContentRecord) : Decidable (Overlaps hit r) :=
  inferInstanceAs (Decidable (_ ∧ _))

/-- The body of the loop over the targets of a match. -/
def attach (hit : MatchRecord) (out : Hits) (target : ContentRecord) : Hits :=
  if (streamRange target).2 ≤ hit.offsetStart ∨ hit.offsetEnd ≤ (streamRange target).1 then out
  else if (out target.id).any fun existing ↦
      decide (existing.patternId = hit.patternId ∧
        existing.patternRevision = hit.patternRevision ∧
        existing.offsetStart = hit.offsetStart ∧ existing.offsetEnd = hit.offsetEnd ∧
        existing.historical = hit.historical) then out
  else out.push target.id (projected hit target)

/-- Where the matches of a raw record can go. -/
def targets (visible : List ContentRecord) (source : ContentRecord) : List ContentRecord :=
  visible.filter fun r ↦ decide (r.direction = source.direction) && isHttpWireView r.view

/-- The body of the loop over the matches. -/
def fileHit (all visible : List ContentRecord) (out : Hits) (hit : MatchRecord) : Hits :=
  if visible.any fun r ↦ decide (r.id = hit.contentId) then out.push hit.contentId hit
  -- a later record with the same id replaces an earlier one in the map
  else match all.reverse.find? fun r ↦ decide (r.id = hit.contentId) with
    | none => out
    | some source =>
        if source.view ≠ .tcpRaw then out else (targets visible source).foldl (attach hit) out

def projectMatchesToVisibleContent (all visible : List ContentRecord)
    (hits : List MatchRecord) : Hits :=
  hits.foldl (fileHit all visible) fun _ ↦ []

/-! ## Buckets -/

@[simp] theorem Hits.push_self (out : Hits) (id : Uuid) (hit : MatchRecord) :
    out.push id hit id = out id ++ [hit] := by
  rw [push, Function.update_self]

theorem Hits.push_of_ne (out : Hits) {id id' : Uuid} (h : id' ≠ id) (hit : MatchRecord) :
    out.push id hit id' = out id' := by
  rw [push, Function.update_of_ne h]

theorem Hits.mem_push (out : Hits) (id : Uuid) (hit : MatchRecord) {id' : Uuid} {m : MatchRecord}
    (h : m ∈ out id') : m ∈ out.push id hit id' := by
  by_cases hid : id' = id
  · subst hid
    rw [push_self]
    exact List.mem_append_left _ h
  · rwa [push_of_ne _ hid]

@[simp] theorem identity_projected (hit : MatchRecord) (target : ContentRecord) :
    identity (projected hit target) = identity hit := rfl

/-- What a round over a target does: nothing where the match does not reach it or is there. -/
theorem attach_cases (hit : MatchRecord) (out : Hits) (target : ContentRecord) :
    ¬ Overlaps hit target ∧ attach hit out target = out ∨
      Overlaps hit target ∧ (∃ m ∈ out target.id, identity m = identity hit) ∧
        attach hit out target = out ∨
      Overlaps hit target ∧ (∀ m ∈ out target.id, identity m ≠ identity hit) ∧
        attach hit out target = out.push target.id (projected hit target) := by
  unfold attach
  split_ifs with haway hthere
  · refine .inl ⟨fun ⟨hstart, hend⟩ ↦ ?_, rfl⟩
    rcases haway with haway | haway
    · exact absurd hstart (not_lt.mpr haway)
    · exact absurd hend (not_lt.mpr haway)
  · push Not at haway
    obtain ⟨m, hm, hsame⟩ := List.any_eq_true.mp hthere
    obtain ⟨h₁, h₂, h₃, h₄, h₅⟩ := of_decide_eq_true hsame
    refine .inr (.inl ⟨haway, ⟨m, hm, ?_⟩, rfl⟩)
    rw [identity, h₁, h₂, h₃, h₄, h₅, identity]
  · push Not at haway
    refine .inr (.inr ⟨haway, fun m hm hsame ↦ hthere ?_, rfl⟩)
    refine List.any_eq_true.mpr ⟨m, hm, decide_eq_true ?_⟩
    simpa [identity] using hsame

/-- A round over a target removes no match. -/
theorem mem_attach {hit : MatchRecord} {out : Hits} {target : ContentRecord} {id : Uuid}
    {m : MatchRecord} (h : m ∈ out id) : m ∈ attach hit out target id := by
  rcases attach_cases hit out target with ⟨-, heq⟩ | ⟨-, -, heq⟩ | ⟨-, -, heq⟩
  · rwa [heq]
  · rwa [heq]
  · rw [heq]
    exact out.mem_push _ _ h

theorem mem_foldl_attach {hit : MatchRecord} {ts : List ContentRecord} :
    ∀ {out : Hits} {id : Uuid} {m : MatchRecord}, m ∈ out id →
      m ∈ ts.foldl (attach hit) out id := by
  induction ts with
  | nil => exact fun h ↦ h
  | cons t ts ih => exact fun h ↦ ih (mem_attach h)

/-- A match that reaches a target is on it after the round, or one that is the same. -/
theorem exists_mem_foldl_attach {hit : MatchRecord} {ts : List ContentRecord}
    {target : ContentRecord} (hoverlap : Overlaps hit target) :
    ∀ {out : Hits}, target ∈ ts →
      ∃ m ∈ ts.foldl (attach hit) out target.id, identity m = identity hit := by
  induction ts with
  | nil => exact fun h ↦ absurd h List.not_mem_nil
  | cons t ts ih =>
      intro out htarget
      rcases List.mem_cons.mp htarget with rfl | hlater
      · have hhere : ∃ m ∈ attach hit out target target.id, identity m = identity hit := by
          rcases attach_cases hit out target with ⟨haway, -⟩ | ⟨-, hthere, heq⟩ | ⟨-, -, heq⟩
          · exact absurd hoverlap haway
          · rwa [heq]
          · rw [heq]
            exact ⟨projected hit target, by simp, rfl⟩
        obtain ⟨m, hm, hsame⟩ := hhere
        rw [List.foldl_cons]
        exact ⟨m, mem_foldl_attach hm, hsame⟩
      · exact ih hlater

/-- Every bucket is the matches that belong there and projected ones, no two of them the
same. -/
def Ledger (native : Hits) (P : Uuid → MatchRecord → Prop) (out : Hits) : Prop :=
  ∀ id, ∃ moved : List MatchRecord, (out id).Perm (native id ++ moved) ∧
    (moved.map identity).Nodup ∧ ∀ m ∈ moved, P id m

theorem Ledger.attach {native : Hits} {P : Uuid → MatchRecord → Prop} {out : Hits}
    (h : Ledger native P out) {hit : MatchRecord} {target : ContentRecord}
    (hP : Overlaps hit target → P target.id (projected hit target)) :
    Ledger native P (attach hit out target) := by
  rcases attach_cases hit out target with ⟨-, heq⟩ | ⟨-, -, heq⟩ | ⟨hoverlap, hnew, heq⟩
  · rwa [heq]
  · rwa [heq]
  · intro id
    rw [heq]
    by_cases hid : id = target.id
    · subst hid
      obtain ⟨moved, hperm, hnodup, hmoved⟩ := h target.id
      refine ⟨moved ++ [projected hit target], ?_, ?_, fun m hm ↦ ?_⟩
      · rw [Hits.push_self, ← List.append_assoc]
        exact hperm.append_right _
      · rw [List.map_append, List.nodup_append]
        refine ⟨hnodup, List.nodup_singleton _, fun a ha b hb hab ↦ ?_⟩
        obtain ⟨m, hm, rfl⟩ := List.mem_map.mp ha
        obtain rfl := List.mem_singleton.mp hb
        exact hnew m (hperm.mem_iff.mpr (List.mem_append_right _ hm)) hab
      · rcases List.mem_append.mp hm with hold | hlast
        · exact hmoved m hold
        · obtain rfl := List.mem_singleton.mp hlast
          exact hP hoverlap
    · rw [Hits.push_of_ne _ hid]
      exact h id

theorem Ledger.foldl_attach {native : Hits} {P : Uuid → MatchRecord → Prop} {hit : MatchRecord}
    {ts : List ContentRecord} : ∀ {out : Hits}, Ledger native P out →
      (∀ t ∈ ts, Overlaps hit t → P t.id (projected hit t)) →
      Ledger native P (ts.foldl (Api.attach hit) out) := by
  induction ts with
  | nil => exact fun h _ ↦ h
  | cons t ts ih =>
      intro out h hP
      exact ih (h.attach (hP t List.mem_cons_self)) fun t' ht' ↦ hP t' (List.mem_cons_of_mem _ ht')

/-- A match that belongs to a record is added to it. -/
theorem Ledger.push {native : Hits} {P : Uuid → MatchRecord → Prop} {out : Hits}
    (h : Ledger native P out) (id : Uuid) (hit : MatchRecord) :
    Ledger (native.push id hit) P (out.push id hit) := by
  intro id'
  obtain ⟨moved, hperm, hnodup, hmoved⟩ := h id'
  refine ⟨moved, ?_, hnodup, hmoved⟩
  by_cases hid : id' = id
  · subst hid
    rw [Hits.push_self, Hits.push_self, List.append_assoc]
    exact (hperm.append_right [hit]).trans
      (by rw [List.append_assoc]; exact List.perm_append_comm.append_left _)
  · rw [Hits.push_of_ne _ hid, Hits.push_of_ne _ hid]
    exact hperm

theorem Ledger.mono {native : Hits} {P Q : Uuid → MatchRecord → Prop} {out : Hits}
    (h : Ledger native P out) (hPQ : ∀ id m, P id m → Q id m) : Ledger native Q out := by
  intro id
  obtain ⟨moved, hperm, hnodup, hmoved⟩ := h id
  exact ⟨moved, hperm, hnodup, fun m hm ↦ hPQ id m (hmoved m hm)⟩

/-! ## The run over the matches -/

/-- A byte of the record is a byte of the match. -/
def SharesByte (hit : MatchRecord) (r : ContentRecord) : Prop :=
  ∃ x, hit.offsetStart ≤ x ∧ x < hit.offsetEnd ∧ r.streamOffset ≤ x ∧
    x < r.streamOffset + r.data.length

/-- The matches of the records that are shown. -/
def nativeHits (visible : List ContentRecord) (hits : List MatchRecord) : Hits := fun id ↦
  hits.filter fun hit ↦ decide (hit.contentId = id) && visible.any fun r ↦ decide (r.id = id)

/-- `m` on the record `id` is a match of a raw record that is left out. -/
def IsProjection (all visible : List ContentRecord) (hits : List MatchRecord) (id : Uuid)
    (m : MatchRecord) : Prop :=
  ∃ hit ∈ hits, ∃ source ∈ all, ∃ target ∈ visible,
    source.id = hit.contentId ∧ source ∉ visible ∧ source.view = .tcpRaw ∧
    target.id = id ∧ target.direction = source.direction ∧ isHttpWireView target.view = true ∧
    Overlaps hit target ∧
    (hit.offsetStart < hit.offsetEnd → target.data ≠ [] → SharesByte hit target) ∧
    m = { hit with contentId := target.id, view := target.view }

/-- A match that reaches a record shares a byte with it, unless one of them has none. -/
theorem Overlaps.sharesByte {hit : MatchRecord} {r : ContentRecord} (h : Overlaps hit r)
    (hhit : hit.offsetStart < hit.offsetEnd) (hr : r.data ≠ []) : SharesByte hit r := by
  obtain ⟨hstart, hreach⟩ := h
  have hpos : 0 < r.data.length := List.length_pos_iff.mpr hr
  simp only [streamRange, satAdd, u64Max] at hstart hreach
  refine ⟨max hit.offsetStart r.streamOffset, ?_⟩
  omega

theorem SharesByte.overlaps {hit : MatchRecord} {r : ContentRecord} (h : SharesByte hit r)
    (hend : hit.offsetEnd < 2 ^ 64) : Overlaps hit r := by
  obtain ⟨x, hx, hx', hr, hr'⟩ := h
  simp only [Overlaps, streamRange, satAdd, u64Max]
  omega

theorem mem_targets {visible : List ContentRecord} {source r : ContentRecord} :
    r ∈ targets visible source ↔
      r ∈ visible ∧ r.direction = source.direction ∧ isHttpWireView r.view = true := by
  simp [targets]

/-- What a round over a match does. -/
theorem fileHit_cases (all visible : List ContentRecord) (out : Hits) (hit : MatchRecord) :
    (∃ r ∈ visible, r.id = hit.contentId) ∧ fileHit all visible out hit =
        out.push hit.contentId hit ∨
      (∀ r ∈ visible, r.id ≠ hit.contentId) ∧
        ((∃ source ∈ all, source.id = hit.contentId ∧ source.view = .tcpRaw ∧
            fileHit all visible out hit = (targets visible source).foldl (attach hit) out) ∨
          fileHit all visible out hit = out) := by
  unfold fileHit
  split_ifs with hvisible
  · obtain ⟨r, hr, hid⟩ := List.any_eq_true.mp hvisible
    exact .inl ⟨⟨r, hr, of_decide_eq_true hid⟩, rfl⟩
  · refine .inr ⟨fun r hr hid ↦ hvisible (List.any_eq_true.mpr ⟨r, hr, decide_eq_true hid⟩), ?_⟩
    cases hfind : all.reverse.find? fun r ↦ decide (r.id = hit.contentId) with
    | none => exact .inr rfl
    | some source =>
        have hmem : source ∈ all := List.mem_reverse.mp (List.mem_of_find?_eq_some hfind)
        have hid : source.id = hit.contentId := of_decide_eq_true (List.find?_some hfind :)
        dsimp only
        split_ifs with hview
        · exact .inr rfl
        · exact .inl ⟨source, hmem, hid, not_not.mp hview, rfl⟩

theorem mem_fileHit {all visible : List ContentRecord} {out : Hits} {hit : MatchRecord}
    {id : Uuid} {m : MatchRecord} (h : m ∈ out id) : m ∈ fileHit all visible out hit id := by
  rcases fileHit_cases all visible out hit with ⟨-, heq⟩ | ⟨-, ⟨source, -, -, -, heq⟩ | heq⟩
  · rw [heq]
    exact out.mem_push _ _ h
  · rw [heq]
    exact mem_foldl_attach h
  · rwa [heq]

theorem nativeHits_concat_of_visible {visible : List ContentRecord} {hits : List MatchRecord}
    {hit : MatchRecord} (h : ∃ r ∈ visible, r.id = hit.contentId) :
    nativeHits visible (hits ++ [hit]) = (nativeHits visible hits).push hit.contentId hit := by
  obtain ⟨r, hr, hid⟩ := h
  funext id
  by_cases hsame : id = hit.contentId
  · subst hsame
    have hany : (visible.any fun r ↦ decide (r.id = hit.contentId)) = true :=
      List.any_eq_true.mpr ⟨r, hr, decide_eq_true hid⟩
    rw [Hits.push_self, nativeHits, List.filter_append, nativeHits]
    simp [hany]
  · rw [Hits.push_of_ne _ hsame, nativeHits, List.filter_append, nativeHits]
    simp [Ne.symm hsame]

theorem nativeHits_concat_of_hidden {visible : List ContentRecord} {hits : List MatchRecord}
    {hit : MatchRecord} (h : ∀ r ∈ visible, r.id ≠ hit.contentId) :
    nativeHits visible (hits ++ [hit]) = nativeHits visible hits := by
  funext id
  rw [nativeHits, List.filter_append, nativeHits]
  by_cases hsame : hit.contentId = id
  · subst hsame
    have hany : (visible.any fun r ↦ decide (r.id = hit.contentId)) = false :=
      List.any_eq_false.mpr fun r hr ↦ by simp [h r hr]
    simp [hany]
  · simp [hsame]

theorem IsProjection.mono {all visible : List ContentRecord} {hits hits' : List MatchRecord}
    (hsub : hits ⊆ hits') {id : Uuid} {m : MatchRecord} (h : IsProjection all visible hits id m) :
    IsProjection all visible hits' id m := by
  obtain ⟨hit, hhit, rest⟩ := h
  exact ⟨hit, hsub hhit, rest⟩

/-- One match more keeps the buckets in order. -/
theorem Ledger.fileHit {all visible : List ContentRecord} {done : List MatchRecord} {out : Hits}
    (h : Ledger (nativeHits visible done) (IsProjection all visible done) out)
    (hit : MatchRecord) :
    Ledger (nativeHits visible (done ++ [hit])) (IsProjection all visible (done ++ [hit]))
      (fileHit all visible out hit) := by
  have hmono := h.mono fun id m ↦ IsProjection.mono (List.subset_append_left done [hit])
  rcases fileHit_cases all visible out hit with
    ⟨hvisible, heq⟩ | ⟨hhidden, ⟨source, hsource, hid, hview, heq⟩ | heq⟩
  · rw [heq, nativeHits_concat_of_visible hvisible]
    exact hmono.push _ _
  · rw [heq, nativeHits_concat_of_hidden hhidden]
    refine hmono.foldl_attach fun t ht hoverlap ↦ ?_
    obtain ⟨hvisible, hd, hwire⟩ := mem_targets.mp ht
    exact ⟨hit, by simp, source, hsource, t, hvisible, hid, fun hin ↦ hhidden source hin hid,
      hview, rfl, hd, hwire, hoverlap, hoverlap.sharesByte, rfl⟩
  · rw [heq, nativeHits_concat_of_hidden hhidden]
    exact hmono

theorem ledger_foldl {all visible : List ContentRecord} {hits : List MatchRecord} :
    ∀ {done : List MatchRecord} {out : Hits},
      Ledger (nativeHits visible done) (IsProjection all visible done) out →
      Ledger (nativeHits visible (done ++ hits)) (IsProjection all visible (done ++ hits))
        (hits.foldl (Api.fileHit all visible) out) := by
  induction hits with
  | nil =>
      intro done out h
      rwa [List.append_nil]
  | cons hit hits ih =>
      intro done out h
      have hsplit : done ++ hit :: hits = done ++ [hit] ++ hits := by simp
      rw [hsplit]
      exact ih (h.fileHit hit)

/-- A match of a raw record that is left out gets to every target that it reaches. -/
theorem exists_mem_foldl_fileHit {all visible : List ContentRecord} {source target : ContentRecord}
    {hit : MatchRecord} (hids : (all.map ContentRecord.id).Nodup) (hsource : source ∈ all)
    (hid : source.id = hit.contentId) (hview : source.view = .tcpRaw)
    (hhidden : ∀ r ∈ visible, r.id ≠ hit.contentId) (htarget : target ∈ targets visible source)
    (hoverlap : Overlaps hit target) {hits : List MatchRecord} :
    ∀ {out : Hits}, hit ∈ hits ∨ (∃ m ∈ out target.id, identity m = identity hit) →
      ∃ m ∈ hits.foldl (fileHit all visible) out target.id, identity m = identity hit := by
  induction hits with
  | nil =>
      intro out h
      exact h.resolve_left List.not_mem_nil
  | cons h hits ih =>
      intro out hin
      rw [List.foldl_cons]
      refine ih ?_
      rcases hin with hin | ⟨m, hm, hsame⟩
      · rcases List.mem_cons.mp hin with rfl | hlater
        · right
          have hfile : fileHit all visible out hit =
              (targets visible source).foldl (attach hit) out := by
            have hany : ¬ (visible.any fun r ↦ decide (r.id = hit.contentId)) = true := by
              simpa using hhidden
            rw [fileHit, if_neg hany]
            cases hfind : all.reverse.find? fun r ↦ decide (r.id = hit.contentId) with
            | none =>
                have hnone := List.find?_eq_none.mp hfind source (List.mem_reverse.mpr hsource)
                exact absurd (decide_eq_true hid) hnone
            | some source' =>
                have hmem : source' ∈ all :=
                  List.mem_reverse.mp (List.mem_of_find?_eq_some hfind)
                have hid' : source'.id = hit.contentId :=
                  of_decide_eq_true (List.find?_some hfind :)
                obtain rfl := List.inj_on_of_nodup_map hids hmem hsource (hid'.trans hid.symm)
                dsimp only
                rw [if_neg (not_not.mpr hview)]
          rw [hfile]
          exact exists_mem_foldl_attach hoverlap htarget
        · exact .inl hlater
      · exact .inr ⟨m, mem_fileHit hm, hsame⟩

/-- The bytes that a match shares with a raw record that is left out are on HTTP records
that are shown. -/
theorem exists_target_of_suppressed {byStart : UnstableSort fun range : ℕ × ℕ ↦ range.1}
    {all : List ContentRecord} {source : ContentRecord} {hit : MatchRecord}
    (hsource : source ∈ all) (hhidden : source ∉ suppressRedundantTcpRaw byStart all)
    (hend : hit.offsetEnd < 2 ^ 64) (hbyte : SharesByte hit source) :
    ∃ target ∈ targets (suppressRedundantTcpRaw byStart all) source, SharesByte hit target := by
  obtain ⟨x, hx, hx', hin, hin'⟩ := hbyte
  obtain ⟨-, -, hcover⟩ := covered_of_suppressed hsource hhidden
  have hrange : x ∈ Set.Ico (streamRange source).1 (streamRange source).2 := by
    simp only [Set.mem_Ico, streamRange, satAdd, u64Max]
    omega
  obtain ⟨s, hs, hd, hwire, -, hle, hlt⟩ := mem_cover_coverage.mp (hcover hrange)
  have hvisible : s ∈ suppressRedundantTcpRaw byStart all := by
    refine mem_suppressRedundantTcpRaw.mpr ⟨hs, fun hview ↦ ?_⟩
    rw [hview] at hwire
    cases hwire
  refine ⟨s, mem_targets.mpr ⟨hvisible, hd, hwire⟩, x, hx, hx', hle, ?_⟩
  exact hlt.trans_le (min_le_left _ _)

/-- Every match of a record that is shown stays on it, every match of a record that is left
out is on an HTTP record whose bytes it shares, and nothing else is on any record. -/
theorem matches_projected (byStart : UnstableSort fun range : ℕ × ℕ ↦ range.1)
    (all : List ContentRecord) (hits : List MatchRecord)
    (hids : (all.map ContentRecord.id).Nodup) (hu64 : ∀ hit ∈ hits, hit.offsetEnd < 2 ^ 64) :
    let visible := suppressRedundantTcpRaw byStart all
    let out := projectMatchesToVisibleContent all visible hits
    (∀ id, ∃ moved, (out id).Perm (nativeHits visible hits id ++ moved) ∧
      (moved.map identity).Nodup ∧ ∀ m ∈ moved, IsProjection all visible hits id m) ∧
    ∀ hit ∈ hits, ∀ source ∈ all, source ∉ visible → source.id = hit.contentId →
      SharesByte hit source →
      ∃ target ∈ visible, target.direction = source.direction ∧
        isHttpWireView target.view = true ∧ SharesByte hit target ∧
        ∃ m ∈ out target.id, identity m = identity hit := by
  intro visible out
  refine ⟨?_, fun hit hhit source hsource hhidden hid hbyte ↦ ?_⟩
  · have hstart : Ledger (nativeHits visible []) (IsProjection all visible []) fun _ ↦ [] :=
      fun id ↦ ⟨[], List.Perm.refl _, List.nodup_nil, by simp⟩
    exact ledger_foldl hstart
  · obtain ⟨target, htarget, hshared⟩ :=
      exists_target_of_suppressed hsource hhidden (hu64 hit hhit) hbyte
    obtain ⟨hvisible, hd, hwire⟩ := mem_targets.mp htarget
    have hall : ∀ r ∈ visible, r.id ≠ hit.contentId := fun r hr hsame ↦ by
      have hmem := (mem_suppressRedundantTcpRaw.mp hr).1
      obtain rfl := List.inj_on_of_nodup_map hids hmem hsource (hsame.trans hid.symm)
      exact hhidden hr
    have hview := (covered_of_suppressed hsource hhidden).1
    exact ⟨target, hvisible, hd, hwire, hshared,
      exists_mem_foldl_fileHit hids hsource hid hview hall htarget
        (hshared.overlaps (hu64 hit hhit)) (.inl hhit)⟩

/-- A match across the border of two HTTP records. -/
def borderHit : MatchRecord := ⟨0, 70, 1, 9, 1, .tcpRaw, .find, 3, 5, false⟩

theorem matches_projected_borderHit :
    ∃ target ∈ suppressRedundantTcpRaw (.insertion _) requestView,
      ∃ m ∈ projectMatchesToVisibleContent requestView
        (suppressRedundantTcpRaw (.insertion _) requestView) [borderHit] target.id,
        identity m = identity borderHit := by
  have hmoved := (matches_projected (.insertion _) requestView [borderHit] (by decide)
    (by decide)).2 borderHit (by decide)
  obtain ⟨target, hvisible, -, -, -, hthere⟩ := hmoved ⟨1, 9, 0, none, .aToB, .tcpRaw, 2, [3, 4, 5]⟩
    (by decide) (by decide) rfl ⟨3, by decide, by decide, by decide, by decide⟩
  exact ⟨target, hvisible, hthere⟩

end Bazalt.Api
