import Bazalt.Capture.Fragment
import Bazalt.Lib.Run

/-!
# Datagrams from fragments

A datagram is complete when its last missing fragment arrives, and what is handed on is tiled
by the fragments that were accepted for it.
-/

namespace Bazalt.Capture

open Bazalt.Lib

structure Fragment where
  offset : ℕ
  more : Bool
  payload : Bytes
  deriving DecidableEq, Repr

namespace Fragment

def finish (f : Fragment) : ℕ := f.offset + f.payload.length

def entry (f : Fragment) : ℕ × FragmentPiece := (f.offset, ⟨f.payload, f.more⟩)

theorem entry_injective : Function.Injective entry := by
  rintro ⟨offset, more, payload⟩ ⟨offset', more', payload'⟩ h
  cases h
  rfl

/-- The fragment fits into a datagram and ends at a boundary of eight bytes, unless it is the
final one. -/
structure Valid (f : Fragment) : Prop where
  finish_le : f.finish ≤ 65535
  aligned : f.more = true → f.payload ≠ [] ∧ f.payload.length % 8 = 0

/-- Two fragments that do not overlap, or are exact duplicates. -/
def Apart (f g : Fragment) : Prop := f = g ∨ f.finish ≤ g.offset ∨ g.finish ≤ f.offset

end Fragment

/-! ## One datagram -/

section State

variable {s d s' : FragmentState} {f : Fragment} {log : List Fragment} {wireLen : ℕ}
  {payload : Bytes}

/-- The state after a fragment, unless it is refused. -/
def FragmentState.accept? (s : FragmentState) (f : Fragment) (wireLen : ℕ) :
    Option FragmentState :=
  (s.declare f.more f.finish).bind fun d ↦
    match d.judge f.offset f.finish f.more f.payload with
    | .duplicate => some d
    | .new => some (d.add f.offset f.more f.payload wireLen)
    | _ => none

/-- The fragments `log` were accepted and make up the state. -/
structure Gathers (s : FragmentState) (log : List Fragment) : Prop where
  valid : ∀ f ∈ log, f.Valid
  entries : ∀ e, e ∈ s.pieces.entries ↔ ∃ f ∈ log, f.entry = e
  apart : s.pieces.entries.Pairwise fun e e' ↦ e.1 + e.2.data.length ≤ e'.1
  final : ∀ f ∈ log, f.more = false → s.totalLen = some f.finish
  total : ∀ total ∈ s.totalLen,
    (∃ f ∈ log, f.more = false ∧ f.finish = total) ∧ ∀ f ∈ log, f.finish ≤ total

theorem gathers_nil (now : ℕ) : Gathers { lastSeen := now } [] where
  valid f hf := by cases hf
  entries e := by simp
  apart := List.Pairwise.nil
  final f hf := by cases hf
  total total htotal := by cases htotal

theorem Gathers.mem_entry (h : Gathers s log) (hf : f ∈ log) : f.entry ∈ s.pieces.entries :=
  (h.entries _).mpr ⟨f, hf, rfl⟩

theorem Gathers.mem_of_entry (h : Gathers s log) (hf : f.entry ∈ s.pieces.entries) : f ∈ log := by
  obtain ⟨g, hg, heq⟩ := (h.entries _).mp hf
  rwa [← Fragment.entry_injective heq]

theorem Gathers.end_le (h : Gathers s log) {e : ℕ × FragmentPiece} (he : e ∈ s.pieces.entries) :
    e.1 + e.2.data.length ≤ 65535 := by
  obtain ⟨f, hf, rfl⟩ := (h.entries e).mp he
  exact (h.valid f hf).finish_le

theorem Gathers.satAdd_end (h : Gathers s log) {e : ℕ × FragmentPiece}
    (he : e ∈ s.pieces.entries) : satAdd e.1 e.2.data.length = e.1 + e.2.data.length :=
  satAdd_of_le ((h.end_le he).trans (by decide))

theorem Gathers.touch (h : Gathers s log) (now : ℕ) : Gathers { s with lastSeen := now } log :=
  ⟨h.valid, h.entries, h.apart, h.final, h.total⟩

/-- What the declaration of a length changes. -/
theorem declare_cases {more : Bool} {finish : ℕ} (h : s.declare more finish = some d) :
    more = true ∧ d = s ∨ more = false ∧ d = { s with totalLen := some finish } ∧
      (∀ total ∈ s.totalLen, total = finish) ∧
      ∀ e ∈ s.pieces.entries, satAdd e.1 e.2.data.length ≤ finish := by
  unfold FragmentState.declare at h
  cases more with
  | true =>
      cases h
      exact .inl ⟨rfl, rfl⟩
  | false =>
      rw [if_neg Bool.false_ne_true] at h
      split_ifs at h with htotal hbeyond
      cases h
      refine .inr ⟨rfl, rfl, fun total hmem ↦ ?_, fun e he ↦ ?_⟩
      · by_contra hne
        exact htotal ⟨total, hmem, hne⟩
      · by_contra hlt
        exact hbeyond ⟨e, he, not_le.mp hlt⟩

/-- A state whose datagram has the length that a fragment declares. -/
structure Declared (s : FragmentState) (log : List Fragment) (f : Fragment) : Prop where
  final : ∀ g ∈ log ++ [f], g.more = false → s.totalLen = some g.finish
  total : ∀ total ∈ s.totalLen,
    (∃ g ∈ log ++ [f], g.more = false ∧ g.finish = total) ∧ ∀ g ∈ log, g.finish ≤ total

theorem Gathers.declared (h : Gathers s log) (hd : s.declare f.more f.finish = some d) :
    Declared d log f ∧ d.pieces = s.pieces := by
  rcases declare_cases hd with ⟨hmore, rfl⟩ | ⟨hmore, rfl, htotal, hends⟩
  · refine ⟨⟨fun g hg hfinal ↦ ?_, fun total hmem ↦ ?_⟩, rfl⟩
    · rcases List.mem_append.mp hg with hg | hg
      · exact h.final g hg hfinal
      · rw [List.mem_singleton.mp hg, hmore] at hfinal
        cases hfinal
    · obtain ⟨⟨g, hg, hfinal⟩, hle⟩ := h.total total hmem
      exact ⟨⟨g, List.mem_append_left _ hg, hfinal⟩, hle⟩
  · refine ⟨⟨fun g hg hfinal ↦ ?_, fun total hmem ↦ ?_⟩, rfl⟩
    · rcases List.mem_append.mp hg with hg | hg
      · rw [htotal g.finish (h.final g hg hfinal)]
      · rw [List.mem_singleton.mp hg]
    · cases hmem
      refine ⟨⟨f, by simp, hmore, rfl⟩, fun g hg ↦ ?_⟩
      have hend := hends _ (h.mem_entry hg)
      rwa [h.satAdd_end (h.mem_entry hg)] at hend

/-- The neighbours of a place in pieces that do not overlap are the only ones to look at. -/
theorem judge_of_new {offset finish : ℕ} {more : Bool} (h : Gathers s log)
    (hd : d.pieces = s.pieces)
    (hjudge : d.judge offset finish more payload = .new) :
    (∀ total ∈ d.totalLen, finish ≤ total) ∧ ∀ e ∈ s.pieces.entries,
      e.1 ≠ offset ∧ (e.1 + e.2.data.length ≤ offset ∨ finish ≤ e.1) := by
  unfold FragmentState.judge at hjudge
  split_ifs at hjudge with htotal
  rw [hd] at hjudge
  refine ⟨fun total hmem ↦ ?_, ?_⟩
  · by_contra hlt
    exact htotal ⟨total, hmem, .inl (not_le.mp hlt)⟩
  split at hjudge
  · split_ifs at hjudge
  next hfresh =>
    dsimp only at hjudge
    split_ifs at hjudge with hprevious hfollowing
    intro e he
    have hne : e.1 ≠ offset := by
      intro heq
      have hno := List.find?_eq_none.mp hfresh e he
      simp [heq] at hno
    refine ⟨hne, ?_⟩
    rcases Nat.lt_or_gt_of_ne hne with hlt | hgt
    · left
      have hmem : e ∈ s.pieces.entries.filter fun e ↦ decide (e.1 < offset) :=
        List.mem_filter.mpr ⟨he, by simpa using hlt⟩
      have hapart := h.apart.filter fun e ↦ decide (e.1 < offset)
      have hends : ∀ last, (s.pieces.entries.filter fun e ↦ decide (e.1 < offset)).getLast? =
          some last → last.1 + last.2.data.length ≤ offset := by
        intro last hlast
        rw [hlast] at hprevious
        have hin := List.mem_of_getLast? hlast
        simpa [h.satAdd_end (List.mem_filter.mp hin).1] using hprevious
      rcases List.eq_nil_or_concat (s.pieces.entries.filter fun e ↦ decide (e.1 < offset)) with
        hnil | ⟨front, last, hconcat⟩
      · rw [hnil] at hmem
        cases hmem
      · rw [List.concat_eq_append] at hconcat
        have hlast := hends last (by rw [hconcat, List.getLast?_concat])
        rw [hconcat] at hmem hapart
        rcases List.mem_append.mp hmem with hfront | heq
        · have hbefore := (List.pairwise_append.mp hapart).2.2 e hfront last (by simp)
          omega
        · rwa [List.mem_singleton.mp heq]
    · right
      cases hfind : s.pieces.entries.find? fun e ↦ decide (offset ≤ e.1) with
      | none =>
          have hno := List.find?_eq_none.mp hfind e he
          simp only [decide_eq_true_eq] at hno
          omega
      | some next =>
          rw [hfind] at hfollowing
          have hnext : finish ≤ next.1 := by simpa using hfollowing
          obtain ⟨-, front, rest, hsplit, hfront⟩ := List.find?_eq_some_iff_append.mp hfind
          have hsorted := s.pieces.sorted
          rw [hsplit] at hsorted he
          rcases List.mem_append.mp he with hin | hin
          · have hno := hfront e hin
            simp only [Bool.not_eq_true', decide_eq_false_iff_not] at hno
            omega
          · rcases List.mem_cons.mp hin with rfl | hin
            · exact hnext
            · have hafter := (List.pairwise_append.mp hsorted).2.1
              have hlt := (List.pairwise_cons.mp hafter).1 e hin
              omega

theorem judge_of_duplicate {offset finish : ℕ} {more : Bool}
    (hjudge : d.judge offset finish more payload = .duplicate) :
    (offset, ⟨payload, more⟩) ∈ d.pieces.entries ∧ ∀ total ∈ d.totalLen, finish ≤ total := by
  unfold FragmentState.judge at hjudge
  split_ifs at hjudge with htotal
  refine ⟨?_, fun total hmem ↦ ?_⟩
  · split at hjudge
    next key existing hfind =>
      split_ifs at hjudge with hsame
      have hmem := List.mem_of_find?_eq_some hfind
      have hkey := List.find?_some hfind
      obtain ⟨rfl, rfl⟩ := hsame
      simp only [decide_eq_true_eq] at hkey
      subst hkey
      exact hmem
    · dsimp only at hjudge
      split_ifs at hjudge
  · by_contra hlt
    exact htotal ⟨total, hmem, .inl (not_le.mp hlt)⟩

/-- One fragment more. -/
theorem Gathers.accept (h : Gathers s log) (hf : f.Valid) (ha : s.accept? f wireLen = some s') :
    Gathers s' (log ++ [f]) := by
  obtain ⟨d, hdeclare, hjudge⟩ := Option.bind_eq_some_iff.mp ha
  obtain ⟨hdeclared, hpieces⟩ := h.declared hdeclare
  have hvalid : ∀ g ∈ log ++ [f], g.Valid := by
    intro g hg
    rcases List.mem_append.mp hg with hg | hg
    · exact h.valid g hg
    · rwa [List.mem_singleton.mp hg]
  have htotal : (∀ total ∈ d.totalLen, f.finish ≤ total) → ∀ total ∈ d.totalLen,
      (∃ g ∈ log ++ [f], g.more = false ∧ g.finish = total) ∧
        ∀ g ∈ log ++ [f], g.finish ≤ total := by
    intro hle total hmem
    obtain ⟨hfinal, hall⟩ := hdeclared.total total hmem
    refine ⟨hfinal, fun g hg ↦ ?_⟩
    rcases List.mem_append.mp hg with hg | hg
    · exact hall g hg
    · rw [List.mem_singleton.mp hg]
      exact hle total hmem
  split at hjudge
  next hverdict =>
    cases hjudge
    obtain ⟨hmem, hle⟩ := judge_of_duplicate hverdict
    rw [hpieces] at hmem
    have hold : f ∈ log := h.mem_of_entry hmem
    refine ⟨hvalid, fun e ↦ ?_, by rw [hpieces]; exact h.apart, hdeclared.final, htotal hle⟩
    rw [hpieces, h.entries]
    constructor
    · rintro ⟨g, hg, heq⟩
      exact ⟨g, List.mem_append_left _ hg, heq⟩
    · rintro ⟨g, hg, heq⟩
      rcases List.mem_append.mp hg with hg | hg
      · exact ⟨g, hg, heq⟩
      · exact ⟨f, hold, by rw [← List.mem_singleton.mp hg, heq]⟩
  next hverdict =>
    cases hjudge
    obtain ⟨hle, hhole⟩ := judge_of_new h hpieces hverdict
    obtain ⟨front, back, hsplit, hinsert, hfront, hback⟩ :=
      Lib.OrdMap.insertEntry_split f.offset (⟨f.payload, f.more⟩ : FragmentPiece)
        s.pieces.sorted fun e he ↦ (hhole e he).1
    have hentries : (d.add f.offset f.more f.payload wireLen).pieces.entries =
        front ++ f.entry :: back := by
      change Lib.OrdMap.insertEntry _ _ d.pieces.entries = _
      rw [hpieces]
      exact hinsert
    refine ⟨hvalid, fun e ↦ ?_, ?_, hdeclared.final, htotal hle⟩
    · rw [hentries]
      have hold := h.entries e
      rw [hsplit] at hold
      simp only [List.mem_append, List.mem_cons] at hold ⊢
      constructor
      · rintro (hin | rfl | hin)
        · obtain ⟨g, hg, heq⟩ := hold.mp (.inl hin)
          exact ⟨g, .inl hg, heq⟩
        · exact ⟨f, .inr (by simp), rfl⟩
        · obtain ⟨g, hg, heq⟩ := hold.mp (.inr hin)
          exact ⟨g, .inl hg, heq⟩
      · rintro ⟨g, hg | hg, heq⟩
        · rcases hold.mpr ⟨g, hg, heq⟩ with hin | hin
          · exact .inl hin
          · exact .inr (.inr hin)
        · simp only [List.not_mem_nil, or_false] at hg
          subst hg
          exact .inr (.inl heq.symm)
    · rw [hentries]
      have hapart := h.apart
      rw [hsplit] at hapart hhole
      obtain ⟨hapartFront, hapartBack, hacross⟩ := List.pairwise_append.mp hapart
      refine List.pairwise_append.mpr ⟨hapartFront, List.pairwise_cons.mpr ⟨?_, hapartBack⟩, ?_⟩
      · intro e he
        have hlt := hback e he
        rcases (hhole e (List.mem_append_right _ he)).2 with hbefore | hafter
        · omega
        · exact hafter
      · intro e he e' he'
        rcases List.mem_cons.mp he' with rfl | he'
        · have hlt := hfront e he
          rcases (hhole e (List.mem_append_left _ he)).2 with hbefore | hafter
          · exact hbefore
          · have hlong : f.offset ≤ f.finish := Nat.le_add_right _ _
            omega
        · exact hacross e he e' he'
  · cases hjudge

/-! ## Complete datagrams -/

/-- The fragments tile the payload, agree with it and on its length, and do not overlap. -/
structure Tiles (log : List Fragment) (payload : Bytes) : Prop where
  apart : ∀ f ∈ log, ∀ g ∈ log, f.Apart g
  covered : ∀ i < payload.length, ∃ f ∈ log, f.offset ≤ i ∧ i < f.finish
  bytes : ∀ f ∈ log, f.finish ≤ payload.length ∧
    (payload.drop f.offset).take f.payload.length = f.payload
  length : ∀ f ∈ log, f.more = false → f.finish = payload.length
  final : ∃ f ∈ log, f.more = false

/-- What pieces that follow each other hold. -/
theorem cursorFrom_spec {entries : List (ℕ × FragmentPiece)} :
    ∀ {cursor total : ℕ}, (∀ e ∈ entries, e.1 + e.2.data.length ≤ 65535) →
      FragmentState.cursorFrom cursor entries = some total →
      total = cursor + (entries.flatMap fun e ↦ e.2.data).length ∧
      (∀ e ∈ entries, cursor ≤ e.1 ∧ e.1 + e.2.data.length ≤ total ∧
        ((entries.flatMap fun e ↦ e.2.data).drop (e.1 - cursor)).take e.2.data.length =
          e.2.data) ∧
      ∀ i, cursor ≤ i → i < total → ∃ e ∈ entries, e.1 ≤ i ∧ i < e.1 + e.2.data.length := by
  induction entries with
  | nil =>
      intro cursor total _ h
      cases h
      refine ⟨by simp, fun e he ↦ (by cases he), fun i hle hlt ↦ ?_⟩
      omega
  | cons e entries ih =>
      obtain ⟨start, piece⟩ := e
      intro cursor total hends h
      rw [FragmentState.cursorFrom] at h
      split_ifs at h with hstart
      subst hstart
      have hend : start + piece.data.length ≤ 65535 := hends _ List.mem_cons_self
      rw [satAdd_of_le (hend.trans (by decide))] at h
      obtain ⟨hlength, hbytes, hcovered⟩ :=
        ih (fun e he ↦ hends e (List.mem_cons_of_mem _ he)) h
      rw [List.flatMap_cons]
      refine ⟨?_, fun e he ↦ ?_, fun i hle hlt ↦ ?_⟩
      · rw [List.length_append, hlength, Nat.add_assoc]
      · rcases List.mem_cons.mp he with rfl | he
        · refine ⟨le_rfl, by dsimp only; omega, ?_⟩
          rw [Nat.sub_self, List.drop_zero, List.take_left']
          rfl
        · obtain ⟨hfrom, hto, hslice⟩ := hbytes e he
          refine ⟨by omega, hto, ?_⟩
          rw [show e.1 - start = piece.data.length + (e.1 - (start + piece.data.length)) by omega,
            ← List.drop_drop, List.drop_left]
          exact hslice
      · by_cases hin : i < start + piece.data.length
        · exact ⟨_, List.mem_cons_self, hle, hin⟩
        · obtain ⟨e, he, hcover⟩ := hcovered i (not_lt.mp hin) hlt
          exact ⟨e, List.mem_cons_of_mem _ he, hcover⟩

theorem Gathers.tiles (h : Gathers s log) (hc : s.complete? = some payload) :
    Tiles log payload := by
  unfold FragmentState.complete? at hc
  split_ifs at hc with hcursor
  cases hc
  obtain ⟨hsome, hcursor⟩ := hcursor
  obtain ⟨total, htotal⟩ := Option.isSome_iff_exists.mp hsome
  rw [htotal] at hcursor
  obtain ⟨hlength, hbytes, hcovered⟩ := cursorFrom_spec (fun e he ↦ h.end_le he) hcursor
  rw [Nat.zero_add] at hlength
  have hfinals := h.total total htotal
  refine ⟨fun f hf g hg ↦ ?_, fun i hi ↦ ?_, fun f hf ↦ ?_, fun f hf hmore ↦ ?_, ?_⟩
  · have hpair : s.pieces.entries.Pairwise fun e e' ↦ e = e' ∨
        e.1 + e.2.data.length ≤ e'.1 ∨ e'.1 + e'.2.data.length ≤ e.1 :=
      h.apart.imp fun hle ↦ .inr (.inl hle)
    have hsymm : Std.Symm fun e e' : ℕ × FragmentPiece ↦ e = e' ∨
        e.1 + e.2.data.length ≤ e'.1 ∨ e'.1 + e'.2.data.length ≤ e.1 :=
      ⟨fun e e' h ↦ h.elim (fun h ↦ .inl h.symm) fun h ↦ .inr h.symm⟩
    rcases hpair.forall_of_forall (fun _ _ ↦ .inl rfl) (h.mem_entry hf) (h.mem_entry hg) with
      heq | hle
    · exact .inl (Fragment.entry_injective heq)
    · exact .inr hle
  · rw [← hlength] at hi
    obtain ⟨e, he, hle, hlt⟩ := hcovered i (Nat.zero_le _) hi
    obtain ⟨f, hf, rfl⟩ := (h.entries e).mp he
    exact ⟨f, hf, hle, hlt⟩
  · obtain ⟨-, hto, hslice⟩ := hbytes f.entry (h.mem_entry hf)
    rw [hlength] at hto
    exact ⟨hto, hslice⟩
  · have hdeclared := h.final f hf hmore
    rw [htotal] at hdeclared
    rw [← Option.some.inj hdeclared, hlength]
  · obtain ⟨f, hf, hmore, -⟩ := hfinals.1
    exact ⟨f, hf, hmore⟩

/-- Fragments that tile two payloads. -/
theorem Tiles.eq_of_subset {log log' : List Fragment} {payload payload' : Bytes}
    (h : Tiles log payload) (h' : Tiles log' payload') (hsub : log ⊆ log') :
    payload = payload' := by
  obtain ⟨last, hlast, hmore⟩ := h.final
  have hlength : payload.length = payload'.length := by
    rw [← h.length last hlast hmore, h'.length last (hsub hlast) hmore]
  refine List.ext_getElem hlength fun i hi hi' ↦ ?_
  obtain ⟨f, hf, hle, hlt⟩ := h.covered i hi
  have hbyte : ∀ v : Bytes, (v.drop f.offset).take f.payload.length = f.payload →
      ∀ hv : i < v.length, v[i]? = f.payload[i - f.offset]? := by
    intro v hv _
    rw [Fragment.finish] at hlt
    rw [← hv, List.getElem?_take_of_lt (by omega), List.getElem?_drop,
      Nat.add_sub_cancel' hle]
  have hsame := (hbyte payload (h.bytes f hf).2 hi).trans
    (hbyte payload' (h'.bytes f (hsub hf)).2 hi').symm
  rw [List.getElem?_eq_getElem hi, List.getElem?_eq_getElem hi'] at hsame
  exact Option.some.inj hsame

/-- Pieces that cover everything up to the end follow each other. -/
theorem cursorFrom_of_covered {entries : List (ℕ × FragmentPiece)} :
    ∀ {cursor total : ℕ}, cursor ≤ total → total ≤ 65535 →
      entries.Pairwise (fun e e' ↦ e.1 + e.2.data.length ≤ e'.1) →
      (∀ e ∈ entries, cursor ≤ e.1 ∧ e.1 + e.2.data.length ≤ total) →
      (∀ e ∈ entries, e.2.data ≠ []) →
      (∀ i, cursor ≤ i → i < total → ∃ e ∈ entries, e.1 ≤ i ∧ i < e.1 + e.2.data.length) →
      FragmentState.cursorFrom cursor entries = some total := by
  induction entries with
  | nil =>
      intro cursor total hle _ _ _ _ hcovered
      rw [FragmentState.cursorFrom, Option.some.injEq]
      by_contra hne
      obtain ⟨e, he, -⟩ := hcovered cursor le_rfl (by omega)
      cases he
  | cons e entries ih =>
      obtain ⟨start, piece⟩ := e
      intro cursor total hle hmax hapart hwithin hne hcovered
      obtain ⟨hhead, htail⟩ := List.pairwise_cons.mp hapart
      obtain ⟨hfrom, hto⟩ := hwithin _ List.mem_cons_self
      have hlong : 0 < piece.data.length := List.length_pos_iff.mpr (hne _ List.mem_cons_self)
      dsimp only at hhead hfrom hto
      have hstart : start = cursor := by
        obtain ⟨e, he, hbelow, -⟩ := hcovered cursor le_rfl (by omega)
        rcases List.mem_cons.mp he with rfl | he
        · exact le_antisymm hbelow hfrom
        · have hafter := hhead e he
          omega
      subst hstart
      rw [FragmentState.cursorFrom, if_pos rfl, satAdd_of_le ((hto.trans hmax).trans (by decide))]
      refine ih hto hmax htail (fun e he ↦ ⟨hhead e he,
        (hwithin e (List.mem_cons_of_mem _ he)).2⟩) (fun e he ↦ hne e (List.mem_cons_of_mem _ he))
        fun i hi hlt ↦ ?_
      obtain ⟨e, he, hcover⟩ := hcovered i (by omega) hlt
      rcases List.mem_cons.mp he with rfl | he
      · dsimp only at hcover
        omega
      · exact ⟨e, he, hcover⟩

/-! ## Divisions -/

/-- The fragments of a division of a payload from `offset` on. -/
def fragmentsFrom : ℕ → List Bytes → List Fragment
  | _, [] => []
  | offset, [piece] => [⟨offset, false, piece⟩]
  | offset, piece :: next :: pieces =>
      ⟨offset, true, piece⟩ :: fragmentsFrom (offset + piece.length) (next :: pieces)

/-- No piece is empty, and all but the last one have a length that is a multiple of eight. -/
def Aligned : List Bytes → Prop
  | [] => True
  | [piece] => piece ≠ []
  | piece :: next :: pieces => piece ≠ [] ∧ piece.length % 8 = 0 ∧ Aligned (next :: pieces)

/-- The fragments of a whole payload. -/
structure Division (payload : Bytes) (fragments : List Fragment) : Prop where
  tiles : Tiles fragments payload
  valid : ∀ f ∈ fragments, f.Valid
  nonempty : ∀ f ∈ fragments, f.payload ≠ []
  more : ∀ f ∈ fragments, f.more = true → f.finish < payload.length

theorem fragmentsFrom_spec {pieces : List Bytes} : ∀ {offset : ℕ}, Aligned pieces →
    (∀ f ∈ fragmentsFrom offset pieces, offset ≤ f.offset ∧
      f.finish ≤ offset + pieces.flatten.length ∧ f.payload ≠ [] ∧
      (f.more = true → f.payload.length % 8 = 0 ∧ f.finish < offset + pieces.flatten.length) ∧
      (f.more = false → f.finish = offset + pieces.flatten.length) ∧
      (pieces.flatten.drop (f.offset - offset)).take f.payload.length = f.payload) ∧
    (∀ f ∈ fragmentsFrom offset pieces, ∀ g ∈ fragmentsFrom offset pieces, f.Apart g) ∧
    (∀ i, offset ≤ i → i < offset + pieces.flatten.length →
      ∃ f ∈ fragmentsFrom offset pieces, f.offset ≤ i ∧ i < f.finish) ∧
    (pieces ≠ [] → ∃ f ∈ fragmentsFrom offset pieces, f.more = false) := by
  induction pieces with
  | nil =>
      intro offset _
      refine ⟨fun f hf ↦ (by cases hf), fun f hf ↦ (by cases hf), fun i hle hlt ↦ ?_,
        fun hne ↦ absurd rfl hne⟩
      simp at hlt
      omega
  | cons piece pieces ih =>
      intro offset haligned
      cases pieces with
      | nil =>
          simp only [fragmentsFrom, List.mem_singleton, List.flatten_cons, List.flatten_nil,
            List.append_nil, forall_eq, exists_eq_left]
          refine ⟨⟨le_rfl, le_rfl, haligned, fun h ↦ (by cases h), fun _ ↦ rfl, ?_⟩, .inl rfl,
            fun i hle hlt ↦ ⟨hle, hlt⟩, fun _ ↦ trivial⟩
          rw [Nat.sub_self, List.drop_zero, List.take_length]
      | cons next pieces =>
          obtain ⟨hne, hmultiple, hrest⟩ := haligned
          obtain ⟨heach, hapart, hcovered, hfinal⟩ := @ih (offset + piece.length) hrest
          have hlong : 0 < piece.length := List.length_pos_iff.mpr hne
          have hnext : 0 < (next :: pieces).flatten.length := by
            have hhead : next ≠ [] := by
              cases pieces with
              | nil => exact hrest
              | cons _ _ => exact hrest.1
            have hpos : 0 < next.length := List.length_pos_iff.mpr hhead
            rw [List.flatten_cons, List.length_append]
            omega
          have hsum : offset + (piece :: next :: pieces).flatten.length =
              offset + piece.length + (next :: pieces).flatten.length := by
            rw [List.flatten_cons, List.length_append, Nat.add_assoc]
          rw [hsum]
          simp only [fragmentsFrom, List.mem_cons]
          refine ⟨fun f hf ↦ ?_, fun f hf g hg ↦ ?_, fun i hle hlt ↦ ?_, fun _ ↦ ?_⟩
          · rcases hf with rfl | hf
            · refine ⟨le_rfl, Nat.le_add_right _ _, hne, fun _ ↦ ⟨hmultiple, ?_⟩,
                fun h ↦ (by cases h), ?_⟩
              · simp only [Fragment.finish]
                omega
              · rw [Nat.sub_self, List.drop_zero, List.flatten_cons, List.take_left']
                rfl
            · obtain ⟨hfrom, hto, hpayload, hmore, hlast, hslice⟩ := heach f hf
              refine ⟨by omega, hto, hpayload, hmore, hlast, ?_⟩
              rw [show f.offset - offset = piece.length + (f.offset - (offset + piece.length)) by
                omega, List.flatten_cons, ← List.drop_drop, List.drop_left]
              exact hslice
          · rcases hf with rfl | hf
            · rcases hg with rfl | hg
              · exact .inl rfl
              · exact .inr (.inl (heach g hg).1)
            · rcases hg with rfl | hg
              · exact .inr (.inr (heach f hf).1)
              · exact hapart f hf g hg
          · by_cases hin : i < offset + piece.length
            · exact ⟨_, .inl rfl, hle, hin⟩
            · obtain ⟨f, hf, hcover⟩ := hcovered i (not_lt.mp hin) hlt
              exact ⟨f, .inr hf, hcover⟩
          · obtain ⟨f, hf, hmore⟩ := hfinal (List.cons_ne_nil _ _)
            exact ⟨f, .inr hf, hmore⟩

theorem division_fragmentsFrom {pieces : List Bytes} (haligned : Aligned pieces)
    (hne : pieces ≠ []) (hlen : pieces.flatten.length ≤ 65535) :
    Division pieces.flatten (fragmentsFrom 0 pieces) := by
  obtain ⟨heach, hapart, hcovered, hfinal⟩ := @fragmentsFrom_spec pieces 0 haligned
  simp only [Nat.zero_add, Nat.sub_zero] at heach hcovered
  exact
    { tiles :=
        { apart := hapart
          covered := fun i hi ↦ hcovered i (Nat.zero_le _) hi
          bytes := fun f hf ↦ ⟨(heach f hf).2.1, (heach f hf).2.2.2.2.2⟩
          length := fun f hf ↦ (heach f hf).2.2.2.2.1
          final := hfinal hne }
      valid := fun f hf ↦ ⟨(heach f hf).2.1.trans hlen,
        fun hmore ↦ ⟨(heach f hf).2.2.1, ((heach f hf).2.2.2.1 hmore).1⟩⟩
      nonempty := fun f hf ↦ (heach f hf).2.2.1
      more := fun f hf hmore ↦ ((heach f hf).2.2.2.1 hmore).2 }

section Arrivals

variable {fragments : List Fragment}

theorem Division.eq_of_cover (h : Division payload fragments) {g : Fragment} {i : ℕ}
    (hf : f ∈ fragments) (hg : g ∈ fragments) (hfi : f.offset ≤ i ∧ i < f.finish)
    (hgi : g.offset ≤ i ∧ i < g.finish) : f = g := by
  rcases h.tiles.apart f hf g hg with heq | hle | hle
  · exact heq
  · omega
  · omega

theorem Division.offset_lt (h : Division payload fragments) (hf : f ∈ fragments) :
    f.offset < f.finish := by
  have hlong : 0 < f.payload.length := List.length_pos_iff.mpr (h.nonempty f hf)
  rw [Fragment.finish]
  omega

/-- A fragment of the payload is not refused. -/
theorem Gathers.exists_accept (h : Gathers s log) (hdivision : Division payload fragments)
    (hlog : log ⊆ fragments) (hf : f ∈ fragments) (wireLen : ℕ) :
    ∃ s', s.accept? f wireLen = some s' := by
  have hends : ∀ e ∈ s.pieces.entries, e.1 + e.2.data.length ≤ payload.length := by
    intro e he
    obtain ⟨g, hg, rfl⟩ := (h.entries e).mp he
    exact (hdivision.tiles.bytes g (hlog hg)).1
  have htotal : ∀ total ∈ s.totalLen, total = payload.length := by
    intro total hmem
    obtain ⟨⟨g, hg, hmore, rfl⟩, -⟩ := h.total total hmem
    exact hdivision.tiles.length g (hlog hg) hmore
  obtain ⟨d, hdeclare, hpieces, hdeclared⟩ : ∃ d, s.declare f.more f.finish = some d ∧
      d.pieces = s.pieces ∧ ∀ total ∈ d.totalLen, total = payload.length := by
    unfold FragmentState.declare
    cases hmore : f.more with
    | true => exact ⟨s, rfl, rfl, htotal⟩
    | false =>
        have hlength := hdivision.tiles.length f hf hmore
        rw [if_neg Bool.false_ne_true, if_neg, if_neg]
        · refine ⟨_, rfl, rfl, fun total hmem ↦ ?_⟩
          cases hmem
          exact hlength
        · rintro ⟨e, he, hbeyond⟩
          rw [h.satAdd_end he] at hbeyond
          have hend := hends e he
          omega
        · rintro ⟨total, hmem, hne⟩
          exact hne ((htotal total hmem).trans hlength.symm)
  have hinside : ¬∃ total ∈ d.totalLen, total < f.finish ∨ f.more = true ∧ total ≤ f.finish := by
    rintro ⟨total, hmem, hbad⟩
    rw [hdeclared total hmem] at hbad
    have hend := (hdivision.tiles.bytes f hf).1
    rcases hbad with hlt | ⟨hmore, hle⟩
    · omega
    · have hbefore := hdivision.more f hf hmore
      omega
  have hlt := hdivision.offset_lt hf
  rw [FragmentState.accept?, hdeclare, Option.bind_some]
  unfold FragmentState.judge
  rw [if_neg hinside, hpieces]
  cases hfind : s.pieces.entries.find? fun e ↦ decide (e.1 = f.offset) with
  | some e =>
      obtain ⟨g, hg, rfl⟩ := (h.entries e).mp (List.mem_of_find?_eq_some hfind)
      have hoffset : g.offset = f.offset := of_decide_eq_true (List.find?_some hfind :)
      have hlt' := hdivision.offset_lt (hlog hg)
      obtain rfl := hdivision.eq_of_cover hf (hlog hg) (i := f.offset) ⟨le_rfl, hlt⟩
        ⟨hoffset.le, by omega⟩
      simp [Fragment.entry]
  | none =>
      have hprevious : ¬((s.pieces.entries.filter fun e ↦ decide (e.1 < f.offset)).getLast?.any
          fun e ↦ decide (f.offset < satAdd e.1 e.2.data.length)) = true := by
        intro hany
        obtain ⟨e, hlast, hbeyond⟩ := (Option.any_eq_true _ _).mp hany
        obtain ⟨he, hbefore⟩ := List.mem_filter.mp (List.mem_of_getLast? hlast)
        simp only [decide_eq_true_eq] at hbefore hbeyond
        rw [h.satAdd_end he] at hbeyond
        obtain ⟨g, hg, rfl⟩ := (h.entries e).mp he
        obtain rfl := hdivision.eq_of_cover hf (hlog hg) (i := f.offset) ⟨le_rfl, hlt⟩
          ⟨hbefore.le, hbeyond⟩
        exact lt_irrefl _ hbefore
      have hfollowing : ¬((s.pieces.entries.find? fun e ↦ decide (f.offset ≤ e.1)).any
          fun e ↦ decide (e.1 < f.finish)) = true := by
        intro hany
        obtain ⟨e, hnext, hbefore⟩ := (Option.any_eq_true _ _).mp hany
        have he := List.mem_of_find?_eq_some hnext
        have hafter := List.find?_some hnext
        simp only [decide_eq_true_eq] at hafter hbefore
        obtain ⟨g, hg, rfl⟩ := (h.entries e).mp he
        obtain rfl := hdivision.eq_of_cover hf (hlog hg) (i := g.offset) ⟨hafter, hbefore⟩
          ⟨le_rfl, hdivision.offset_lt (hlog hg)⟩
        have hno := List.find?_eq_none.mp hfind _ he
        simp [Fragment.entry] at hno
      dsimp only
      rw [if_neg hprevious, if_neg hfollowing]
      exact ⟨_, rfl⟩

/-- The datagram is complete as soon as all fragments are there, and not before. -/
theorem Gathers.complete?_eq (h : Gathers s log) (hdivision : Division payload fragments)
    (hlog : log ⊆ fragments) (hlen : payload.length ≤ 65535) :
    (fragments ⊆ log → s.complete? = some payload) ∧
      (¬fragments ⊆ log → s.complete? = none) := by
  constructor
  · intro hall
    obtain ⟨f, hf, hmore⟩ := hdivision.tiles.final
    have htotal : s.totalLen = some payload.length := by
      rw [h.final f (hall hf) hmore, hdivision.tiles.length f hf hmore]
    have hmem : ∀ e, e ∈ s.pieces.entries ↔ ∃ f ∈ fragments, f.entry = e := by
      intro e
      rw [h.entries]
      exact ⟨fun ⟨f, hf, heq⟩ ↦ ⟨f, hlog hf, heq⟩, fun ⟨f, hf, heq⟩ ↦ ⟨f, hall hf, heq⟩⟩
    have hcursor : FragmentState.cursorFrom 0 s.pieces.entries = some payload.length := by
      refine cursorFrom_of_covered (Nat.zero_le _) hlen h.apart (fun e he ↦ ?_) (fun e he ↦ ?_)
        fun i _ hi ↦ ?_
      · obtain ⟨f, hf, rfl⟩ := (hmem e).mp he
        exact ⟨Nat.zero_le _, (hdivision.tiles.bytes f hf).1⟩
      · obtain ⟨f, hf, rfl⟩ := (hmem e).mp he
        exact hdivision.nonempty f hf
      · obtain ⟨f, hf, hcover⟩ := hdivision.tiles.covered i hi
        exact ⟨f.entry, (hmem _).mpr ⟨f, hf, rfl⟩, hcover⟩
    have hcomplete : s.complete? = some (s.pieces.entries.flatMap fun e ↦ e.2.data) := by
      rw [FragmentState.complete?, if_pos ⟨by rw [htotal]; rfl, by rw [hcursor, htotal]⟩]
    rw [hcomplete, Option.some.injEq]
    exact (h.tiles hcomplete).eq_of_subset hdivision.tiles hlog
  · intro hmissing
    cases hcomplete : s.complete? with
    | none => rfl
    | some whole =>
        exfalso
        refine hmissing fun f hf ↦ ?_
        have htiles := h.tiles hcomplete
        obtain ⟨last, hlast, hmore⟩ := htiles.final
        have hlength : whole.length = payload.length := by
          rw [← htiles.length last hlast hmore,
            hdivision.tiles.length last (hlog hlast) hmore]
        have hlt := hdivision.offset_lt hf
        have hend := (hdivision.tiles.bytes f hf).1
        obtain ⟨g, hg, hcover⟩ := htiles.covered f.offset (by omega)
        rwa [hdivision.eq_of_cover hf (hlog hg) ⟨le_rfl, hlt⟩ hcover]

end Arrivals

end State

/-! ## The cache -/

namespace FragmentCache

variable {c : FragmentCache} {key k : FragmentKey}

theorem find?_filter_key (states : List (FragmentKey × FragmentState)) (key k : FragmentKey) :
    (states.filter fun e ↦ decide (e.1 ≠ key)).find? (fun e ↦ decide (e.1 = k)) =
      if k = key then none else states.find? fun e ↦ decide (e.1 = k) := by
  induction states with
  | nil => simp
  | cons e states ih =>
      by_cases he : e.1 = key
      · rw [List.filter_cons_of_neg (by simpa using he), ih]
        by_cases hk : k = key
        · rw [if_pos hk, if_pos hk]
        · rw [if_neg hk, if_neg hk, List.find?_cons_of_neg]
          simpa [he] using Ne.symm hk
      · rw [List.filter_cons_of_pos (by simpa using he)]
        by_cases hek : e.1 = k
        · have hne : k ≠ key := fun h ↦ he (hek.trans h)
          rw [List.find?_cons_of_pos (by simpa using hek), if_neg hne,
            List.find?_cons_of_pos (by simpa using hek)]
        · rw [List.find?_cons_of_neg (by simpa using hek), ih,
            List.find?_cons_of_neg (by simpa using hek)]

theorem state?_removeKey (c : FragmentCache) (key k : FragmentKey) :
    (c.removeKey key).state? k = if k = key then none else c.state? k := by
  unfold removeKey
  cases hstate : c.state? key with
  | none =>
      dsimp only
      split_ifs with hk
      · rw [hk, hstate]
      · rfl
  | some s =>
      simp only [state?, find?_filter_key]
      split_ifs <;> rfl

theorem state?_setState (c : FragmentCache) (key : FragmentKey) (s : FragmentState)
    (k : FragmentKey) : (c.setState key s).state? k =
      if k = key then (c.state? key).map fun _ ↦ s else c.state? k := by
  simp only [state?, setState]
  induction c.states with
  | nil => simp
  | cons e states ih =>
      rw [List.map_cons]
      by_cases he : e.1 = key
      · rw [if_pos he]
        by_cases hk : k = key
        · subst hk
          rw [if_pos rfl, List.find?_cons_of_pos (by simp),
            List.find?_cons_of_pos (by simpa using he)]
          rfl
        · rw [if_neg hk] at ih ⊢
          rw [List.find?_cons_of_neg (by simpa using Ne.symm hk), ih,
            List.find?_cons_of_neg (by simpa [he] using Ne.symm hk)]
      · rw [if_neg he]
        by_cases hek : e.1 = k
        · have hk : k ≠ key := fun h ↦ he (hek.trans h)
          rw [if_neg hk, List.find?_cons_of_pos (by simpa using hek),
            List.find?_cons_of_pos (by simpa using hek)]
        · rw [List.find?_cons_of_neg (by simpa using hek), ih,
            List.find?_cons_of_neg (by simpa using he),
            List.find?_cons_of_neg (by simpa using hek)]

/-- The state of a datagram to which a fragment is added. -/
def entered (c : FragmentCache) (now : ℕ) (key : FragmentKey) : FragmentState :=
  match c.state? key with
  | some state => { state with lastSeen := now }
  | none => { lastSeen := now }

theorem enter_spec (c : FragmentCache) (now : ℕ) (key : FragmentKey) :
    (c.enter now key).2 = c.entered now key ∧ ((c.enter now key).1.state? key).isSome ∧
      ∀ k ≠ key, (c.enter now key).1.state? k = c.state? k := by
  unfold enter entered
  cases hstate : c.state? key with
  | some state => exact ⟨rfl, by rw [hstate]; rfl, fun k _ ↦ rfl⟩
  | none =>
      have hfind : c.states.find? (fun e ↦ decide (e.1 = key)) = none :=
        Option.map_eq_none_iff.mp hstate
      refine ⟨rfl, ?_, fun k hk ↦ ?_⟩
      · simp [state?, List.find?_append, hfind]
      · simp [state?, List.find?_append, Ne.symm hk]

/-- Removing datagrams one after another. -/
theorem state?_foldl_removeKey (keys : List FragmentKey) (c : FragmentCache) (k : FragmentKey) :
    (keys.foldl removeKey c).state? k = c.state? k ∨ (keys.foldl removeKey c).state? k = none := by
  induction keys generalizing c with
  | nil => exact .inl rfl
  | cons key keys ih =>
      rw [List.foldl_cons]
      rcases ih (c.removeKey key) with hsame | hgone
      · rw [hsame, state?_removeKey]
        split_ifs
        · exact .inr rfl
        · exact .inl rfl
      · exact .inr hgone

theorem maintenance_spec (c : FragmentCache) (now : ℕ) :
    (∀ k, (c.maintenance now).1.state? k = c.state? k ∨ (c.maintenance now).1.state? k = none) ∧
      (c.maintenance now).2.evicted = 0 ∧
      ((c.maintenance now).2.expired = 0 → ∀ k, (c.maintenance now).1.state? k = c.state? k) := by
  unfold maintenance
  split_ifs
  · exact ⟨fun k ↦ .inl rfl, rfl, fun _ k ↦ rfl⟩
  · refine ⟨fun k ↦ state?_foldl_removeKey _ _ k, rfl, fun hnone k ↦ ?_⟩
    dsimp only at hnone ⊢
    rw [List.length_eq_zero_iff.mp hnone]
    rfl

theorem evict_spec (rounds : ℕ) (c : FragmentCache) (m : FragmentMaintenance) :
    (∀ k, (evict rounds c m).1.state? k = c.state? k ∨ (evict rounds c m).1.state? k = none) ∧
      (evict rounds c m).2.expired = m.expired ∧
      (m.evicted ≤ u64Max → m.evicted ≤ (evict rounds c m).2.evicted) ∧
      ((evict rounds c m).2.evicted = 0 → (evict rounds c m).1 = c) := by
  induction rounds generalizing c m with
  | zero => exact ⟨fun k ↦ .inl rfl, rfl, fun _ ↦ le_rfl, fun _ ↦ rfl⟩
  | succ rounds ih =>
      rw [evict]
      split_ifs
      · cases c.oldest? with
        | none => exact ⟨fun k ↦ .inl rfl, rfl, fun _ ↦ le_rfl, fun _ ↦ rfl⟩
        | some key =>
            obtain ⟨hstates, hexpired, hmono, -⟩ :=
              ih (c.removeKey key) { m with evicted := satAdd m.evicted 1 }
            have hmono' := hmono (satAdd_le _ _)
            dsimp only at hmono' ⊢
            refine ⟨fun k ↦ ?_, hexpired, fun hle ↦ (le_satAdd hle).trans hmono', fun hzero ↦ ?_⟩
            · rcases hstates k with hsame | hgone
              · rw [hsame, state?_removeKey]
                split_ifs
                · exact .inr rfl
                · exact .inl rfl
              · exact .inr hgone
            · rw [hzero] at hmono'
              have hone : 1 ≤ satAdd m.evicted 1 := by
                unfold satAdd
                exact le_min (by omega) (by decide)
              omega
      · exact ⟨fun k ↦ .inl rfl, rfl, fun _ ↦ le_rfl, fun _ ↦ rfl⟩

theorem tryComplete_of_state (c : FragmentCache) {s : FragmentState}
    (hstate : c.state? key = some s) : c.tryComplete key =
      match s.complete? with
      | none => (c, .pending)
      | some payload => (c.removeKey key, .complete payload s.wireBytes) := by
  cases hcomplete : s.complete? <;> simp only [tryComplete, hstate, hcomplete]

/-- What a fragment gets as an answer. -/
def answer (s : FragmentState) : FragmentInsert :=
  match s.complete? with
  | none => .pending
  | some payload => .complete payload s.wireBytes

/-- What is left of the state of a datagram after the answer. -/
def remaining (s : FragmentState) : Option FragmentState :=
  if s.complete?.isSome then none else some s

def Dropped (r : FragmentInsert) : Prop := r = .droppedInvalid ∨ r = .droppedOverlap

/-- A cache after a fragment for `key` that made its state `s`, before anything is evicted. -/
theorem tryComplete_spec (c : FragmentCache) {s : FragmentState}
    (hstate : c.state? key = some s) : (c.tryComplete key).2 = answer s ∧
      (c.tryComplete key).1.state? key = remaining s ∧
      (∀ k ≠ key, (c.tryComplete key).1.state? k = c.state? k) := by
  rw [tryComplete_of_state c hstate]
  unfold answer remaining
  cases s.complete? with
  | none => exact ⟨rfl, hstate, fun k _ ↦ rfl⟩
  | some payload =>
      refine ⟨rfl, ?_, fun k hk ↦ ?_⟩
      · rw [state?_removeKey, if_pos rfl]
        rfl
      · rw [state?_removeKey, if_neg hk]

/-- A fragment that is not refused. -/
theorem insert_of_accept (c : FragmentCache) (now : ℕ) (key : FragmentKey) {f : Fragment}
    (hf : f.Valid) {wireLen : ℕ} {s : FragmentState}
    (ha : ((c.maintenance now).1.entered now key).accept? f wireLen = some s) :
    (c.insert now key f.offset f.more f.payload wireLen).2.1 = answer s ∧
      (c.insert now key f.offset f.more f.payload wireLen).2.2.expired =
        (c.maintenance now).2.expired ∧
      (∀ k, (c.insert now key f.offset f.more f.payload wireLen).1.state? k =
          (if k = key then remaining s else (c.maintenance now).1.state? k) ∨
        (c.insert now key f.offset f.more f.payload wireLen).1.state? k = none) ∧
      ((c.insert now key f.offset f.more f.payload wireLen).2.2.evicted = 0 →
        ∀ k, (c.insert now key f.offset f.more f.payload wireLen).1.state? k =
          if k = key then remaining s else (c.maintenance now).1.state? k) := by
  obtain ⟨hentered, hsome, hothers⟩ := (c.maintenance now).1.enter_spec now key
  obtain ⟨d, hdeclare, hjudge⟩ := Option.bind_eq_some_iff.mp ha
  have hfits : ¬u64Max < f.offset + f.payload.length := not_lt.mpr (hf.finish_le.trans (by decide))
  have hvalid : ¬(65535 < f.offset + f.payload.length ∨
      f.more = true ∧ (f.payload = [] ∨ f.payload.length % 8 ≠ 0)) := by
    rintro (hlong | ⟨hmore, hbad⟩)
    · exact absurd hf.finish_le (not_le.mpr hlong)
    · rcases hbad with hempty | hmultiple
      · exact (hf.aligned hmore).1 hempty
      · exact hmultiple (hf.aligned hmore).2
  unfold insert
  dsimp only
  rw [if_neg hfits, if_neg hvalid]
  rw [← hentered] at hdeclare
  change FragmentState.declare _ f.more (f.offset + f.payload.length) = some d at hdeclare
  rw [hdeclare]
  dsimp only
  have hd : (((c.maintenance now).1.enter now key).1.setState key d).state? key = some d := by
    obtain ⟨s₀, hs₀⟩ := Option.isSome_iff_exists.mp hsome
    rw [state?_setState, if_pos rfl, hs₀]
    rfl
  have hothers' : ∀ (s' : FragmentState) (k : FragmentKey), k ≠ key →
      (((c.maintenance now).1.enter now key).1.setState key s').state? k =
        (c.maintenance now).1.state? k := by
    intro s' k hk
    rw [state?_setState, if_neg hk, hothers k hk]
  split at hjudge
  next hverdict =>
    cases hjudge
    change FragmentState.judge _ f.offset (f.offset + f.payload.length) f.more f.payload = _
      at hverdict
    rw [hverdict]
    obtain ⟨hanswer, hstate, hrest⟩ := tryComplete_spec _ hd
    have hall : ∀ k, ((((c.maintenance now).1.enter now key).1.setState key s).tryComplete
        key).1.state? k = if k = key then remaining s else (c.maintenance now).1.state? k := by
      intro k
      split_ifs with hk
      · rw [hk, hstate]
      · rw [hrest k hk, hothers' s k hk]
    exact ⟨hanswer, rfl, fun k ↦ .inl (hall k), fun _ ↦ hall⟩
  next hverdict =>
    cases hjudge
    change FragmentState.judge _ f.offset (f.offset + f.payload.length) f.more f.payload = _
      at hverdict
    rw [hverdict]
    dsimp only
    generalize hadded : d.add f.offset f.more f.payload wireLen = s
    obtain ⟨bytes, hbytes⟩ : ∃ bytes, bytes =
        satAdd (((c.maintenance now).1.enter now key).1.setState key d).bytes
          (satAdd f.payload.length fragmentPieceOverhead) := ⟨_, rfl⟩
    rw [← hbytes]
    obtain ⟨c₂, hcache⟩ : ∃ c₂ : FragmentCache, c₂ =
        { (((c.maintenance now).1.enter now key).1.setState key d).setState key s with
          bytes := bytes } := ⟨_, rfl⟩
    rw [← hcache]
    have hstates : ∀ k, c₂.state? k =
        ((((c.maintenance now).1.enter now key).1.setState key d).setState key s).state? k := by
      intro k
      rw [hcache]
      rfl
    have hkey : c₂.state? key = some s := by
      rw [hstates, state?_setState, if_pos rfl, hd]
      rfl
    obtain ⟨hanswer, hstate, hrest⟩ := tryComplete_spec c₂ hkey
    have hall : ∀ k, (c₂.tryComplete key).1.state? k =
        if k = key then remaining s else (c.maintenance now).1.state? k := by
      intro k
      split_ifs with hk
      · rw [hk, hstate]
      · rw [hrest k hk, hstates, state?_setState, if_neg hk, hothers' d k hk]
    rcases htry : c₂.tryComplete key with ⟨c₃, _ | ⟨payload, wire⟩ | _ | _⟩
    · rw [htry] at hanswer hall
      obtain ⟨hkept, hexpired, -, hquiet⟩ :=
        evict_spec (c₃.states.length + 1) c₃ (c.maintenance now).2
      dsimp only at hanswer hall ⊢
      refine ⟨hanswer, hexpired, fun k ↦ ?_, fun hzero k ↦ ?_⟩
      · rw [← hall k]
        exact hkept k
      · rw [hquiet hzero, hall k]
    all_goals
      rw [htry] at hanswer hall
      exact ⟨hanswer, rfl, fun k ↦ .inl (hall k), fun _ ↦ hall⟩
  · cases hjudge

/-- A fragment that is refused. -/
theorem insert_of_refused (c : FragmentCache) (now : ℕ) (key : FragmentKey) {f : Fragment}
    {wireLen : ℕ}
    (hf : f.Valid → ((c.maintenance now).1.entered now key).accept? f wireLen = none) :
    Dropped (c.insert now key f.offset f.more f.payload wireLen).2.1 ∧
      (c.insert now key f.offset f.more f.payload wireLen).2.2 = (c.maintenance now).2 ∧
      (∀ k, (c.insert now key f.offset f.more f.payload wireLen).1.state? k =
          (c.maintenance now).1.state? k ∨
        (c.insert now key f.offset f.more f.payload wireLen).1.state? k = none) ∧
      ∀ k ≠ key, (c.insert now key f.offset f.more f.payload wireLen).1.state? k =
        (c.maintenance now).1.state? k := by
  obtain ⟨hentered, -, hothers⟩ := (c.maintenance now).1.enter_spec now key
  have hremoved : ∀ c' : FragmentCache,
      (∀ k ≠ key, c'.state? k = (c.maintenance now).1.state? k) →
      (∀ k, (c'.removeKey key).state? k = (c.maintenance now).1.state? k ∨
        (c'.removeKey key).state? k = none) ∧
      ∀ k ≠ key, (c'.removeKey key).state? k = (c.maintenance now).1.state? k := by
    intro c' hsame
    refine ⟨fun k ↦ ?_, fun k hk ↦ ?_⟩
    · rw [state?_removeKey]
      split_ifs with hk
      · exact .inr rfl
      · exact .inl (hsame k hk)
    · rw [state?_removeKey, if_neg hk, hsame k hk]
  have hset : ∀ (s : FragmentState), ∀ k ≠ key,
      (((c.maintenance now).1.enter now key).1.setState key s).state? k =
        (c.maintenance now).1.state? k := by
    intro s k hk
    rw [state?_setState, if_neg hk, hothers k hk]
  unfold insert
  dsimp only
  by_cases hfits : u64Max < f.offset + f.payload.length
  · rw [if_pos hfits]
    exact ⟨.inl rfl, rfl, fun k ↦ .inl rfl, fun k _ ↦ rfl⟩
  · rw [if_neg hfits]
    by_cases hbad : 65535 < f.offset + f.payload.length ∨
        f.more = true ∧ (f.payload = [] ∨ f.payload.length % 8 ≠ 0)
    · rw [if_pos hbad]
      obtain ⟨hall, hrest⟩ := hremoved (c.maintenance now).1 fun k _ ↦ rfl
      exact ⟨.inl rfl, rfl, hall, hrest⟩
    · rw [if_neg hbad]
      have hvalid : f.Valid := by
        refine ⟨not_lt.mp fun hlong ↦ hbad (.inl hlong), fun hmore ↦ ⟨fun hempty ↦ ?_, ?_⟩⟩
        · exact hbad (.inr ⟨hmore, .inl hempty⟩)
        · by_contra hmultiple
          exact hbad (.inr ⟨hmore, .inr hmultiple⟩)
      have hrefused := hf hvalid
      rw [FragmentState.accept?, ← hentered] at hrefused
      change Option.bind (FragmentState.declare _ f.more (f.offset + f.payload.length)) _ = none
        at hrefused
      cases hdeclare : ((c.maintenance now).1.enter now key).2.declare f.more
          (f.offset + f.payload.length) with
      | none =>
          obtain ⟨hall, hrest⟩ := hremoved _ (hset ((c.maintenance now).1.enter now key).2)
          exact ⟨.inl rfl, rfl, hall, hrest⟩
      | some d =>
          rw [hdeclare, Option.bind_some] at hrefused
          dsimp only
          obtain ⟨hall, hrest⟩ := hremoved _ (hset d)
          change (match d.judge f.offset (f.offset + f.payload.length) f.more f.payload with
            | .duplicate => some d
            | .new => some (d.add f.offset f.more f.payload wireLen)
            | _ => none) = none at hrefused
          cases hjudge : d.judge f.offset (f.offset + f.payload.length) f.more f.payload with
          | invalid => exact ⟨.inl rfl, rfl, hall, hrest⟩
          | overlap => exact ⟨.inr rfl, rfl, hall, hrest⟩
          | duplicate =>
              rw [hjudge] at hrefused
              cases hrefused
          | new =>
              rw [hjudge] at hrefused
              cases hrefused

end FragmentCache

/-! ## Runs -/

/-- A call of the cache. -/
structure Arrival where
  now : ℕ
  key : FragmentKey
  fragment : Fragment
  wireLen : ℕ

def FragmentCache.receive (c : FragmentCache) (a : Arrival) :
    FragmentCache × FragmentInsert × FragmentMaintenance :=
  c.insert a.now a.key a.fragment.offset a.fragment.more a.fragment.payload a.wireLen

/-- The fragments that were accepted for each key since its state was made. -/
structure Accepted where
  cache : FragmentCache
  log : FragmentKey → List Fragment := fun _ ↦ []

def Accepted.receive (t : Accepted) (a : Arrival) : Accepted :=
  { cache := (t.cache.receive a).1
    log := match (t.cache.receive a).2.1 with
      | .droppedInvalid | .droppedOverlap => t.log
      | _ =>
          let before := if ((t.cache.maintenance a.now).1.state? a.key).isSome then t.log a.key
            else []
          Function.update t.log a.key (before ++ [a.fragment]) }

/-- Every state that is kept was made from the fragments accepted for it. -/
def Accepted.Sound (t : Accepted) : Prop :=
  ∀ key s, t.cache.state? key = some s → Gathers s (t.log key)

section Runs

variable {t : Accepted} {a : Arrival}

theorem answer_not_dropped (s : FragmentState) : ¬FragmentCache.Dropped (FragmentCache.answer s) := by
  unfold FragmentCache.answer
  rintro (h | h) <;> split at h <;> cases h

theorem Accepted.log_of_dropped (h : FragmentCache.Dropped (t.cache.receive a).2.1) :
    (t.receive a).log = t.log := by
  unfold receive
  dsimp only
  rcases h with h | h <;> rw [h]

/-- The fragments of the state to which a fragment is added. -/
theorem Accepted.Sound.entered (h : t.Sound) (a : Arrival) :
    Gathers ((t.cache.maintenance a.now).1.entered a.now a.key)
      (if ((t.cache.maintenance a.now).1.state? a.key).isSome then t.log a.key else []) := by
  unfold FragmentCache.entered
  cases hstate : (t.cache.maintenance a.now).1.state? a.key with
  | none => exact gathers_nil a.now
  | some s =>
      rcases (t.cache.maintenance_spec a.now).1 a.key with hsame | hgone
      · rw [hsame] at hstate
        exact (h a.key s hstate).touch a.now
      · rw [hgone] at hstate
        cases hstate

/-- Either a fragment is refused, or it joins the others of its datagram. -/
theorem Accepted.Sound.cases (h : t.Sound) (a : Arrival) :
    (FragmentCache.Dropped (t.cache.receive a).2.1 ∧ (t.receive a).Sound) ∨
      ∃ s, (t.cache.receive a).2.1 = FragmentCache.answer s ∧
        Gathers s ((t.receive a).log a.key) ∧ (t.receive a).Sound := by
  have hkept : ∀ k s, (t.cache.maintenance a.now).1.state? k = some s → Gathers s (t.log k) := by
    intro k s hs
    rcases (t.cache.maintenance_spec a.now).1 k with hsame | hgone
    · exact h k s (hsame ▸ hs)
    · rw [hgone] at hs
      cases hs
  by_cases hrefused : a.fragment.Valid →
      ((t.cache.maintenance a.now).1.entered a.now a.key).accept? a.fragment a.wireLen = none
  · obtain ⟨hdropped, -, hstates, -⟩ := t.cache.insert_of_refused a.now a.key hrefused
    refine .inl ⟨hdropped, fun k s hs ↦ ?_⟩
    rw [Accepted.log_of_dropped hdropped]
    rcases hstates k with hsame | hgone
    · exact hkept k s (hsame ▸ hs)
    · cases hgone.symm.trans hs
  · obtain ⟨hvalid, hsome⟩ := Classical.not_imp.mp hrefused
    obtain ⟨s, hs⟩ := Option.ne_none_iff_exists'.mp hsome
    obtain ⟨hanswer, -, hstates, -⟩ := t.cache.insert_of_accept a.now a.key hvalid hs
    have hgathers := (h.entered a).accept hvalid hs
    have hlog : (t.receive a).log = Function.update t.log a.key
        ((if ((t.cache.maintenance a.now).1.state? a.key).isSome then t.log a.key else []) ++
          [a.fragment]) := by
      have hnot := answer_not_dropped s
      change (match (t.cache.receive a).2.1 with
        | .droppedInvalid | .droppedOverlap => t.log
        | _ => _) = _
      change (t.cache.receive a).2.1 = _ at hanswer
      rw [hanswer]
      cases hcase : FragmentCache.answer s with
      | pending => rfl
      | complete payload wire => rfl
      | droppedOverlap => exact absurd (.inr hcase) hnot
      | droppedInvalid => exact absurd (.inl hcase) hnot
    refine .inr ⟨s, hanswer, ?_, fun k s' hs' ↦ ?_⟩
    · rw [hlog, Function.update_self]
      exact hgathers
    · rw [hlog]
      rcases hstates k with hsame | hgone
      · change (t.receive a).cache.state? k = _ at hsame
        rw [hsame] at hs'
        split_ifs at hs' with hk
        · subst hk
          rw [Function.update_self]
          unfold FragmentCache.remaining at hs'
          split_ifs at hs'
          cases hs'
          exact hgathers
        · rw [Function.update_of_ne hk]
          exact hkept k s' hs'
      · cases hgone.symm.trans hs'

theorem Accepted.sound_run (t : Accepted) (h : t.Sound) (arrivals : List Arrival) :
    (runFrom Accepted.receive t arrivals).Sound := by
  induction arrivals generalizing t with
  | nil => exact h
  | cons a arrivals ih =>
      rw [runFrom_cons]
      rcases h.cases a with ⟨-, hsound⟩ | ⟨s, -, -, hsound⟩
      · exact ih _ hsound
      · exact ih _ hsound

/-- What is handed on is tiled by the accepted fragments, in every run. -/
theorem tiles_of_complete (t : Accepted) (h : t.Sound) (a : Arrival) {payload : Bytes} {wire : ℕ}
    (hcomplete : (t.cache.receive a).2.1 = .complete payload wire) :
    Tiles ((t.receive a).log a.key) payload := by
  rcases h.cases a with ⟨hdropped, -⟩ | ⟨s, hanswer, hgathers, -⟩
  · rw [hcomplete] at hdropped
    rcases hdropped with hbad | hbad <;> cases hbad
  · refine hgathers.tiles ?_
    rw [hanswer] at hcomplete
    unfold FragmentCache.answer at hcomplete
    split at hcomplete
    · cases hcomplete
    next whole hwhole =>
      cases hcomplete
      exact hwhole

/-- Nothing expires and nothing is evicted during the calls. -/
def Undisturbed : FragmentCache → List Arrival → Prop
  | _, [] => True
  | c, a :: arrivals => (c.receive a).2.2 = {} ∧ Undisturbed (c.receive a).1 arrivals

def keyFragments (key : FragmentKey) (arrivals : List Arrival) : List Fragment :=
  (arrivals.filter fun a ↦ decide (a.key = key)).map (·.fragment)

/-- The cache has what the fragments made. -/
def Holds (c : FragmentCache) (key : FragmentKey) (log : List Fragment) : Prop :=
  log = [] ∧ c.state? key = none ∨ ∃ s, c.state? key = some s ∧ Gathers s log

variable {c : FragmentCache} {key : FragmentKey} {log fragments : List Fragment} {payload : Bytes}

theorem Holds.entered (h : Holds c key log) (now : ℕ)
    (hsame : (c.maintenance now).1.state? key = c.state? key) :
    Gathers ((c.maintenance now).1.entered now key) log := by
  unfold FragmentCache.entered
  rw [hsame]
  rcases h with ⟨rfl, hnone⟩ | ⟨s, hs, hgathers⟩
  · rw [hnone]
    exact gathers_nil now
  · rw [hs]
    exact hgathers.touch now

theorem expired_of_quiet (hquiet : (c.receive a).2.2 = {}) :
    (c.maintenance a.now).2.expired = 0 := by
  by_cases hrefused : a.fragment.Valid →
      ((c.maintenance a.now).1.entered a.now a.key).accept? a.fragment a.wireLen = none
  · obtain ⟨-, hupkeep, -, -⟩ := c.insert_of_refused a.now a.key hrefused
    rw [← hupkeep]
    exact congrArg FragmentMaintenance.expired hquiet
  · obtain ⟨hvalid, hsome⟩ := Classical.not_imp.mp hrefused
    obtain ⟨s, hs⟩ := Option.ne_none_iff_exists'.mp hsome
    obtain ⟨-, hupkeep, -, -⟩ := c.insert_of_accept a.now a.key hvalid hs
    rw [← hupkeep]
    exact congrArg FragmentMaintenance.expired hquiet

/-- A call for another datagram. -/
theorem Holds.receive_of_ne (h : Holds c key log) (hne : a.key ≠ key)
    (hquiet : (c.receive a).2.2 = {}) : Holds (c.receive a).1 key log := by
  have hsame := (c.maintenance_spec a.now).2.2 (expired_of_quiet hquiet) key
  have hstate : (c.receive a).1.state? key = c.state? key := by
    by_cases hrefused : a.fragment.Valid →
        ((c.maintenance a.now).1.entered a.now a.key).accept? a.fragment a.wireLen = none
    · obtain ⟨-, -, -, hothers⟩ := c.insert_of_refused a.now a.key hrefused
      exact (hothers key hne.symm).trans hsame
    · obtain ⟨hvalid, hsome⟩ := Classical.not_imp.mp hrefused
      obtain ⟨s, hs⟩ := Option.ne_none_iff_exists'.mp hsome
      obtain ⟨-, -, -, hall⟩ := c.insert_of_accept a.now a.key hvalid hs
      have hkey := hall (congrArg FragmentMaintenance.evicted hquiet) key
      rw [if_neg hne.symm] at hkey
      exact hkey.trans hsame
  unfold Holds
  rwa [hstate]

/-- A call for the datagram. -/
theorem Holds.receive (h : Holds c a.key log) (hdivision : Division payload fragments)
    (hlen : payload.length ≤ 65535) (hlog : log ⊆ fragments) (hf : a.fragment ∈ fragments)
    (hquiet : (c.receive a).2.2 = {}) :
    (fragments ⊆ log ++ [a.fragment] → ∃ wire, (c.receive a).2.1 = .complete payload wire) ∧
      (¬fragments ⊆ log ++ [a.fragment] → (c.receive a).2.1 = .pending ∧
        Holds (c.receive a).1 a.key (log ++ [a.fragment])) := by
  have hentered := h.entered a.now ((c.maintenance_spec a.now).2.2
    (expired_of_quiet hquiet) a.key)
  obtain ⟨s, hs⟩ := hentered.exists_accept hdivision hlog hf a.wireLen
  have hvalid := hdivision.valid _ hf
  obtain ⟨hanswer, -, -, hall⟩ := c.insert_of_accept a.now a.key hvalid hs
  change (c.receive a).2.1 = _ at hanswer
  have hkey := hall (congrArg FragmentMaintenance.evicted hquiet) a.key
  change (c.receive a).1.state? a.key = _ at hkey
  rw [if_pos rfl] at hkey
  have hgathers := hentered.accept hvalid hs
  have hsub : log ++ [a.fragment] ⊆ fragments := by
    intro g hg
    rcases List.mem_append.mp hg with hg | hg
    · exact hlog hg
    · rwa [List.mem_singleton.mp hg]
  obtain ⟨hwhole, hpart⟩ := hgathers.complete?_eq hdivision hsub hlen
  refine ⟨fun hcovered ↦ ⟨s.wireBytes, ?_⟩, fun hopen ↦ ⟨?_, .inr ⟨s, ?_, hgathers⟩⟩⟩
  · rw [hanswer, FragmentCache.answer, hwhole hcovered]
  · rw [hanswer, FragmentCache.answer, hpart hopen]
  · rw [hkey, FragmentCache.remaining, hpart hopen]
    rfl

theorem keyFragments_cons_self (a : Arrival) (arrivals : List Arrival) :
    keyFragments a.key (a :: arrivals) = a.fragment :: keyFragments a.key arrivals := by
  simp [keyFragments]

theorem keyFragments_cons_of_ne (hne : a.key ≠ key) (arrivals : List Arrival) :
    keyFragments key (a :: arrivals) = keyFragments key arrivals := by
  simp [keyFragments, hne]

/-- The answer to a fragment after others of the same payload. -/
theorem Holds.answer (hdivision : Division payload fragments) (hlen : payload.length ≤ 65535)
    (a : Arrival) (hf : a.fragment ∈ fragments) (arrivals : List Arrival) :
    ∀ (c : FragmentCache) (log : List Fragment), Holds c a.key log → log ⊆ fragments →
      (∀ b ∈ arrivals, b.key = a.key → b.fragment ∈ fragments) →
      Undisturbed c (arrivals ++ [a]) → ¬fragments ⊆ log ++ keyFragments a.key arrivals →
      (fragments ⊆ log ++ keyFragments a.key arrivals ++ [a.fragment] →
        ∃ wire, ((runFrom (fun c b ↦ (c.receive b).1) c arrivals).receive a).2.1 =
          .complete payload wire) ∧
      (¬fragments ⊆ log ++ keyFragments a.key arrivals ++ [a.fragment] →
        ((runFrom (fun c b ↦ (c.receive b).1) c arrivals).receive a).2.1 = .pending) := by
  induction arrivals with
  | nil =>
      intro c log h hlog _ hquiet hmissing
      simp only [keyFragments, List.filter_nil, List.map_nil, List.append_nil] at hmissing ⊢
      obtain ⟨hwhole, hpart⟩ := h.receive hdivision hlen hlog hf hquiet.1
      exact ⟨hwhole, fun hopen ↦ (hpart hopen).1⟩
  | cons b arrivals ih =>
      intro c log h hlog hfrom hquiet hmissing
      rw [runFrom_cons]
      have hrest : ∀ b' ∈ arrivals, b'.key = a.key → b'.fragment ∈ fragments :=
        fun b' hb' ↦ hfrom b' (List.mem_cons_of_mem _ hb')
      by_cases hkey : b.key = a.key
      · rw [← hkey] at hmissing h ⊢
        have happend : ∀ rest, log ++ b.fragment :: rest = log ++ [b.fragment] ++ rest :=
          fun rest ↦ by simp
        rw [keyFragments_cons_self, happend] at hmissing ⊢
        have hb := hfrom b List.mem_cons_self hkey
        have hopen : ¬fragments ⊆ log ++ [b.fragment] := fun hall ↦
          hmissing fun g hg ↦ List.mem_append_left _ (hall hg)
        have hnext := (h.receive hdivision hlen hlog hb hquiet.1).2 hopen
        have hsub : log ++ [b.fragment] ⊆ fragments := by
          intro g hg
          rcases List.mem_append.mp hg with hg | hg
          · exact hlog hg
          · rwa [List.mem_singleton.mp hg]
        rw [hkey] at hnext hmissing ⊢
        exact ih _ _ hnext.2 hsub hrest hquiet.2 hmissing
      · rw [keyFragments_cons_of_ne hkey] at hmissing ⊢
        exact ih _ _ (h.receive_of_ne hkey hquiet.1) hlog hrest hquiet.2 hmissing

theorem sound_new (maxBytes maxDatagrams timeout now : ℕ) :
    Accepted.Sound { cache := FragmentCache.new maxBytes maxDatagrams timeout now } := by
  intro key s hs
  cases hs

/-- The call with the last missing fragment of a payload completes it, and no call before it.
Whatever is completed is tiled by the fragments that were accepted for it. -/
theorem reassembles :
    (∀ (pieces : List Bytes), Aligned pieces → pieces.flatten.length ≤ 65535 →
      ∀ (c : FragmentCache) (arrivals : List Arrival) (a : Arrival), c.state? a.key = none →
        (∀ b ∈ arrivals ++ [a], b.key = a.key → b.fragment ∈ fragmentsFrom 0 pieces) →
        Undisturbed c (arrivals ++ [a]) →
        ¬fragmentsFrom 0 pieces ⊆ keyFragments a.key arrivals →
        (fragmentsFrom 0 pieces ⊆ keyFragments a.key arrivals ++ [a.fragment] →
          ∃ wire, ((runFrom (fun c b ↦ (c.receive b).1) c arrivals).receive a).2.1 =
            .complete pieces.flatten wire) ∧
        (¬fragmentsFrom 0 pieces ⊆ keyFragments a.key arrivals ++ [a.fragment] →
          ((runFrom (fun c b ↦ (c.receive b).1) c arrivals).receive a).2.1 = .pending)) ∧
    ∀ (maxBytes maxDatagrams timeout now : ℕ) (arrivals : List Arrival) (a : Arrival)
      (payload : Bytes) (wire : ℕ) (t : Accepted),
      t = runFrom Accepted.receive
        { cache := FragmentCache.new maxBytes maxDatagrams timeout now } arrivals →
      (t.cache.receive a).2.1 = .complete payload wire →
      Tiles ((t.receive a).log a.key) payload := by
  refine ⟨fun pieces haligned hlen c arrivals a hnone hfrom hquiet hmissing ↦ ?_, ?_⟩
  · have hf : a.fragment ∈ fragmentsFrom 0 pieces := hfrom a (by simp) rfl
    have hne : pieces ≠ [] := by
      rintro rfl
      cases hf
    exact Holds.answer (division_fragmentsFrom haligned hne hlen) hlen a hf arrivals c []
      (.inl ⟨rfl, hnone⟩) (List.nil_subset _) (fun b hb ↦ hfrom b (List.mem_append_left _ hb))
      hquiet hmissing
  · rintro maxBytes maxDatagrams timeout now arrivals a payload wire t rfl hcomplete
    exact tiles_of_complete _
      (Accepted.sound_run _ (sound_new maxBytes maxDatagrams timeout now) arrivals) a hcomplete

def datagramKey : FragmentKey where
  version := 4
  l2Domain := 0
  src := .v4 1
  dst := .v4 2
  id := 7
  nextHeader := 6

/-- Two fragments of eight bytes and a final one of two. -/
def threePieces : List Bytes :=
  [List.replicate 8 97, List.replicate 8 98, [99, 100]]

def arrival (now : ℕ) (fragment : Fragment) : Arrival :=
  { now := now, key := datagramKey, fragment := fragment, wireLen := 28 }

/-- The final fragment comes first, and twice, the first one last. -/
theorem reassembles_threePieces :
    ∃ wire, ((runFrom (fun c b ↦ (FragmentCache.receive c b).1)
      (FragmentCache.new 65536 16 30000000000 0)
      [arrival 1 ⟨16, false, [99, 100]⟩, arrival 2 ⟨8, true, List.replicate 8 98⟩,
        arrival 3 ⟨16, false, [99, 100]⟩]).receive
      (arrival 4 ⟨0, true, List.replicate 8 97⟩)).2.1 = .complete threePieces.flatten wire := by
  refine (reassembles.1 threePieces ⟨by decide, by decide, by decide, by decide,
    List.cons_ne_nil _ _⟩ (by decide) _ _ _ ?_ ?_ ?_ ?_).1 ?_
  · rfl
  · simp only [List.cons_append, List.nil_append, List.mem_cons, List.not_mem_nil, or_false,
      forall_eq_or_imp, forall_eq]
    decide +kernel
  · refine ⟨?_, ?_, ?_, ?_, trivial⟩ <;> decide +kernel
  · decide +kernel
  · decide +kernel

end Runs

end Bazalt.Capture
