import Mathlib.Data.List.Infix
import Mathlib.Tactic

/-!
# Non-overlapping search for several words

A search hands out the hit that ends first; the next search starts where that hit
ended.  A word that occurs in the text can therefore be passed over, because the hit of
another word lies across every one of its occurrences.  This happens in some text
exactly when two of the words overlap.
-/

namespace Bazalt.Lib

variable {α : Type*}

/-- The word stands in the text from position `s` on. -/
def OccursAt (word text : List α) (s : ℕ) : Prop := word <+: text.drop s

instance [DecidableEq α] (word text : List α) (s : ℕ) : Decidable (OccursAt word text s) :=
  inferInstanceAs (Decidable (word <+: text.drop s))

theorem OccursAt.end_le {word text : List α} {s : ℕ} (h : OccursAt word text s)
    (hne : word ≠ []) : s + word.length ≤ text.length := by
  have hlen := h.length_le
  have hpos := List.length_pos_iff.mpr hne
  rw [List.length_drop] at hlen
  omega

theorem occursAt_append_left {word front text : List α} {s : ℕ} :
    OccursAt word (front ++ text) (front.length + s) ↔ OccursAt word text s := by
  rw [OccursAt, List.drop_append, List.drop_eq_nil_of_le (by omega), List.nil_append]
  simp [OccursAt]

theorem occursAt_append_right {word text rest : List α} {s : ℕ}
    (h : s + word.length ≤ text.length) :
    OccursAt word (text ++ rest) s ↔ OccursAt word text s := by
  rw [OccursAt, OccursAt, List.drop_append_of_le_length (by omega)]
  refine ⟨fun hw ↦ ?_, fun hw ↦ hw.trans (List.prefix_append _ _)⟩
  refine List.prefix_of_prefix_length_le hw (List.prefix_append _ _) ?_
  rw [List.length_drop]
  omega

theorem infix_iff_occursAt {word text : List α} :
    word <:+: text ↔ ∃ s, OccursAt word text s := by
  constructor
  · rintro ⟨u, v, rfl⟩
    exact ⟨u.length, by simp [OccursAt]⟩
  · rintro ⟨s, h⟩
    exact h.isInfix.trans (List.drop_suffix s text).isInfix

/-- A beginning of the text ends with the word where the word has just ended. -/
theorem suffix_take_iff {word text : List α} {j : ℕ} (hj : j ≤ text.length) :
    word <:+ text.take j ↔ word.length ≤ j ∧ OccursAt word text (j - word.length) := by
  constructor
  · rintro ⟨u, hu⟩
    have hlen := congrArg List.length hu
    rw [List.length_append, List.length_take, min_eq_left hj] at hlen
    refine ⟨by omega, text.drop j, ?_⟩
    have htext : u ++ (word ++ text.drop j) = text := by
      rw [← List.append_assoc, hu, List.take_append_drop]
    have hstart : j - word.length = u.length := by omega
    nth_rewrite 2 [← htext]
    rw [hstart, List.drop_left]
  · rintro ⟨hle, rest, hrest⟩
    refine ⟨text.take (j - word.length), ?_⟩
    have hsplit : text.take (j - word.length + word.length) = text.take (j - word.length) ++
        (text.drop (j - word.length)).take word.length := List.take_add
    rw [Nat.sub_add_cancel hle, ← hrest, List.take_left] at hsplit
    exact hsplit.symm

/-- `b` can start inside `a`: it lies in `a`, or continues a non-empty end of `a`. -/
def Meets (a b : List α) : Prop := b <:+: a ∨ ∃ x ∈ a.tails, x ≠ [] ∧ x <+: b

/-- Occurrences of the two words can share a position of some text. -/
def Overlap (a b : List α) : Prop := Meets a b ∨ Meets b a

instance [DecidableEq α] (a b : List α) : Decidable (Meets a b) :=
  inferInstanceAs (Decidable (_ ∨ _))

instance [DecidableEq α] (a b : List α) : Decidable (Overlap a b) :=
  inferInstanceAs (Decidable (_ ∨ _))

theorem Overlap.symm {a b : List α} (h : Overlap a b) : Overlap b a := Or.symm h

theorem meets_of_occursAt {a b text : List α} {s t : ℕ} (ha : OccursAt a text s)
    (hb : OccursAt b text t) (hst : s ≤ t) (hlt : t < s + a.length) : Meets a b := by
  obtain ⟨rest, hrest⟩ := ha
  have hdrop : text.drop t = a.drop (t - s) ++ rest := by
    rw [show t = s + (t - s) by omega, ← List.drop_drop, ← hrest,
      List.drop_append_of_le_length (by omega), show s + (t - s) - s = t - s by omega]
  rw [OccursAt, hdrop] at hb
  have hend := List.prefix_append (a.drop (t - s)) rest
  rcases List.prefix_or_prefix_of_prefix hb hend with hin | hout
  · exact .inl (hin.isInfix.trans (List.drop_suffix _ a).isInfix)
  · refine .inr ⟨a.drop (t - s), (List.mem_tails _ _).mpr (List.drop_suffix _ a), ?_, hout⟩
    rw [ne_eq, List.drop_eq_nil_iff]
    omega

/-- Two words that do not overlap stand apart wherever they occur. -/
theorem apart_of_not_overlap {a b text : List α} {s t : ℕ} (hno : ¬ Overlap a b)
    (ha : OccursAt a text s) (hb : OccursAt b text t) :
    s + a.length ≤ t ∨ t + b.length ≤ s := by
  by_contra hcross
  push Not at hcross
  rcases le_total s t with hle | hle
  · exact hno (.inl (meets_of_occursAt ha hb hle hcross.1))
  · exact hno (.inr (meets_of_occursAt hb ha hle hcross.2))

/-- Two words that overlap stand together in a text too short for both side by side. -/
theorem exists_short_of_meets {a b : List α} (hne : b ≠ []) (h : Meets a b) :
    ∃ text, a <:+: text ∧ b <:+: text ∧ text.length < a.length + b.length := by
  rcases h with hin | ⟨x, hx, hx0, v, rfl⟩
  · exact ⟨a, List.infix_refl a, hin, by have := List.length_pos_iff.mpr hne; omega⟩
  · obtain ⟨u, rfl⟩ := (List.mem_tails _ _).mp hx
    refine ⟨u ++ x ++ v, (List.prefix_append _ v).isInfix, ?_, ?_⟩
    · rw [List.append_assoc]
      exact (List.suffix_append u (x ++ v)).isInfix
    · have := List.length_pos_iff.mpr hx0
      simp only [List.length_append]
      omega

theorem exists_short_of_overlap {a b : List α} (ha : a ≠ []) (hb : b ≠ []) (h : Overlap a b) :
    ∃ text, a <:+: text ∧ b <:+: text ∧ text.length < a.length + b.length := by
  rcases h with h | h
  · exact exists_short_of_meets hb h
  · obtain ⟨text, hb', ha', hlen⟩ := exists_short_of_meets ha h
    exact ⟨text, ha', hb', by omega⟩

/-! ## Searching -/

/-- The place of a word of a list in a text. -/
structure Hit where
  word : ℕ
  start : ℕ
  finish : ℕ
  deriving DecidableEq, Repr

/-- A hit that starts at `lo` or later. -/
def IsHit (words : List (List α)) (text : List α) (lo : ℕ) (m : Hit) : Prop :=
  ∃ w, words[m.word]? = some w ∧ lo ≤ m.start ∧ m.finish = m.start + w.length ∧
    OccursAt w text m.start

/-- The answer of a search from `lo` on: none of the hits ends before it. -/
def Earliest (words : List (List α)) (text : List α) (lo : ℕ) : Option Hit → Prop
  | none => ∀ m, ¬ IsHit words text lo m
  | some m => IsHit words text lo m ∧ ∀ m', IsHit words text lo m' → m.finish ≤ m'.finish

/-- Search after search, each from where the last hit ended. -/
def hitsFrom (next : ℕ → Option Hit) : ℕ → ℕ → List Hit
  | 0, _ => []
  | fuel + 1, lo =>
      match next lo with
      | none => []
      | some m => m :: hitsFrom next fuel m.finish

section hits

variable {words : List (List α)} {text : List α} {next : ℕ → Option Hit}

theorem IsHit.lt_finish {lo : ℕ} {m : Hit} (hm : IsHit words text lo m)
    (hne : ∀ w ∈ words, w ≠ []) : m.start < m.finish ∧ m.finish ≤ text.length := by
  obtain ⟨w, hw, -, hfin, hocc⟩ := hm
  have hw0 := hne w (List.mem_of_getElem? hw)
  have hpos := List.length_pos_iff.mpr hw0
  have hend := hocc.end_le hw0
  omega

theorem IsHit.mono {lo lo' : ℕ} {m : Hit} (hm : IsHit words text lo m) (hle : lo' ≤ lo) :
    IsHit words text lo' m := by
  obtain ⟨w, hw, hlo, hfin, hocc⟩ := hm
  exact ⟨w, hw, hle.trans hlo, hfin, hocc⟩

/-- What is handed out are hits, in order and side by side. -/
theorem hitsFrom_spec (hnext : ∀ lo, Earliest words text lo (next lo)) (fuel : ℕ) :
    ∀ lo, (∀ m ∈ hitsFrom next fuel lo, IsHit words text lo m) ∧
      (hitsFrom next fuel lo).Pairwise fun m m' ↦ m.finish ≤ m'.start := by
  induction fuel with
  | zero => exact fun lo ↦ ⟨by simp [hitsFrom], by simp [hitsFrom]⟩
  | succ fuel ih =>
      intro lo
      rw [hitsFrom]
      have hlo := hnext lo
      cases hm : next lo with
      | none => exact ⟨by simp, by simp⟩
      | some m =>
          rw [hm] at hlo
          obtain ⟨hhits, hpair⟩ := ih m.finish
          have hgo : lo ≤ m.finish := by
            obtain ⟨w, -, hle, hfin, -⟩ := hlo.1
            omega
          refine ⟨?_, List.pairwise_cons.mpr ⟨?_, hpair⟩⟩
          · intro m' hm'
            rcases List.mem_cons.mp hm' with rfl | hm'
            · exact hlo.1
            · exact (hhits m' hm').mono hgo
          · intro m' hm'
            obtain ⟨w, -, hle, -, -⟩ := hhits m' hm'
            exact hle

/-- A word that overlaps no other one is handed out if it occurs at all. -/
theorem exists_mem_hitsFrom (hne : ∀ w ∈ words, w ≠ [])
    (hnext : ∀ lo, Earliest words text lo (next lo)) {i s : ℕ} {w : List α}
    (hw : words[i]? = some w) (hocc : OccursAt w text s)
    (hno : ∀ j v, j ≠ i → words[j]? = some v → ¬ Overlap w v) (fuel : ℕ) :
    ∀ lo, lo ≤ s → text.length < lo + fuel → ∃ m ∈ hitsFrom next fuel lo, m.word = i := by
  have hw0 := hne w (List.mem_of_getElem? hw)
  have hpos := List.length_pos_iff.mpr hw0
  have hend := hocc.end_le hw0
  induction fuel with
  | zero =>
      intro lo hlo hfuel
      omega
  | succ fuel ih =>
      intro lo hlo hfuel
      have hhit : IsHit words text lo ⟨i, s, s + w.length⟩ := ⟨w, hw, hlo, rfl, hocc⟩
      have hfirst := hnext lo
      rw [hitsFrom]
      cases hm : next lo with
      | none =>
          rw [hm] at hfirst
          exact absurd hhit (hfirst _)
      | some m =>
          rw [hm] at hfirst
          by_cases hi : m.word = i
          · exact ⟨m, List.mem_cons_self, hi⟩
          · -- The hit of another word ends first and lies apart, so it ends before `s`.
            have hle := hfirst.2 _ hhit
            have hlt := hfirst.1.lt_finish hne
            obtain ⟨v, hv, hge, hfin, hoccv⟩ := hfirst.1
            have hbefore : m.finish ≤ s := by
              rcases apart_of_not_overlap (hno m.word v hi hv) hocc hoccv with h | h
              · simp only at hle
                omega
              · omega
            obtain ⟨m', hm', hword⟩ := ih m.finish hbefore (by omega)
            exact ⟨m', List.mem_cons_of_mem m hm', hword⟩

/-- Every occurrence is overlapped by a hit that is handed out. -/
theorem exists_overlap_hitsFrom (hne : ∀ w ∈ words, w ≠ [])
    (hnext : ∀ lo, Earliest words text lo (next lo)) {i s : ℕ} {w : List α}
    (hw : words[i]? = some w) (hocc : OccursAt w text s) (fuel : ℕ) :
    ∀ lo, lo ≤ s → text.length < lo + fuel →
      ∃ m ∈ hitsFrom next fuel lo, m.start < s + w.length ∧ s < m.finish := by
  have hw0 := hne w (List.mem_of_getElem? hw)
  have hpos := List.length_pos_iff.mpr hw0
  have hend := hocc.end_le hw0
  induction fuel with
  | zero =>
      intro lo hlo hfuel
      omega
  | succ fuel ih =>
      intro lo hlo hfuel
      have hhit : IsHit words text lo ⟨i, s, s + w.length⟩ := ⟨w, hw, hlo, rfl, hocc⟩
      have hfirst := hnext lo
      rw [hitsFrom]
      cases hm : next lo with
      | none =>
          rw [hm] at hfirst
          exact absurd hhit (hfirst _)
      | some m =>
          rw [hm] at hfirst
          have hle : m.finish ≤ s + w.length := hfirst.2 _ hhit
          have hlt := hfirst.1.lt_finish hne
          obtain ⟨v, -, hge, -, -⟩ := hfirst.1
          by_cases hbefore : m.finish ≤ s
          · obtain ⟨m', hm', hover⟩ := ih m.finish hbefore (by omega)
            exact ⟨m', List.mem_cons_of_mem m hm', hover⟩
          · -- The first hit ends inside the occurrence.
            exact ⟨m, List.mem_cons_self, by omega, by omega⟩

/-- An occurrence that no other one overlaps is handed out. -/
theorem mem_hitsFrom_of_alone (hne : ∀ w ∈ words, w ≠ [])
    (hnext : ∀ lo, Earliest words text lo (next lo)) {i s : ℕ} {w : List α}
    (hw : words[i]? = some w) (hocc : OccursAt w text s)
    (halone : ∀ j v t, words[j]? = some v → OccursAt v text t → t < s + w.length →
      s < t + v.length → j = i ∧ t = s) (fuel : ℕ) :
    ∀ lo, lo ≤ s → text.length < lo + fuel → ⟨i, s, s + w.length⟩ ∈ hitsFrom next fuel lo := by
  intro lo hlo hfuel
  obtain ⟨m, hm, hbefore, hafter⟩ := exists_overlap_hitsFrom hne hnext hw hocc fuel lo hlo hfuel
  obtain ⟨v, hv, -, hfin, hoccv⟩ := (hitsFrom_spec hnext fuel lo).1 m hm
  obtain ⟨hi, hs⟩ := halone m.word v m.start hv hoccv hbefore (by omega)
  rw [hi] at hv
  obtain rfl := Option.some.inj (hw.symm.trans hv)
  have hmeq : m = ⟨i, s, s + w.length⟩ := by
    rw [← hi, ← hs, ← hfin]
  exact hmeq ▸ hm

/-- Two words are both handed out only in a text with room for both. -/
theorem length_add_length_le (hnext : ∀ lo, Earliest words text lo (next lo))
    (hne : ∀ w ∈ words, w ≠ []) {fuel lo : ℕ} {m m' : Hit} (hm : m ∈ hitsFrom next fuel lo)
    (hm' : m' ∈ hitsFrom next fuel lo) {a b : List α} (ha : words[m.word]? = some a)
    (hb : words[m'.word]? = some b) (hdiff : m.word ≠ m'.word) :
    a.length + b.length ≤ text.length := by
  obtain ⟨hhits, hpair⟩ := hitsFrom_spec hnext fuel lo
  have hend := (hhits m hm).lt_finish hne
  have hend' := (hhits m' hm').lt_finish hne
  obtain ⟨w, hw, -, hfin, -⟩ := hhits m hm
  obtain ⟨w', hw', -, hfin', -⟩ := hhits m' hm'
  obtain rfl := Option.some.inj (ha.symm.trans hw)
  obtain rfl := Option.some.inj (hb.symm.trans hw')
  let Apart (m m' : Hit) : Prop := m.finish ≤ m'.start ∨ m'.finish ≤ m.start
  have : Std.Symm Apart := ⟨fun _ _ ↦ Or.symm⟩
  have happart : Apart m m' :=
    (hpair.imp (S := Apart) .inl).forall hm hm' fun h ↦ hdiff (congrArg Hit.word h)
  rcases happart with h | h
  · omega
  · omega

end hits

/-! ## A search -/

variable [DecidableEq α]

/-- The first word of the list that ends at `e` and starts at `lo` or later. -/
def endingAt (words : List (List α)) (text : List α) (lo e : ℕ) : Option Hit :=
  words.zipIdx.findSome? fun (w, i) ↦
    if lo + w.length ≤ e ∧ OccursAt w text (e - w.length) then some ⟨i, e - w.length, e⟩
    else none

/-- Tries one end after the other. -/
def searchLoop (words : List (List α)) (text : List α) (lo : ℕ) : ℕ → ℕ → Option Hit
  | 0, _ => none
  | n + 1, e => (endingAt words text lo e).or (searchLoop words text lo n (e + 1))

def searchFrom (words : List (List α)) (text : List α) (lo : ℕ) : Option Hit :=
  searchLoop words text lo (text.length + 1) 0

theorem endingAt_eq_some {words : List (List α)} {text : List α} {lo e : ℕ} {m : Hit}
    (h : endingAt words text lo e = some m) : IsHit words text lo m ∧ m.finish = e := by
  obtain ⟨⟨w, i⟩, hmem, hif⟩ := List.exists_of_findSome?_eq_some h
  simp only at hif
  split_ifs at hif with hend
  obtain rfl := Option.some.inj hif
  exact ⟨⟨w, List.mem_zipIdx_iff_getElem?.mp hmem, by simp only; omega, by simp only; omega,
    hend.2⟩, rfl⟩

theorem endingAt_ne_none {words : List (List α)} {text : List α} {lo : ℕ} {m : Hit}
    (hm : IsHit words text lo m) : endingAt words text lo m.finish ≠ none := by
  obtain ⟨w, hw, hlo, hfin, hocc⟩ := hm
  intro hnone
  have hno := List.findSome?_eq_none_iff.mp hnone (w, m.word)
    (List.mem_zipIdx_iff_getElem?.mpr hw)
  have hstart : m.finish - w.length = m.start := by omega
  simp only [hstart] at hno
  rw [if_pos ⟨by omega, hocc⟩] at hno
  cases hno

theorem searchLoop_spec (words : List (List α)) (text : List α) (lo n : ℕ) : ∀ e,
    match searchLoop words text lo n e with
    | none => ∀ m, IsHit words text lo m → e ≤ m.finish → e + n ≤ m.finish
    | some m => IsHit words text lo m ∧
        ∀ m', IsHit words text lo m' → e ≤ m'.finish → m.finish ≤ m'.finish := by
  induction n with
  | zero => exact fun e m _ hle ↦ hle
  | succ n ih =>
      intro e
      rw [searchLoop]
      cases hend : endingAt words text lo e with
      | some m =>
          obtain ⟨hm, rfl⟩ := endingAt_eq_some hend
          exact ⟨hm, fun _ _ hle ↦ hle⟩
      | none =>
          have hskip : ∀ m, IsHit words text lo m → e ≤ m.finish → e + 1 ≤ m.finish := by
            intro m hm hle
            rcases Nat.lt_or_eq_of_le hle with hlt | rfl
            · exact hlt
            · exact absurd hend (endingAt_ne_none hm)
          have hrest := ih (e + 1)
          rw [Option.none_or]
          cases hloop : searchLoop words text lo n (e + 1) with
          | none =>
              rw [hloop] at hrest
              intro m hm hle
              have := hrest m hm (hskip m hm hle)
              omega
          | some m =>
              rw [hloop] at hrest
              exact ⟨hrest.1, fun m' hm' hle ↦ hrest.2 m' hm' (hskip m' hm' hle)⟩

theorem searchFrom_earliest {words : List (List α)} (hne : ∀ w ∈ words, w ≠ []) (text : List α)
    (lo : ℕ) : Earliest words text lo (searchFrom words text lo) := by
  have hspec := searchLoop_spec words text lo (text.length + 1) 0
  rw [searchFrom]
  cases hloop : searchLoop words text lo (text.length + 1) 0 with
  | none =>
      rw [hloop] at hspec
      intro m hm
      have hend := (hm.lt_finish hne).2
      have := hspec m hm (Nat.zero_le _)
      omega
  | some m =>
      rw [hloop] at hspec
      exact ⟨hspec.1, fun m' hm' ↦ hspec.2 m' hm' (Nat.zero_le _)⟩

end Bazalt.Lib
