import Mathlib

/-!
# Ordered maps and maps of byte runs

A finite map listed by strictly increasing key, with the queries a balanced
search tree offers: first entry, last entry up to a key, first entry of a key
range.  When the values carry a run of symbols and the keys are positions, the
map is read as a partial function from positions to symbols.
-/

namespace Bazalt.Lib

/-- A finite map listed by strictly increasing key. -/
structure OrdMap (κ α : Type*) [LinearOrder κ] where
  entries : List (κ × α)
  sorted : entries.Pairwise (fun a b ↦ a.1 < b.1)

namespace OrdMap

section Queries

variable {κ α : Type*} [LinearOrder κ]

theorem ext_entries {m m' : OrdMap κ α} (h : m.entries = m'.entries) : m = m' := by
  cases m
  cases m'
  cases h
  rfl

instance [DecidableEq κ] [DecidableEq α] : DecidableEq (OrdMap κ α) := fun m m' ↦
  decidable_of_iff (m.entries = m'.entries) ⟨ext_entries, fun h ↦ h ▸ rfl⟩

def empty : OrdMap κ α := ⟨[], .nil⟩

instance : Inhabited (OrdMap κ α) := ⟨empty⟩

def isEmpty (m : OrdMap κ α) : Bool := m.entries.isEmpty

def size (m : OrdMap κ α) : ℕ := m.entries.length

def first? (m : OrdMap κ α) : Option (κ × α) := m.entries.head?

/-- The map without its first entry. -/
def tail (m : OrdMap κ α) : OrdMap κ α := ⟨m.entries.tail, m.sorted.tail⟩

/-- The entry with the greatest key up to `c`. -/
def lastLE? (m : OrdMap κ α) (c : κ) : Option (κ × α) :=
  (m.entries.filter fun e ↦ e.1 ≤ c).getLast?

/-- The entry with the least key in `[a, b)`. -/
def firstIn? (m : OrdMap κ α) (a b : κ) : Option (κ × α) :=
  m.entries.find? fun e ↦ decide (a ≤ e.1) && decide (e.1 < b)

/-- Sorted insertion, replacing the value of an equal key. -/
def insertEntry (k : κ) (v : α) : List (κ × α) → List (κ × α)
  | [] => [(k, v)]
  | e :: es =>
      if k < e.1 then (k, v) :: e :: es
      else if k = e.1 then (k, v) :: es
      else e :: insertEntry k v es

theorem mem_insertEntry {k : κ} {v : α} {es : List (κ × α)} {e : κ × α}
    (h : e ∈ insertEntry k v es) : e = (k, v) ∨ e ∈ es := by
  induction es with
  | nil => simpa [insertEntry] using h
  | cons a es ih =>
      unfold insertEntry at h
      split_ifs at h with h₁ h₂
      · simpa using h
      · rcases List.mem_cons.mp h with h | h
        · exact .inl h
        · exact .inr (List.mem_cons_of_mem a h)
      · rcases List.mem_cons.mp h with h | h
        · exact .inr (h ▸ List.mem_cons_self)
        · exact (ih h).imp_right (List.mem_cons_of_mem a)

theorem sorted_insertEntry (k : κ) (v : α) {es : List (κ × α)}
    (hs : es.Pairwise (fun a b ↦ a.1 < b.1)) :
    (insertEntry k v es).Pairwise (fun a b ↦ a.1 < b.1) := by
  induction es with
  | nil => simp [insertEntry]
  | cons e es ih =>
      obtain ⟨he, hes⟩ := List.pairwise_cons.mp hs
      unfold insertEntry
      split_ifs with h₁ h₂
      · refine List.pairwise_cons.mpr ⟨?_, hs⟩
        intro a ha
        rcases List.mem_cons.mp ha with rfl | ha
        · exact h₁
        · exact h₁.trans (he a ha)
      · exact List.pairwise_cons.mpr ⟨fun a ha ↦ h₂ ▸ he a ha, hes⟩
      · refine List.pairwise_cons.mpr ⟨?_, ih hes⟩
        intro a ha
        rcases mem_insertEntry ha with rfl | ha
        · exact lt_of_le_of_ne (not_lt.mp h₁) (Ne.symm h₂)
        · exact he a ha

def insert (m : OrdMap κ α) (k : κ) (v : α) : OrdMap κ α :=
  ⟨insertEntry k v m.entries, sorted_insertEntry k v m.sorted⟩

@[simp] theorem entries_empty : (empty : OrdMap κ α).entries = [] := rfl

@[simp] theorem entries_tail (m : OrdMap κ α) : m.tail.entries = m.entries.tail := rfl

theorem first?_eq_some {m : OrdMap κ α} {e : κ × α} :
    m.first? = some e ↔ ∃ es, m.entries = e :: es := by
  unfold first?
  cases m.entries with
  | nil => simp
  | cons a es => simp [eq_comm]

theorem first?_eq_none {m : OrdMap κ α} : m.first? = none ↔ m.entries = [] :=
  List.head?_eq_none_iff

theorem isEmpty_iff {m : OrdMap κ α} : m.isEmpty = true ↔ m.entries = [] :=
  List.isEmpty_iff

theorem mem_of_first? {m : OrdMap κ α} {e : κ × α} (h : m.first? = some e) :
    e ∈ m.entries :=
  List.mem_of_mem_head? h

theorem first?_le {m : OrdMap κ α} {e a : κ × α} (h : m.first? = some e)
    (ha : a ∈ m.entries) : e.1 ≤ a.1 := by
  obtain ⟨es, hes⟩ := first?_eq_some.mp h
  have hs := m.sorted
  rw [hes] at hs ha
  rcases List.mem_cons.mp ha with rfl | ha
  · exact le_rfl
  · exact ((List.pairwise_cons.mp hs).1 a ha).le

theorem lastLE?_some {m : OrdMap κ α} {c : κ} {e : κ × α} (h : m.lastLE? c = some e) :
    e ∈ m.entries ∧ e.1 ≤ c ∧ ∀ a ∈ m.entries, a.1 ≤ c → a.1 ≤ e.1 := by
  obtain ⟨ys, hys⟩ := List.getLast?_eq_some_iff.mp h
  have hmem : ∀ a, a ∈ m.entries ∧ a.1 ≤ c ↔ a ∈ ys ++ [e] := by
    intro a
    rw [← hys]
    simp [List.mem_filter]
  have hsort : (ys ++ [e]).Pairwise (fun a b ↦ a.1 < b.1) := hys ▸ m.sorted.filter _
  obtain ⟨he, hle⟩ := (hmem e).mpr (by simp)
  refine ⟨he, hle, fun a ha hac ↦ ?_⟩
  rcases List.mem_append.mp ((hmem a).mp ⟨ha, hac⟩) with hy | hy
  · exact ((List.pairwise_append.mp hsort).2.2 a hy e (by simp)).le
  · rw [List.mem_singleton.mp hy]

theorem lastLE?_none {m : OrdMap κ α} {c : κ} (h : m.lastLE? c = none) :
    ∀ a ∈ m.entries, c < a.1 := by
  intro a ha
  have hnil : m.entries.filter (fun e ↦ e.1 ≤ c) = [] := by
    simpa [lastLE?] using h
  by_contra hc
  have : a ∈ m.entries.filter (fun e ↦ e.1 ≤ c) := by
    simpa [List.mem_filter] using ⟨ha, not_lt.mp hc⟩
  simp [hnil] at this

theorem firstIn?_some {m : OrdMap κ α} {a b : κ} {e : κ × α} (h : m.firstIn? a b = some e) :
    e ∈ m.entries ∧ a ≤ e.1 ∧ e.1 < b ∧ ∀ x ∈ m.entries, a ≤ x.1 → e.1 ≤ x.1 := by
  obtain ⟨hp, as, bs, hsplit, hfail⟩ := List.find?_eq_some_iff_append.mp h
  simp only [Bool.and_eq_true, decide_eq_true_eq] at hp
  refine ⟨by simp [hsplit], hp.1, hp.2, fun x hx hax ↦ ?_⟩
  have hs := m.sorted
  rw [hsplit] at hs hx
  rcases List.mem_append.mp hx with hx | hx
  · have hlt : x.1 < e.1 := (List.pairwise_append.mp hs).2.2 x hx e (by simp)
    have hno := hfail x hx
    simp [hax, hlt.trans hp.2] at hno
  · rcases List.mem_cons.mp hx with rfl | hx
    · exact le_rfl
    · have htail := (List.pairwise_append.mp hs).2.1
      exact ((List.pairwise_cons.mp htail).1 x hx).le

theorem firstIn?_none {m : OrdMap κ α} {a b : κ} (h : m.firstIn? a b = none) :
    ∀ x ∈ m.entries, a ≤ x.1 → b ≤ x.1 := by
  intro x hx hax
  have hno := List.find?_eq_none.mp h x hx
  simpa [hax] using hno

theorem insertEntry_split (k : κ) (v : α) {es : List (κ × α)}
    (hs : es.Pairwise (fun a b ↦ a.1 < b.1)) (hk : ∀ e ∈ es, e.1 ≠ k) :
    ∃ as bs, es = as ++ bs ∧ insertEntry k v es = as ++ (k, v) :: bs ∧
      (∀ e ∈ as, e.1 < k) ∧ ∀ e ∈ bs, k < e.1 := by
  induction es with
  | nil => exact ⟨[], [], rfl, rfl, by simp, by simp⟩
  | cons e es ih =>
      obtain ⟨he, hes⟩ := List.pairwise_cons.mp hs
      have hne : e.1 ≠ k := hk e (by simp)
      by_cases hlt : k < e.1
      · refine ⟨[], e :: es, rfl, by simp [insertEntry, hlt], by simp, ?_⟩
        intro a ha
        rcases List.mem_cons.mp ha with rfl | ha
        · exact hlt
        · exact hlt.trans (he a ha)
      · obtain ⟨as, bs, hsplit, hins, has, hbs⟩ :=
          ih hes fun a ha ↦ hk a (List.mem_cons_of_mem e ha)
        refine ⟨e :: as, bs, by simp [hsplit], ?_, ?_, hbs⟩
        · simp [insertEntry, hlt, Ne.symm hne, hins]
        · intro a ha
          rcases List.mem_cons.mp ha with rfl | ha
          · exact lt_of_le_of_ne (not_lt.mp hlt) hne
          · exact has a ha

theorem insertEntry_perm (k : κ) (v : α) {es : List (κ × α)}
    (hs : es.Pairwise (fun a b ↦ a.1 < b.1)) (hk : ∀ e ∈ es, e.1 ≠ k) :
    (insertEntry k v es).Perm ((k, v) :: es) := by
  obtain ⟨as, bs, hsplit, hins, -, -⟩ := insertEntry_split k v hs hk
  rw [hins, hsplit]
  exact List.perm_middle

end Queries

section MapKeys

variable {κ κ' α : Type*} [LinearOrder κ] [LinearOrder κ']

/-- The map with every key sent through a strictly monotone function. -/
def mapKeys (f : κ → κ') (hf : StrictMono f) (m : OrdMap κ α) : OrdMap κ' α :=
  ⟨m.entries.map (Prod.map f id), List.pairwise_map.mpr (m.sorted.imp fun h ↦ hf h)⟩

variable {f : κ → κ'} (hf : StrictMono f) (m : OrdMap κ α)

@[simp] theorem entries_mapKeys : (m.mapKeys f hf).entries = m.entries.map (Prod.map f id) := rfl

@[simp] theorem mapKeys_empty : (empty : OrdMap κ α).mapKeys f hf = empty := rfl

@[simp] theorem isEmpty_mapKeys : (m.mapKeys f hf).isEmpty = m.isEmpty := by
  simp [isEmpty]

@[simp] theorem size_mapKeys : (m.mapKeys f hf).size = m.size := by
  simp [size]

@[simp] theorem first?_mapKeys : (m.mapKeys f hf).first? = m.first?.map (Prod.map f id) := by
  simp [first?]

@[simp] theorem tail_mapKeys : (m.mapKeys f hf).tail = m.tail.mapKeys f hf :=
  ext_entries (by simp)

theorem lastLE?_mapKeys (c : κ) :
    (m.mapKeys f hf).lastLE? (f c) = (m.lastLE? c).map (Prod.map f id) := by
  have hfilter : ∀ es : List (κ × α), (es.map (Prod.map f id)).filter (fun e ↦ e.1 ≤ f c) =
      (es.filter fun e ↦ e.1 ≤ c).map (Prod.map f id) := by
    intro es
    rw [List.filter_map]
    congr 2
    funext e
    simp [hf.le_iff_le]
  rw [lastLE?, lastLE?, entries_mapKeys, hfilter, List.getLast?_map]

theorem firstIn?_mapKeys (a b : κ) :
    (m.mapKeys f hf).firstIn? (f a) (f b) = (m.firstIn? a b).map (Prod.map f id) := by
  rw [firstIn?, firstIn?, entries_mapKeys, List.find?_map]
  congr 2
  funext e
  simp [hf.le_iff_le, hf.lt_iff_lt]

theorem insert_mapKeys (k : κ) (v : α) :
    (m.mapKeys f hf).insert (f k) v = (m.insert k v).mapKeys f hf := by
  refine ext_entries ?_
  change insertEntry (f k) v (m.entries.map (Prod.map f id)) =
    (insertEntry k v m.entries).map (Prod.map f id)
  induction m.entries with
  | nil => rfl
  | cons e es ih =>
      simp only [List.map_cons, insertEntry, Prod.map_fst, hf.lt_iff_lt, hf.injective.eq_iff]
      split_ifs
      · rfl
      · rfl
      · simp [ih]

end MapKeys

/-! ## Maps of runs

Keys are positions and each value holds a run of symbols starting at its key. -/

section Runs

variable {α β : Type*} (run : α → List β)

/-- The symbol `b` stands at position `p` in some run of the map. -/
def Holds (m : OrdMap ℕ α) (p : ℕ) (b : β) : Prop :=
  ∃ e ∈ m.entries, e.1 ≤ p ∧ (run e.2)[p - e.1]? = some b

/-- Position `p` lies in some run of the map. -/
def Covered (m : OrdMap ℕ α) (p : ℕ) : Prop :=
  ∃ e ∈ m.entries, e.1 ≤ p ∧ p < e.1 + (run e.2).length

/-- No run is empty, and each run ends before the next one starts. -/
structure Tidy (m : OrdMap ℕ α) : Prop where
  nonempty : ∀ e ∈ m.entries, run e.2 ≠ []
  apart : m.entries.Pairwise fun a b ↦ a.1 + (run a.2).length ≤ b.1

/-- The number of symbols the map holds. -/
def total (m : OrdMap ℕ α) : ℕ := (m.entries.map fun e ↦ (run e.2).length).sum

variable {run}

theorem covered_iff_holds {m : OrdMap ℕ α} {p : ℕ} :
    Covered run m p ↔ ∃ b, Holds run m p b := by
  constructor
  · rintro ⟨e, he, hle, hlt⟩
    have hi : p - e.1 < (run e.2).length := by omega
    exact ⟨(run e.2)[p - e.1], e, he, hle, List.getElem?_eq_getElem hi⟩
  · rintro ⟨b, e, he, hle, hb⟩
    obtain ⟨hi, _⟩ := List.getElem?_eq_some_iff.mp hb
    exact ⟨e, he, hle, by omega⟩

theorem Tidy.length_pos {m : OrdMap ℕ α} (ht : Tidy run m) {e : ℕ × α}
    (he : e ∈ m.entries) : 0 < (run e.2).length :=
  List.length_pos_iff.mpr (ht.nonempty e he)

/-- Two runs of a tidy map are equal or separated. -/
theorem Tidy.separated {m : OrdMap ℕ α} (ht : Tidy run m) {a b : ℕ × α}
    (ha : a ∈ m.entries) (hb : b ∈ m.entries) :
    a = b ∨ a.1 + (run a.2).length ≤ b.1 ∨ b.1 + (run b.2).length ≤ a.1 := by
  have hp : m.entries.Pairwise fun a b ↦
      a = b ∨ a.1 + (run a.2).length ≤ b.1 ∨ b.1 + (run b.2).length ≤ a.1 :=
    ht.apart.imp fun h ↦ .inr (.inl h)
  have : Std.Symm fun a b : ℕ × α ↦
      a = b ∨ a.1 + (run a.2).length ≤ b.1 ∨ b.1 + (run b.2).length ≤ a.1 := by
    refine ⟨?_⟩
    rintro x y (rfl | h | h)
    · exact .inl rfl
    · exact .inr (.inr h)
    · exact .inr (.inl h)
  exact hp.forall_of_forall (fun _ _ ↦ .inl rfl) ha hb

theorem Tidy.holds_unique {m : OrdMap ℕ α} (ht : Tidy run m) {p : ℕ} {b c : β}
    (hb : Holds run m p b) (hc : Holds run m p c) : b = c := by
  obtain ⟨e, he, hle, hget⟩ := hb
  obtain ⟨e', he', hle', hget'⟩ := hc
  obtain ⟨hi, -⟩ := List.getElem?_eq_some_iff.mp hget
  obtain ⟨hi', -⟩ := List.getElem?_eq_some_iff.mp hget'
  rcases ht.separated he he' with rfl | h | h
  · exact Option.some.inj (hget.symm.trans hget')
  · omega
  · omega

/-- A position is covered exactly when the last run that starts up to it
reaches past it. -/
theorem Tidy.covered_iff_lastLE? {m : OrdMap ℕ α} (ht : Tidy run m) {p : ℕ} :
    Covered run m p ↔ ∃ e, m.lastLE? p = some e ∧ p < e.1 + (run e.2).length := by
  constructor
  · rintro ⟨e, he, hle, hlt⟩
    cases hl : m.lastLE? p with
    | none => exact absurd (lastLE?_none hl e he) (by omega)
    | some a =>
        obtain ⟨ha, hap, hmax⟩ := lastLE?_some hl
        have hea := hmax e he hle
        refine ⟨a, rfl, ?_⟩
        have hpos := ht.length_pos ha
        rcases ht.separated he ha with rfl | h | h <;> omega
  · rintro ⟨e, hl, hlt⟩
    obtain ⟨he, hle, -⟩ := lastLE?_some hl
    exact ⟨e, he, hle, hlt⟩

/-- Filling a hole: a new run that meets no old one. -/
theorem Tidy.insert_spec {m : OrdMap ℕ α} (ht : Tidy run m) {k : ℕ} {v : α}
    (hv : run v ≠ [])
    (hole : ∀ e ∈ m.entries, e.1 + (run e.2).length ≤ k ∨ k + (run v).length ≤ e.1) :
    Tidy run (m.insert k v) ∧
      (∀ e, e ∈ (m.insert k v).entries ↔ e = (k, v) ∨ e ∈ m.entries) ∧
      total run (m.insert k v) = total run m + (run v).length := by
  have hv' : 0 < (run v).length := List.length_pos_iff.mpr hv
  have hk : ∀ e ∈ m.entries, e.1 ≠ k := by
    intro e he heq
    have hpos := ht.length_pos he
    rcases hole e he with h | h <;> omega
  obtain ⟨as, bs, hsplit, hins, has, hbs⟩ := insertEntry_split k v m.sorted hk
  have hins' : (m.insert k v).entries = as ++ (k, v) :: bs := hins
  have hmem : ∀ e, e ∈ (m.insert k v).entries ↔ e = (k, v) ∨ e ∈ m.entries := by
    intro e
    rw [hins', hsplit]
    simp only [List.mem_append, List.mem_cons]
    tauto
  have hap := ht.apart
  rw [hsplit] at hap hole
  obtain ⟨hapA, hapB, hapAB⟩ := List.pairwise_append.mp hap
  refine ⟨⟨?_, ?_⟩, hmem, ?_⟩
  · intro e he
    rcases (hmem e).mp he with rfl | he
    · exact hv
    · exact ht.nonempty e he
  · rw [hins']
    refine List.pairwise_append.mpr ⟨hapA, List.pairwise_cons.mpr ⟨?_, hapB⟩, ?_⟩
    · intro b hb
      have hkb := hbs b hb
      rcases hole b (List.mem_append_right as hb) with h | h
      · simp only
        omega
      · exact h
    · intro a ha b hb
      rcases List.mem_cons.mp hb with rfl | hb
      · have hak := has a ha
        rcases hole a (List.mem_append_left bs ha) with h | h
        · exact h
        · simp only
          omega
      · exact hapAB a ha b hb
  · unfold total
    rw [hins', hsplit]
    simp only [List.map_append, List.map_cons, List.sum_append, List.sum_cons]
    omega

theorem holds_of_mem_iff {m m' : OrdMap ℕ α} {k : ℕ} {v : α}
    (hmem : ∀ e, e ∈ m'.entries ↔ e = (k, v) ∨ e ∈ m.entries) (p : ℕ) (b : β) :
    Holds run m' p b ↔ Holds run m p b ∨ k ≤ p ∧ (run v)[p - k]? = some b := by
  constructor
  · rintro ⟨e, he, hle, hget⟩
    rcases (hmem e).mp he with rfl | he
    · exact .inr ⟨hle, hget⟩
    · exact .inl ⟨e, he, hle, hget⟩
  · rintro (⟨e, he, hle, hget⟩ | ⟨hle, hget⟩)
    · exact ⟨e, (hmem e).mpr (.inr he), hle, hget⟩
    · exact ⟨(k, v), (hmem _).mpr (.inl rfl), hle, hget⟩

theorem Tidy.tail {m : OrdMap ℕ α} (ht : Tidy run m) : Tidy run m.tail :=
  ⟨fun e he ↦ ht.nonempty e (List.mem_of_mem_tail he), ht.apart.tail⟩

theorem tidy_empty : Tidy run (empty : OrdMap ℕ α) := ⟨by simp, by simp⟩

theorem not_holds_empty (p : ℕ) (b : β) : ¬ Holds run (empty : OrdMap ℕ α) p b := by
  rintro ⟨e, he, -⟩
  simp at he

theorem total_tail {m : OrdMap ℕ α} {e : ℕ × α} (h : m.first? = some e) :
    total run m = (run e.2).length + total run m.tail := by
  obtain ⟨es, hes⟩ := first?_eq_some.mp h
  simp [total, hes]

/-- What is left after the first run stands past its end. -/
theorem Tidy.first?_end_le {m : OrdMap ℕ α} (ht : Tidy run m) {e a : ℕ × α}
    (h : m.first? = some e) (ha : a ∈ m.tail.entries) : e.1 + (run e.2).length ≤ a.1 := by
  obtain ⟨es, hes⟩ := first?_eq_some.mp h
  have hap := ht.apart
  rw [hes] at hap
  exact (List.pairwise_cons.mp hap).1 a (by simpa [hes] using ha)

theorem mem_first_or_tail {m : OrdMap ℕ α} {e a : ℕ × α} (h : m.first? = some e)
    (ha : a ∈ m.entries) : a = e ∨ a ∈ m.tail.entries := by
  obtain ⟨es, hes⟩ := first?_eq_some.mp h
  simpa [hes] using ha

theorem sum_length_le {es : List (ℕ × α)} {lo hi : ℕ}
    (hap : es.Pairwise fun a b ↦ a.1 + (run a.2).length ≤ b.1)
    (hlo : ∀ e ∈ es, lo ≤ e.1) (hhi : ∀ e ∈ es, e.1 + (run e.2).length ≤ hi)
    (hle : lo ≤ hi) : lo + (es.map fun e ↦ (run e.2).length).sum ≤ hi := by
  induction es generalizing lo with
  | nil => simpa using hle
  | cons e es ih =>
      obtain ⟨he, hes⟩ := List.pairwise_cons.mp hap
      have hstep := ih hes he (fun a ha ↦ hhi a (List.mem_cons_of_mem e ha))
        (hhi e (by simp))
      have hlo' := hlo e (by simp)
      simp only [List.map_cons, List.sum_cons]
      omega

/-- Runs between two bounds hold no more symbols than the bounds leave room for. -/
theorem Tidy.total_le {m : OrdMap ℕ α} (ht : Tidy run m) {lo hi : ℕ}
    (hlo : ∀ e ∈ m.entries, lo ≤ e.1)
    (hhi : ∀ e ∈ m.entries, e.1 + (run e.2).length ≤ hi) (hle : lo ≤ hi) :
    lo + total run m ≤ hi :=
  sum_length_le ht.apart hlo hhi hle

theorem total_le_of_sublist {m m' : OrdMap ℕ α} (h : m'.entries.Sublist m.entries) :
    total run m' ≤ total run m :=
  (h.map _).sum_le_sum fun _ _ ↦ Nat.zero_le _

theorem Tidy.total_lt_of_sublist {m m' : OrdMap ℕ α} (ht : Tidy run m)
    (h : m'.entries.Sublist m.entries) (hlt : m'.size < m.size) : total run m' < total run m := by
  obtain ⟨rest, hperm⟩ := h.exists_perm_append
  have hne : rest ≠ [] := by
    rintro rfl
    have := hperm.length_eq
    simp only [List.append_nil, size] at this hlt
    omega
  obtain ⟨e, he⟩ := List.exists_mem_of_ne_nil rest hne
  have hpos := ht.length_pos (hperm.mem_iff.mpr (List.mem_append_right _ he))
  have hsum : total run m = total run m' + (rest.map fun e ↦ (run e.2).length).sum := by
    rw [total, (hperm.map _).sum_eq, List.map_append, List.sum_append]
    rfl
  have hle := List.single_le_sum (fun _ _ ↦ Nat.zero_le _) _
    (List.mem_map_of_mem (f := fun e : ℕ × α ↦ (run e.2).length) he)
  omega

theorem Tidy.size_le_total {m : OrdMap ℕ α} (ht : Tidy run m) : m.size ≤ total run m := by
  have hone : ∀ k ∈ m.entries.map fun e ↦ (run e.2).length, 1 ≤ k := by
    intro k hk
    obtain ⟨e, he, rfl⟩ := List.mem_map.mp hk
    exact ht.length_pos he
  have := List.card_nsmul_le_sum _ 1 hone
  simpa [size, total] using this

theorem ncard_covered_of_apart {es : List (ℕ × α)}
    (hap : es.Pairwise fun a b ↦ a.1 + (run a.2).length ≤ b.1) :
    {p | ∃ e ∈ es, e.1 ≤ p ∧ p < e.1 + (run e.2).length}.Finite ∧
      {p | ∃ e ∈ es, e.1 ≤ p ∧ p < e.1 + (run e.2).length}.ncard =
        (es.map fun e ↦ (run e.2).length).sum := by
  induction es with
  | nil => simp
  | cons e es ih =>
      obtain ⟨he, hes⟩ := List.pairwise_cons.mp hap
      obtain ⟨hfinite, hcard⟩ := ih hes
      have hsplit : {p | ∃ a ∈ e :: es, a.1 ≤ p ∧ p < a.1 + (run a.2).length} =
          Set.Ico e.1 (e.1 + (run e.2).length) ∪
            {p | ∃ a ∈ es, a.1 ≤ p ∧ p < a.1 + (run a.2).length} := by
        ext p
        simp
      have hdisjoint : Disjoint (Set.Ico e.1 (e.1 + (run e.2).length))
          {p | ∃ a ∈ es, a.1 ≤ p ∧ p < a.1 + (run a.2).length} := by
        apply Set.disjoint_left.mpr
        rintro p ⟨-, hp⟩ ⟨a, ha, hle, -⟩
        have := he a ha
        omega
      rw [hsplit]
      refine ⟨(Set.finite_Ico _ _).union hfinite, ?_⟩
      rw [Set.ncard_union_eq hdisjoint (Set.finite_Ico _ _) hfinite, hcard, List.map_cons,
        List.sum_cons, Set.ncard_eq_toFinset_card', Set.toFinset_Ico, Nat.card_Ico,
        Nat.add_sub_cancel_left]

/-- The symbols of a tidy map are as many as the positions that it covers. -/
theorem Tidy.total_eq_ncard {m : OrdMap ℕ α} (h : Tidy run m) :
    {p | Covered run m p}.Finite ∧ total run m = {p | Covered run m p}.ncard :=
  (ncard_covered_of_apart h.apart).imp_right Eq.symm

end Runs

end OrdMap

end Bazalt.Lib
