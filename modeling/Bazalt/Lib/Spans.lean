import Mathlib

/-!
# Reading a partially known sequence in order

A reader walks over positions and produces spans: a chunk of symbols where they
are known, a gap where they are not.  `Delivers known n es m` says that the spans
`es` read the partial function `known` off from `n` to `m`.  Placed at an offset,
a list of spans gives the offsets of its chunks and gaps, and these tile an
interval.
-/

namespace Bazalt.Lib

inductive Span (β : Type*) where
  | chunk (data : List β)
  | gap (len : ℕ)

namespace Span

variable {β : Type*}

def length : Span β → ℕ
  | chunk data => data.length
  | gap len => len

/-- The number of positions a list of spans walks over. -/
def width (es : List (Span β)) : ℕ := (es.map length).sum

@[simp] theorem width_nil : width ([] : List (Span β)) = 0 := rfl

@[simp] theorem width_cons (e : Span β) (es : List (Span β)) :
    width (e :: es) = e.length + width es := by simp [width]

@[simp] theorem width_append (es fs : List (Span β)) :
    width (es ++ fs) = width es + width fs := by simp [width]

/-- Chunks with their offsets, when the walk starts at offset `o`. -/
def chunksAt : ℕ → List (Span β) → List (ℕ × List β)
  | _, [] => []
  | o, chunk data :: es => (o, data) :: chunksAt (o + data.length) es
  | o, gap len :: es => chunksAt (o + len) es

/-- Gaps with their offsets and lengths, when the walk starts at offset `o`. -/
def gapsAt : ℕ → List (Span β) → List (ℕ × ℕ)
  | _, [] => []
  | o, chunk data :: es => gapsAt (o + data.length) es
  | o, gap len :: es => (o, len) :: gapsAt (o + len) es

theorem chunksAt_append (o : ℕ) (es fs : List (Span β)) :
    chunksAt o (es ++ fs) = chunksAt o es ++ chunksAt (o + width es) fs := by
  induction es generalizing o with
  | nil => simp [chunksAt]
  | cons e es ih =>
      cases e <;> simp [chunksAt, ih, length, Nat.add_assoc]

theorem gapsAt_append (o : ℕ) (es fs : List (Span β)) :
    gapsAt o (es ++ fs) = gapsAt o es ++ gapsAt (o + width es) fs := by
  induction es generalizing o with
  | nil => simp [gapsAt]
  | cons e es ih =>
      cases e <;> simp [gapsAt, ih, length, Nat.add_assoc]

/-! ## Tilings -/

/-- The intervals `(offset, length)` cover `[a, b)` from left to right, none of
them empty and each starting where the one before ends. -/
def Tiles : ℕ → List (ℕ × ℕ) → ℕ → Prop
  | a, [], b => a = b
  | a, (o, len) :: is, b => o = a ∧ 0 < len ∧ Tiles (a + len) is b

/-- The extents of chunks and gaps together. -/
def extents (chunks : List (ℕ × List β)) (gaps : List (ℕ × ℕ)) : List (ℕ × ℕ) :=
  chunks.map (fun c ↦ (c.1, c.2.length)) ++ gaps

theorem exists_tiles (o : ℕ) {es : List (Span β)} (hpos : ∀ e ∈ es, 0 < e.length) :
    ∃ is, is.Perm (extents (chunksAt o es) (gapsAt o es)) ∧ Tiles o is (o + width es) := by
  induction es generalizing o with
  | nil => exact ⟨[], by simp [extents, chunksAt, gapsAt], by simp [Tiles]⟩
  | cons e es ih =>
      have he := hpos e (by simp)
      obtain ⟨is, hperm, htiles⟩ := ih (o + e.length) fun a ha ↦ hpos a (by simp [ha])
      refine ⟨(o, e.length) :: is, ?_, rfl, he, by simpa [Nat.add_assoc] using htiles⟩
      cases e with
      | chunk data => simpa [extents, chunksAt, gapsAt, length] using hperm
      | gap len =>
          exact (hperm.cons (o, len)).trans List.perm_middle.symm

/-! ## Delivery -/

/-- The spans `es` read the partial function `known` off from `n` to `m`. -/
inductive Delivers (known : ℕ → β → Prop) : ℕ → List (Span β) → ℕ → Prop
  | nil (n : ℕ) : Delivers known n [] n
  | chunk (n : ℕ) (data : List β) (es : List (Span β)) (m : ℕ) :
      data ≠ [] → (∀ i b, data[i]? = some b → known (n + i) b) →
      Delivers known (n + data.length) es m → Delivers known n (.chunk data :: es) m
  | gap (n len : ℕ) (es : List (Span β)) (m : ℕ) :
      0 < len → (∀ i, i < len → ∀ b, ¬ known (n + i) b) →
      Delivers known (n + len) es m → Delivers known n (.gap len :: es) m

namespace Delivers

variable {known known' : ℕ → β → Prop} {n m k o : ℕ} {es fs : List (Span β)}

theorem trans (h : Delivers known n es m) (h' : Delivers known m fs k) :
    Delivers known n (es ++ fs) k := by
  induction h with
  | nil n => exact h'
  | chunk n data es m hd hk _ ih => exact .chunk n data _ k hd hk (ih h')
  | gap n len es m hl hk _ ih => exact .gap n len _ k hl hk (ih h')

theorem finish_eq (h : Delivers known n es m) : m = n + width es := by
  induction h with
  | nil n => simp
  | chunk n data es m _ _ _ ih => simp only [width_cons, length]; omega
  | gap n len es m _ _ _ ih => simp only [width_cons, length]; omega

theorem length_pos (h : Delivers known n es m) : ∀ e ∈ es, 0 < e.length := by
  induction h with
  | nil n => simp
  | chunk n data es m hd _ _ ih =>
      intro e he
      rcases List.mem_cons.mp he with rfl | he
      · exact List.length_pos_iff.mpr hd
      · exact ih e he
  | gap n len es m hl _ _ ih =>
      intro e he
      rcases List.mem_cons.mp he with rfl | he
      · exact hl
      · exact ih e he

/-- Only what is known from the start of the walk on matters. -/
theorem congr (h : Delivers known n es m)
    (heq : ∀ p b, n ≤ p → (known p b ↔ known' p b)) : Delivers known' n es m := by
  induction h with
  | nil n => exact .nil n
  | chunk n data es m hd hk _ ih =>
      refine .chunk n data es m hd ?_ (ih fun p b hp ↦ heq p b (by omega))
      exact fun i b hb ↦ (heq _ b (by omega)).mp (hk i b hb)
  | gap n len es m hl hk _ ih =>
      refine .gap n len es m hl ?_ (ih fun p b hp ↦ heq p b (by omega))
      exact fun i hi b hb ↦ hk i hi b ((heq _ b (by omega)).mpr hb)

/-- A delivered symbol was known at its position. -/
theorem chunk_known (h : Delivers known n es m) {q : ℕ} {data : List β}
    (hmem : (q, data) ∈ chunksAt o es) {i : ℕ} {b : β} (hb : data[i]? = some b) :
    o ≤ q ∧ known (n + (q - o) + i) b ∧ n + (q - o) + data.length ≤ m := by
  induction h generalizing o with
  | nil n => simp [chunksAt] at hmem
  | chunk n d es m hd hk hrest ih =>
      have hm := hrest.finish_eq
      rcases List.mem_cons.mp hmem with heq | hmem
      · cases heq
        exact ⟨le_rfl, by simpa using hk i b hb, by omega⟩
      · obtain ⟨hoq, hkn, hle⟩ := ih hmem
        have hshift : n + (q - o) = n + d.length + (q - (o + d.length)) := by omega
        exact ⟨by omega, hshift ▸ hkn, hshift ▸ hle⟩
  | gap n len es m hl hk hrest ih =>
      obtain ⟨hoq, hkn, hle⟩ := ih hmem
      have hshift : n + (q - o) = n + len + (q - (o + len)) := by omega
      exact ⟨by omega, hshift ▸ hkn, hshift ▸ hle⟩

/-- Nothing was known where a gap is declared. -/
theorem gap_unknown (h : Delivers known n es m) {q len : ℕ}
    (hmem : (q, len) ∈ gapsAt o es) :
    o ≤ q ∧ (∀ i, i < len → ∀ b, ¬ known (n + (q - o) + i) b) ∧ n + (q - o) + len ≤ m := by
  induction h generalizing o with
  | nil n => simp [gapsAt] at hmem
  | chunk n d es m hd hk hrest ih =>
      obtain ⟨hoq, hkn, hle⟩ := ih hmem
      have hshift : n + (q - o) = n + d.length + (q - (o + d.length)) := by omega
      exact ⟨by omega, hshift ▸ hkn, hshift ▸ hle⟩
  | gap n l es m hl hk hrest ih =>
      have hm := hrest.finish_eq
      rcases List.mem_cons.mp hmem with heq | hmem
      · cases heq
        exact ⟨le_rfl, by simpa using hk, by omega⟩
      · obtain ⟨hoq, hkn, hle⟩ := ih hmem
        have hshift : n + (q - o) = n + l + (q - (o + l)) := by omega
        exact ⟨by omega, hshift ▸ hkn, hshift ▸ hle⟩

/-- What is known on the way is delivered. -/
theorem chunk_of_known (h : Delivers known n es m) {p : ℕ} {b : β} (hb : known p b)
    (hn : n ≤ p) (hm : p < m) (o : ℕ) :
    ∃ q data i c, (q, data) ∈ chunksAt o es ∧ data[i]? = some c ∧ known p c ∧
      n + q + i = p + o := by
  induction h generalizing o with
  | nil n => omega
  | chunk n d es m hd hk hrest ih =>
      by_cases hin : p < n + d.length
      · have hi : p - n < d.length := by omega
        refine ⟨o, d, p - n, d[p - n], by simp [chunksAt], List.getElem?_eq_getElem hi, ?_, by omega⟩
        have := hk (p - n) d[p - n] (List.getElem?_eq_getElem hi)
        rwa [show n + (p - n) = p by omega] at this
      · obtain ⟨q, data, i, c, hmem, hc, hkn, heq⟩ := ih (by omega) hm (o + d.length)
        exact ⟨q, data, i, c, List.mem_cons_of_mem _ hmem, hc, hkn, by omega⟩
  | gap n l es m hl hk hrest ih =>
      by_cases hin : p < n + l
      · have := hk (p - n) (by omega) b
        rw [show n + (p - n) = p by omega] at this
        exact absurd hb this
      · obtain ⟨q, data, i, c, hmem, hc, hkn, heq⟩ := ih (by omega) hm (o + l)
        exact ⟨q, data, i, c, hmem, hc, hkn, by omega⟩

end Delivers

/-! ## Offsets of chunks -/

variable {es : List (Span β)} {o q : ℕ} {data : List β}

theorem le_of_mem_chunksAt (h : (q, data) ∈ chunksAt o es) :
    o ≤ q ∧ q + data.length ≤ o + width es := by
  induction es generalizing o with
  | nil => simp [chunksAt] at h
  | cons e es ih =>
      cases e with
      | chunk d =>
          rcases List.mem_cons.mp h with heq | h
          · cases heq
            simp only [width_cons, length]
            omega
          · have := ih h
            simp only [width_cons, length]
            omega
      | gap len =>
          have := ih h
          simp only [width_cons, length]
          omega

/-- Each chunk ends before the next one starts. -/
theorem chunksAt_apart (o : ℕ) (es : List (Span β)) :
    (chunksAt o es).Pairwise fun c d ↦ c.1 + c.2.length ≤ d.1 := by
  induction es generalizing o with
  | nil => simp [chunksAt]
  | cons e es ih =>
      cases e with
      | chunk data =>
          refine List.pairwise_cons.mpr ⟨?_, ih _⟩
          rintro ⟨q, d⟩ hd
          exact (le_of_mem_chunksAt hd).1
      | gap len => exact ih _

theorem chunksAt_nonempty {o : ℕ} {es : List (Span β)} (hpos : ∀ e ∈ es, 0 < e.length)
    {c : ℕ × List β} (h : c ∈ chunksAt o es) : 0 < c.2.length := by
  induction es generalizing o with
  | nil => simp [chunksAt] at h
  | cons e es ih =>
      have ih' := fun {o} ↦ @ih o fun a ha ↦ hpos a (List.mem_cons_of_mem e ha)
      cases e with
      | chunk data =>
          rcases List.mem_cons.mp h with rfl | h
          · exact hpos (.chunk data) (by simp)
          · exact ih' h
      | gap len => exact ih' h

theorem le_of_mem_gapsAt {len : ℕ} (h : (q, len) ∈ gapsAt o es) : o ≤ q := by
  induction es generalizing o with
  | nil => simp [gapsAt] at h
  | cons e es ih =>
      cases e with
      | chunk d => exact (Nat.le_add_right o d.length).trans (ih h)
      | gap l =>
          rcases List.mem_cons.mp h with heq | h
          · cases heq
            exact le_rfl
          · exact (Nat.le_add_right o l).trans (ih h)

theorem chunksAt_increasing (o : ℕ) {es : List (Span β)} (hpos : ∀ e ∈ es, 0 < e.length) :
    (chunksAt o es).Pairwise fun c d ↦ c.1 < d.1 := by
  refine List.Pairwise.imp_of_mem ?_ (chunksAt_apart o es)
  intro c d hc _ hcd
  have := chunksAt_nonempty hpos hc
  omega

theorem gapsAt_increasing (o : ℕ) {es : List (Span β)} (hpos : ∀ e ∈ es, 0 < e.length) :
    (gapsAt o es).Pairwise fun c d ↦ c.1 < d.1 := by
  induction es generalizing o with
  | nil => simp [gapsAt]
  | cons e es ih =>
      have hes : ∀ a ∈ es, 0 < a.length := fun a ha ↦ hpos a (List.mem_cons_of_mem e ha)
      cases e with
      | chunk data => exact ih _ hes
      | gap len =>
          have hlen : 0 < len := hpos (.gap len) (by simp)
          refine List.pairwise_cons.mpr ⟨?_, ih _ hes⟩
          rintro ⟨q, l⟩ hd
          have := le_of_mem_gapsAt hd
          simp only
          omega

/-! ## Walks without gaps -/

/-- The symbols of all chunks, in order. -/
def symbols (es : List (Span β)) : List β :=
  es.flatMap fun
    | chunk data => data
    | gap _ => []

/-- Each chunk starts where the one before ends, the first at `o`. -/
def Consecutive : ℕ → List (ℕ × List β) → Prop
  | _, [] => True
  | o, (q, data) :: cs => q = o ∧ Consecutive (o + data.length) cs

theorem consecutive_append {o : ℕ} {cs ds : List (ℕ × List β)} (hcs : Consecutive o cs)
    (hds : Consecutive (o + (cs.flatMap Prod.snd).length) ds) : Consecutive o (cs ++ ds) := by
  induction cs generalizing o with
  | nil => simpa using hds
  | cons c cs ih =>
      refine ⟨hcs.1, ih hcs.2 ?_⟩
      simpa [Nat.add_assoc] using hds

theorem flatMap_chunksAt (o : ℕ) (es : List (Span β)) :
    (chunksAt o es).flatMap Prod.snd = symbols es := by
  induction es generalizing o with
  | nil => rfl
  | cons e es ih => cases e <;> simp [chunksAt, symbols, ih]

/-- A walk that declares no gap is known everywhere, and its symbols stand one after the
other. -/
theorem Delivers.of_no_gap {known : ℕ → β → Prop} {n m o : ℕ} {es : List (Span β)}
    (h : Delivers known n es m) (hgap : gapsAt o es = []) :
    Consecutive o (chunksAt o es) ∧ (symbols es).length = width es ∧
      ∀ i b, (symbols es)[i]? = some b → known (n + i) b := by
  induction h generalizing o with
  | nil n => simp [chunksAt, symbols, Consecutive]
  | chunk n d es m hd hk hrest ih =>
      obtain ⟨hcons, hlen, hsym⟩ := ih hgap
      refine ⟨⟨rfl, hcons⟩, ?_, fun i b hb ↦ ?_⟩
      · have : (symbols (.chunk d :: es)).length = d.length + (symbols es).length := by
          simp [symbols]
        rw [this, hlen, width_cons, length]
      · replace hb : (d ++ symbols es)[i]? = some b := hb
        by_cases hi : i < d.length
        · rw [List.getElem?_append_left hi] at hb
          exact hk i b hb
        · rw [List.getElem?_append_right (not_lt.mp hi)] at hb
          have := hsym (i - d.length) b hb
          rwa [show n + d.length + (i - d.length) = n + i by omega] at this
  | gap n l es m hl hk hrest ih => simp [gapsAt] at hgap

end Span

end Bazalt.Lib
