import Mathlib.Tactic

/-!
# Slices of a sequence, in order

A list of pieces with their positions, taken from the front part of a list one after the
other.  Placed at an offset, they extend what has been read of a partially known sequence.
-/

namespace Bazalt.Lib

variable {α : Type*}

/-- `data` is what is known from `o` on. -/
def ReadsAt (known : ℕ → Option α) (o : ℕ) (data : List α) : Prop :=
  ∀ i (h : i < data.length), known (o + i) = some data[i]

theorem readsAt_nil (known : ℕ → Option α) (o : ℕ) : ReadsAt known o [] :=
  fun i h ↦ absurd h (Nat.not_lt_zero i)

theorem ReadsAt.of_prefix_drop {known : ℕ → Option α} {o k : ℕ} {xs data : List α}
    (h : ReadsAt known o xs) (hd : data <+: xs.drop k) : ReadsAt known (o + k) data := by
  obtain ⟨rest, hrest⟩ := hd
  intro i hi
  have hlen : data.length + rest.length = xs.length - k := by
    rw [← List.length_append, hrest, List.length_drop]
  have hread := h (k + i) (by omega)
  have hget : xs[k + i]? = data[i]? := by
    rw [← List.getElem?_drop, ← hrest, List.getElem?_append_left hi]
  rw [List.getElem?_eq_getElem (by omega), List.getElem?_eq_getElem hi] at hget
  rw [Nat.add_assoc, hread, hget]

theorem ReadsAt.append {known : ℕ → Option α} {o : ℕ} {xs ys : List α} (hx : ReadsAt known o xs)
    (hy : ReadsAt known (o + xs.length) ys) : ReadsAt known o (xs ++ ys) := by
  intro i hi
  rcases Nat.lt_or_ge i xs.length with hlt | hge
  · rw [hx i hlt, List.getElem_append_left hlt]
  · have hread := hy (i - xs.length) (by rw [List.length_append] at hi; omega)
    rw [List.getElem_append_right hge, ← hread]
    congr 1
    omega

/-- The pieces `ps` stand in the first `k` elements of `xs`, in order. -/
structure PlacedIn (xs : List α) (k : ℕ) (ps : List (ℕ × List α)) : Prop where
  nonempty : ∀ q ∈ ps, q.2 ≠ []
  within : ∀ q ∈ ps, q.1 + q.2.length ≤ k
  piece : ∀ q ∈ ps, q.2 <+: xs.drop q.1
  apart : ps.Pairwise fun q q' ↦ q.1 + q.2.length ≤ q'.1

theorem PlacedIn.nil (xs : List α) (k : ℕ) : PlacedIn xs k [] := by
  constructor <;> simp

theorem PlacedIn.mono {xs : List α} {k k' : ℕ} {ps : List (ℕ × List α)} (h : PlacedIn xs k ps)
    (hk : k ≤ k') : PlacedIn xs k' ps :=
  ⟨h.nonempty, fun q hq ↦ (h.within q hq).trans hk, h.piece, h.apart⟩

theorem PlacedIn.concat {xs : List α} {k k' s : ℕ} {ps : List (ℕ × List α)} {data : List α}
    (h : PlacedIn xs k ps) (hs : k ≤ s) (hne : data ≠ []) (hdata : data <+: xs.drop s)
    (hk : s + data.length ≤ k') : PlacedIn xs k' (ps ++ [(s, data)]) := by
  refine ⟨?_, ?_, ?_, ?_⟩
  · simpa [or_imp, forall_and] using ⟨fun a b hq ↦ h.nonempty (a, b) hq, hne⟩
  · intro q hq
    rcases List.mem_append.mp hq with hq | hq
    · have := h.within q hq
      omega
    · obtain rfl := List.mem_singleton.mp hq
      exact hk
  · intro q hq
    rcases List.mem_append.mp hq with hq | hq
    · exact h.piece q hq
    · obtain rfl := List.mem_singleton.mp hq
      exact hdata
  · rw [List.pairwise_append]
    refine ⟨h.apart, List.pairwise_singleton _ _, fun q hq q' hq' ↦ ?_⟩
    obtain rfl := List.mem_singleton.mp hq'
    exact (h.within q hq).trans hs

theorem placedIn_singleton {xs : List α} {k n : ℕ} (hn : n ≠ 0) (hk : n ≤ k) (hx : n ≤ xs.length) :
    PlacedIn xs k [(0, xs.take n)] := by
  have hlen : (xs.take n).length = n := by rw [List.length_take]; omega
  have hne : xs.take n ≠ [] := by
    intro h
    rw [h] at hlen
    exact hn hlen.symm
  exact (PlacedIn.nil xs 0).concat le_rfl hne (List.take_prefix n xs) (by omega)

/-- What has been read of a sequence up to `bound`: pieces that do not overlap. -/
structure Ledger (known : ℕ → Option α) (bound : ℕ) (ps : List (ℕ × List α)) : Prop where
  nonempty : ∀ q ∈ ps, q.2 ≠ []
  within : ∀ q ∈ ps, q.1 + q.2.length ≤ bound
  reads : ∀ q ∈ ps, ReadsAt known q.1 q.2
  apart : ps.Pairwise fun q q' ↦ q.1 + q.2.length ≤ q'.1

theorem Ledger.nil (known : ℕ → Option α) (bound : ℕ) : Ledger known bound [] := by
  constructor <;> simp

theorem Ledger.mono {known : ℕ → Option α} {bound bound' : ℕ} {ps : List (ℕ × List α)}
    (h : Ledger known bound ps) (hb : bound ≤ bound') : Ledger known bound' ps :=
  ⟨h.nonempty, fun q hq ↦ (h.within q hq).trans hb, h.reads, h.apart⟩

theorem Ledger.append_placed {known : ℕ → Option α} {o k : ℕ} {ps qs : List (ℕ × List α)}
    {xs : List α} (h : Ledger known o ps) (hx : ReadsAt known o xs) (hq : PlacedIn xs k qs) :
    Ledger known (o + k) (ps ++ qs.map fun q ↦ (o + q.1, q.2)) := by
  have hnew : ∀ r ∈ qs.map fun q ↦ (o + q.1, q.2), ∃ q ∈ qs, r = (o + q.1, q.2) := by
    intro r hr
    obtain ⟨q, hq, rfl⟩ := List.mem_map.mp hr
    exact ⟨q, hq, rfl⟩
  refine ⟨?_, ?_, ?_, ?_⟩
  · intro r hr
    rcases List.mem_append.mp hr with hr | hr
    · exact h.nonempty r hr
    · obtain ⟨q, hmem, rfl⟩ := hnew r hr
      exact hq.nonempty q hmem
  · intro r hr
    rcases List.mem_append.mp hr with hr | hr
    · have := h.within r hr
      omega
    · obtain ⟨q, hmem, rfl⟩ := hnew r hr
      have := hq.within q hmem
      dsimp only
      omega
  · intro r hr
    rcases List.mem_append.mp hr with hr | hr
    · exact h.reads r hr
    · obtain ⟨q, hmem, rfl⟩ := hnew r hr
      exact hx.of_prefix_drop (hq.piece q hmem)
  · rw [List.pairwise_append]
    refine ⟨h.apart, ?_, fun r hr r' hr' ↦ ?_⟩
    · rw [List.pairwise_map]
      exact hq.apart.imp fun hle ↦ by dsimp only; omega
    · obtain ⟨q, -, rfl⟩ := hnew r' hr'
      have := h.within r hr
      dsimp only
      omega

end Bazalt.Lib
