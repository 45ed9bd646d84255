import Bazalt.Capture.Datagrams
import Bazalt.Lib.Run

/-!
# The budget of the fragment cache

What the cache counts is what it holds: a charge for every datagram and for every piece of
it.  After every call the count is within the budget, and so is the number of datagrams.
-/

namespace Bazalt.Capture

open Lib

section Charges

namespace FragmentState

/-- What a datagram is charged for. -/
def charge (s : FragmentState) : ℕ :=
  fragmentDatagramOverhead +
    (s.pieces.entries.map fun e ↦ e.2.data.length + fragmentPieceOverhead).sum

variable {s d : FragmentState} {offset finish : ℕ} {more : Bool} {payload : Bytes}

theorem charge_add (more : Bool) (payload : Bytes) (wireLen : ℕ)
    (hnew : ∀ e ∈ s.pieces.entries, e.1 ≠ offset) :
    (s.add offset more payload wireLen).charge =
      s.charge + (payload.length + fragmentPieceOverhead) := by
  have hperm := OrdMap.insertEntry_perm offset (⟨payload, more⟩ : FragmentPiece)
    s.pieces.sorted hnew
  have hsum := (hperm.map fun e ↦ e.2.data.length + fragmentPieceOverhead).sum_eq
  rw [List.map_cons, List.sum_cons] at hsum
  change fragmentDatagramOverhead + (List.map _ (OrdMap.insertEntry _ _ _)).sum = _
  rw [hsum, charge]
  dsimp only
  omega

theorem absent_of_judge (h : s.judge offset finish more payload = .new) :
    ∀ e ∈ s.pieces.entries, e.1 ≠ offset := by
  unfold judge at h
  split_ifs at h
  split at h
  · split_ifs at h
  next hnone =>
    intro e he heq
    exact absurd (List.find?_eq_none.mp hnone e he) (by simpa using heq)

theorem judge_of_empty (h : s.pieces.entries = []) :
    s.judge offset finish more payload ≠ .duplicate := by
  unfold judge
  rw [h]
  simp only [List.find?_nil]
  split_ifs <;> simp

/-- The length that is declared is not charged for. -/
theorem declare_frame (h : s.declare more finish = some d) :
    d.bytes = s.bytes ∧ d.pieces = s.pieces := by
  unfold declare at h
  split_ifs at h
  all_goals
    obtain rfl := Option.some.inj h
    exact ⟨rfl, rfl⟩

end FragmentState

/-- A table of datagrams and what they are charged for in all. -/
structure Charged (states : List (FragmentKey × FragmentState)) (total : ℕ) : Prop where
  nodup : (states.map Prod.fst).Nodup
  each : ∀ e ∈ states, e.2.bytes = e.2.charge
  total : total = (states.map fun e ↦ e.2.bytes).sum

variable {before after : List (FragmentKey × FragmentState)} {key : FragmentKey}
  {s s' : FragmentState} {total : ℕ}

theorem charged_nil : Charged [] 0 :=
  ⟨List.nodup_nil, by simp, rfl⟩

theorem Charged.removed (h : Charged (before ++ (key, s) :: after) total) :
    Charged (before ++ after) (total - s.bytes) := by
  have hkeys : (before ++ after).Sublist (before ++ (key, s) :: after) :=
    (List.Sublist.refl _).append (List.sublist_cons_self _ _)
  refine ⟨h.nodup.sublist (hkeys.map Prod.fst), fun e he ↦ h.each e (hkeys.subset he), ?_⟩
  rw [h.total]
  simp only [List.map_append, List.map_cons, List.sum_append, List.sum_cons]
  omega

theorem Charged.replaced (h : Charged (before ++ (key, s) :: after) total)
    (hs' : s'.bytes = s'.charge) :
    Charged (before ++ (key, s') :: after) (total - s.bytes + s'.bytes) := by
  refine ⟨by simpa using h.nodup, fun e he ↦ ?_, ?_⟩
  · rw [List.mem_append, List.mem_cons] at he
    rcases he with he | rfl | he
    · exact h.each e (List.mem_append_left _ he)
    · exact hs'
    · exact h.each e (List.mem_append_right _ (List.mem_cons_of_mem _ he))
  · rw [h.total]
    simp only [List.map_append, List.map_cons, List.sum_append, List.sum_cons]
    omega

theorem Charged.le_total (h : Charged (before ++ (key, s) :: after) total) : s.bytes ≤ total := by
  rw [h.total]
  simp only [List.map_append, List.map_cons, List.sum_append, List.sum_cons]
  omega

theorem Charged.entered {states : List (FragmentKey × FragmentState)} (h : Charged states total)
    (hkey : key ∉ states.map Prod.fst) (hs : s.bytes = s.charge) :
    Charged (states ++ [(key, s)]) (total + s.bytes) := by
  refine ⟨?_, fun e he ↦ ?_, ?_⟩
  · rw [List.map_append]
    exact h.nodup.append (List.nodup_singleton _) (by simpa using hkey)
  · rcases List.mem_append.mp he with he | he
    · exact h.each e he
    · rw [List.mem_singleton.mp he]
      exact hs
  · simp [h.total]

end Charges

namespace FragmentCache

section Table

variable {c : FragmentCache} {key : FragmentKey} {s : FragmentState}

def Accounted (c : FragmentCache) : Prop := Charged c.states c.bytes

theorem exists_split (hnodup : (c.states.map Prod.fst).Nodup) (hs : c.state? key = some s) :
    ∃ before after, c.states = before ++ (key, s) :: after ∧
      ∀ e ∈ before ++ after, e.1 ≠ key := by
  obtain ⟨⟨k, t⟩, hfind, rfl⟩ := Option.map_eq_some_iff.mp hs
  obtain ⟨hkey, before, after, hsplit, hbefore⟩ := List.find?_eq_some_iff_append.mp hfind
  obtain rfl : k = key := by simpa using hkey
  refine ⟨before, after, hsplit, fun e he heq ↦ ?_⟩
  rcases List.mem_append.mp he with he | he
  · exact absurd heq (by simpa using hbefore e he)
  · rw [hsplit, List.map_append, List.map_cons] at hnodup
    have hcons := (List.nodup_append.mp hnodup).2.1
    have hmem : e.1 ∈ after.map Prod.fst := List.mem_map_of_mem he
    exact (List.nodup_cons.mp hcons).1 (heq ▸ hmem)

theorem filter_split {before after : List (FragmentKey × FragmentState)}
    (hothers : ∀ e ∈ before ++ after, e.1 ≠ key) :
    (before ++ (key, s) :: after).filter (fun e ↦ decide (e.1 ≠ key)) = before ++ after := by
  rw [List.filter_append, List.filter_cons_of_neg (by simp), ← List.filter_append,
    List.filter_eq_self]
  exact fun e he ↦ by simpa using hothers e he

theorem map_split {before after : List (FragmentKey × FragmentState)} (s' : FragmentState)
    (hothers : ∀ e ∈ before ++ after, e.1 ≠ key) :
    ((before ++ (key, s) :: after).map fun e ↦ if e.1 = key then (key, s') else e) =
      before ++ (key, s') :: after := by
  have hsame : ∀ l ⊆ before ++ after, (l.map fun e ↦ if e.1 = key then (key, s') else e) = l := by
    intro l hl
    rw [List.map_congr_left fun e he ↦ if_neg (hothers e (hl he)), List.map_id']
  rw [List.map_append, List.map_cons, if_pos rfl, hsame _ (List.subset_append_left _ _),
    hsame _ (List.subset_append_right _ _)]

/-- A step that leaves the limits and makes the cache no larger. -/
structure Shrinks (c c' : FragmentCache) : Prop where
  maxBytes : c'.maxBytes = c.maxBytes
  maxDatagrams : c'.maxDatagrams = c.maxDatagrams
  bytes : c'.bytes ≤ c.bytes
  length : c'.states.length ≤ c.states.length

theorem Shrinks.refl (c : FragmentCache) : c.Shrinks c := ⟨rfl, rfl, le_rfl, le_rfl⟩

theorem Shrinks.trans {c c' c'' : FragmentCache} (h : c.Shrinks c') (h' : c'.Shrinks c'') :
    c.Shrinks c'' :=
  ⟨h'.maxBytes.trans h.maxBytes, h'.maxDatagrams.trans h.maxDatagrams, h'.bytes.trans h.bytes,
    h'.length.trans h.length⟩

theorem shrinks_removeKey (c : FragmentCache) (key : FragmentKey) : c.Shrinks (c.removeKey key) := by
  unfold removeKey
  split
  · exact .refl c
  · exact ⟨rfl, rfl, Nat.sub_le _ _, List.length_filter_le _ _⟩

theorem Accounted.removeKey (h : c.Accounted) (key : FragmentKey) : (c.removeKey key).Accounted := by
  unfold FragmentCache.removeKey
  cases hs : c.state? key with
  | none => exact h
  | some s =>
      obtain ⟨before, after, hsplit, hothers⟩ := exists_split h.nodup hs
      unfold Accounted at h ⊢
      dsimp only
      rw [hsplit] at h ⊢
      rw [filter_split hothers]
      exact h.removed

theorem length_removeKey (hnodup : (c.states.map Prod.fst).Nodup) (hs : c.state? key = some s) :
    (c.removeKey key).states.length + 1 = c.states.length := by
  obtain ⟨before, after, hsplit, hothers⟩ := exists_split hnodup hs
  simp only [FragmentCache.removeKey, hs]
  rw [hsplit, filter_split hothers]
  simp only [List.length_append, List.length_cons]
  omega

theorem Accounted.foldl_removeKey (h : c.Accounted) (keys : List FragmentKey) :
    (keys.foldl FragmentCache.removeKey c).Accounted ∧
      c.Shrinks (keys.foldl FragmentCache.removeKey c) := by
  induction keys generalizing c with
  | nil => exact ⟨h, .refl c⟩
  | cons key keys ih =>
      obtain ⟨haccounted, hshrinks⟩ := ih (h.removeKey key)
      exact ⟨haccounted, (shrinks_removeKey c key).trans hshrinks⟩

theorem Accounted.maintenance (h : c.Accounted) (now : ℕ) :
    (c.maintenance now).1.Accounted ∧ c.Shrinks (c.maintenance now).1 := by
  unfold FragmentCache.maintenance
  split_ifs
  · exact ⟨h, .refl c⟩
  · have hclean : Accounted { c with lastCleanup := now } := h
    obtain ⟨haccounted, hshrinks⟩ := hclean.foldl_removeKey
      ((c.states.filter fun e ↦ decide (c.timeout ≤ now - e.2.lastSeen)).map Prod.fst)
    exact ⟨haccounted, hshrinks.maxBytes, hshrinks.maxDatagrams, hshrinks.bytes, hshrinks.length⟩

theorem Accounted.tryComplete (h : c.Accounted) (key : FragmentKey) :
    (c.tryComplete key).1.Accounted ∧ c.Shrinks (c.tryComplete key).1 := by
  unfold FragmentCache.tryComplete
  split
  · exact ⟨h, .refl c⟩
  · split
    · exact ⟨h, .refl c⟩
    · exact ⟨h.removeKey key, shrinks_removeKey c key⟩

theorem Accounted.charged (h : c.Accounted) (hs : c.state? key = some s) :
    s.bytes = s.charge ∧ s.bytes ≤ c.bytes := by
  obtain ⟨before, after, hsplit, -⟩ := exists_split h.nodup hs
  have hcharged : Charged (before ++ (key, s) :: after) c.bytes := hsplit ▸ h
  exact ⟨hcharged.each (key, s) (by simp), hcharged.le_total⟩

theorem Accounted.replaced (h : c.Accounted) (hs : c.state? key = some s) {s' : FragmentState}
    (hs' : s'.bytes = s'.charge) :
    Charged (c.setState key s').states (c.bytes - s.bytes + s'.bytes) := by
  obtain ⟨before, after, hsplit, hothers⟩ := exists_split h.nodup hs
  have hcharged : Charged (before ++ (key, s) :: after) c.bytes := hsplit ▸ h
  rw [setState]
  dsimp only
  rw [hsplit, map_split s' hothers]
  exact hcharged.replaced hs'

theorem state?_setState_self (hs : c.state? key = some s) (s' : FragmentState) :
    (c.setState key s').state? key = some s' := by
  rw [state?_setState, if_pos rfl, hs]
  rfl

end Table

section Eviction

variable {c : FragmentCache}

theorem oldest?_eq_none (h : c.oldest? = none) : c.states = [] := by
  have hsome : ∀ (l : List (FragmentKey × FragmentState)) (b : FragmentKey × FragmentState),
      (l.foldl older (some b)).isSome := by
    intro l
    induction l with
    | nil => exact fun b ↦ rfl
    | cons e l ih =>
        intro b
        rw [List.foldl_cons, older]
        split_ifs
        · exact ih e
        · exact ih b
  rw [oldest?_eq] at h
  cases hstates : c.states with
  | nil => rfl
  | cons e l =>
      rw [hstates, List.foldl_cons, Option.map_eq_none_iff] at h
      have hnone := hsome l e
      rw [Option.isSome_iff_ne_none] at hnone
      exact absurd h hnone

theorem state?_of_mem {e : FragmentKey × FragmentState} (he : e ∈ c.states) :
    ∃ s, c.state? e.1 = some s := by
  have hfind : (c.states.find? fun a ↦ decide (a.1 = e.1)).isSome :=
    List.find?_isSome.mpr ⟨e, he, by simp⟩
  obtain ⟨a, ha⟩ := Option.isSome_iff_exists.mp hfind
  exact ⟨a.2, by rw [state?, ha]; rfl⟩

theorem state?_oldest? {key : FragmentKey} (h : c.oldest? = some key) :
    ∃ s, c.state? key = some s := by
  have hmem : ∀ (l : List (FragmentKey × FragmentState)) (best : Option _),
      ∀ e ∈ l.foldl older best, e ∈ best ∨ e ∈ l := by
    intro l
    induction l with
    | nil => exact fun best e he ↦ .inl he
    | cons a l ih =>
        intro best e he
        rw [List.foldl_cons] at he
        rcases ih _ e he with hbest | hl
        · cases best with
          | none =>
              obtain rfl := Option.some.inj hbest
              exact .inr List.mem_cons_self
          | some b =>
              rw [older] at hbest
              split_ifs at hbest
              · obtain rfl := Option.some.inj hbest
                exact .inr List.mem_cons_self
              · exact .inl hbest
        · exact .inr (List.mem_cons_of_mem a hl)
  obtain ⟨e, he, rfl⟩ := Option.map_eq_some_iff.mp h
  rcases hmem c.states none e he with hnone | hin
  · cases hnone
  · exact state?_of_mem hin

/-- Eviction goes on until the cache is within its limits. -/
theorem Accounted.evict (h : c.Accounted) {rounds : ℕ} (hrounds : c.states.length < rounds)
    (m : FragmentMaintenance) :
    (FragmentCache.evict rounds c m).1.Accounted ∧ c.Shrinks (FragmentCache.evict rounds c m).1 ∧
      (FragmentCache.evict rounds c m).1.bytes ≤ c.maxBytes ∧
      (FragmentCache.evict rounds c m).1.states.length ≤ c.maxDatagrams := by
  induction rounds generalizing c m with
  | zero => omega
  | succ rounds ih =>
      rw [FragmentCache.evict]
      split_ifs with hover
      · cases holdest : c.oldest? with
        | none =>
            have hstates := oldest?_eq_none holdest
            have hbytes : c.bytes = 0 := by
              rw [h.total, hstates]
              rfl
            refine ⟨h, .refl c, ?_, ?_⟩
            · rw [hbytes]
              exact Nat.zero_le _
            · rw [hstates]
              exact Nat.zero_le _
        | some key =>
            obtain ⟨s, hs⟩ := state?_oldest? holdest
            have hlength := length_removeKey h.nodup hs
            have hshrinks := shrinks_removeKey c key
            obtain ⟨haccounted, hrest, hbytes, hdatagrams⟩ :=
              ih (h.removeKey key) (by omega) { m with evicted := satAdd m.evicted 1 }
            rw [hshrinks.maxBytes] at hbytes
            rw [hshrinks.maxDatagrams] at hdatagrams
            exact ⟨haccounted, hshrinks.trans hrest, hbytes, hdatagrams⟩
      · exact ⟨h, .refl c, not_lt.mp fun hlt ↦ hover (.inl hlt),
          not_lt.mp fun hlt ↦ hover (.inr hlt)⟩

end Eviction

section Insertion

variable {c c' : FragmentCache} {key : FragmentKey} {s s' : FragmentState} {limit count : ℕ}

/-- A cache within its limits, whose counts are right. -/
structure Kept (limit count : ℕ) (c : FragmentCache) : Prop where
  maxBytes : c.maxBytes = limit
  maxDatagrams : c.maxDatagrams = count
  accounted : c.Accounted
  bytes : c.bytes ≤ limit
  datagrams : c.states.length ≤ count

theorem Kept.shrinks (h : c.Kept limit count) (haccounted : c'.Accounted)
    (hshrinks : c.Shrinks c') : c'.Kept limit count :=
  ⟨hshrinks.maxBytes.trans h.maxBytes, hshrinks.maxDatagrams.trans h.maxDatagrams, haccounted,
    hshrinks.bytes.trans h.bytes, hshrinks.length.trans h.datagrams⟩

/-- While a fragment is added, the cache may be larger by the fragment's datagram. -/
structure Holding (c c' : FragmentCache) (key : FragmentKey) (s : FragmentState) : Prop where
  maxBytes : c'.maxBytes = c.maxBytes
  maxDatagrams : c'.maxDatagrams = c.maxDatagrams
  accounted : c'.Accounted
  state : c'.state? key = some s
  bytes : c'.bytes ≤ c.bytes + s.bytes
  length : c'.states.length ≤ c.states.length + 1

theorem Holding.removed (h : c.Holding c' key s) (hc : c.Kept limit count) :
    (c'.removeKey key).Kept limit count := by
  have hlength := length_removeKey h.accounted.nodup h.state
  have hgrew := h.length
  have hbytes := h.bytes
  have hshrinks := shrinks_removeKey c' key
  refine hc.shrinks (h.accounted.removeKey key) ⟨hshrinks.maxBytes.trans h.maxBytes,
    hshrinks.maxDatagrams.trans h.maxDatagrams, ?_, by omega⟩
  simp only [FragmentCache.removeKey, h.state]
  omega

theorem Holding.replaced (h : c.Holding c' key s) (hbytes : s'.bytes = s.bytes)
    (hpieces : s'.pieces = s.pieces) : c.Holding (c'.setState key s') key s' := by
  obtain ⟨hcharge, hle⟩ := h.accounted.charged h.state
  have hcharge' : s'.bytes = s'.charge := by
    rw [hbytes, hcharge, FragmentState.charge, FragmentState.charge, hpieces]
  have hcharged := h.accounted.replaced h.state hcharge'
  rw [hbytes, Nat.sub_add_cancel hle] at hcharged
  refine ⟨h.maxBytes, h.maxDatagrams, hcharged, state?_setState_self h.state s', ?_, ?_⟩
  · rw [hbytes]
    exact h.bytes
  · simpa [setState] using h.length

/-- A piece is counted twice, in its datagram and in the cache. -/
theorem Holding.added (h : c.Holding c' key s) {offset : ℕ} (more : Bool)
    (payload : Bytes) (wireLen : ℕ) (hnew : ∀ e ∈ s.pieces.entries, e.1 ≠ offset)
    (hfits : c'.bytes + (payload.length + fragmentPieceOverhead) ≤ u64Max) :
    c.Holding { c'.setState key (s.add offset more payload wireLen) with
        bytes := satAdd c'.bytes (satAdd payload.length fragmentPieceOverhead) }
      key (s.add offset more payload wireLen) := by
  obtain ⟨hcharge, hle⟩ := h.accounted.charged h.state
  have hbytes : (s.add offset more payload wireLen).bytes =
      s.bytes + (payload.length + fragmentPieceOverhead) := by
    change satAdd s.bytes (satAdd payload.length fragmentPieceOverhead) = _
    rw [satAdd_of_le (by omega : payload.length + fragmentPieceOverhead ≤ u64Max)]
    exact satAdd_of_le (by omega)
  have hcharge' : (s.add offset more payload wireLen).bytes =
      (s.add offset more payload wireLen).charge := by
    rw [hbytes, FragmentState.charge_add more payload wireLen hnew, hcharge]
  have hcharged := h.accounted.replaced h.state hcharge'
  have htotal : satAdd c'.bytes (satAdd payload.length fragmentPieceOverhead) =
      c'.bytes - s.bytes + (s.add offset more payload wireLen).bytes := by
    rw [satAdd_of_le (by omega : payload.length + fragmentPieceOverhead ≤ u64Max),
      satAdd_of_le hfits, hbytes]
    omega
  have hgrew := h.bytes
  refine ⟨h.maxBytes, h.maxDatagrams, ?_, ?_, ?_, ?_⟩
  · rw [Accounted]
    dsimp only
    rw [htotal]
    exact hcharged
  · exact state?_setState_self h.state _
  · dsimp only
    rw [htotal, hbytes]
    omega
  · simpa [setState] using h.length

/-- A datagram is there before its fragment is added, or is made with the first one. -/
theorem Kept.enter (h : c.Kept limit count) (hroom : limit + fragmentDatagramOverhead ≤ u64Max)
    (now : ℕ) (key : FragmentKey) :
    ∃ s, c.Holding (c.enter now key).1 key s ∧ (c.enter now key).2.bytes = s.bytes ∧
      (c.enter now key).2.pieces = s.pieces ∧
      (c.enter now key).1.bytes ≤ c.bytes + fragmentDatagramOverhead ∧
      (s.pieces.entries = [] ∨ (c.enter now key).1 = c) := by
  unfold FragmentCache.enter
  cases hstate : c.state? key with
  | some s =>
      exact ⟨s, ⟨rfl, rfl, h.accounted, hstate, Nat.le_add_right _ _, Nat.le_succ _⟩, rfl, rfl,
        Nat.le_add_right _ _, .inr rfl⟩
  | none =>
      have hfind : c.states.find? (fun e ↦ decide (e.1 = key)) = none :=
        Option.map_eq_none_iff.mp hstate
      have habsent : key ∉ c.states.map Prod.fst := by
        intro hmem
        obtain ⟨e, he, heq⟩ := List.mem_map.mp hmem
        exact absurd (List.find?_eq_none.mp hfind e he) (by simpa using heq)
      have hbytes := h.bytes
      have htotal : satAdd c.bytes fragmentDatagramOverhead = c.bytes + fragmentDatagramOverhead :=
        satAdd_of_le (by omega)
      have hcharged : Charged (c.states ++ [(key, { lastSeen := now })])
          (c.bytes + fragmentDatagramOverhead) :=
        Charged.entered h.accounted habsent rfl
      refine ⟨{ lastSeen := now }, ⟨rfl, rfl, ?_, ?_, ?_, by simp⟩, rfl, rfl, ?_, .inl rfl⟩
      · rw [Accounted]
        dsimp only
        rw [htotal]
        exact hcharged
      · simp [state?, List.find?_append, hfind]
      · exact htotal.le
      · exact htotal.le

/-- What a call may add to the cache before it evicts. -/
def callBytes : ℕ := fragmentDatagramOverhead + (65535 + fragmentPieceOverhead)

theorem Kept.insert (h : c.Kept limit count) (hroom : limit + callBytes ≤ u64Max) (now : ℕ)
    (key : FragmentKey) (offset : ℕ) (more : Bool) (payload : Bytes) (wireLen : ℕ) :
    (c.insert now key offset more payload wireLen).1.Kept limit count := by
  unfold callBytes at hroom
  obtain ⟨hclean, hshrinks⟩ := h.accounted.maintenance now
  have hkept := h.shrinks hclean hshrinks
  unfold FragmentCache.insert
  dsimp only
  generalize (c.maintenance now).1 = c₁ at hkept
  split_ifs with hword hbad
  · exact hkept
  · exact hkept.shrinks (hkept.accounted.removeKey key) (shrinks_removeKey c₁ key)
  · obtain ⟨s, hholding, hbytes, hpieces, hgrew, hold⟩ := hkept.enter (by omega) now key
    generalize (c₁.enter now key).1 = c₂ at hholding hgrew hold ⊢
    generalize (c₁.enter now key).2 = t at hbytes hpieces ⊢
    cases hdeclare : t.declare more (offset + payload.length) with
    | none => exact (hholding.replaced hbytes hpieces).removed hkept
    | some d =>
        obtain ⟨hdbytes, hdpieces⟩ := FragmentState.declare_frame hdeclare
        have hdeclared := hholding.replaced (hdbytes.trans hbytes) (hdpieces.trans hpieces)
        dsimp only
        cases hjudge : d.judge offset (offset + payload.length) more payload with
        | invalid => exact hdeclared.removed hkept
        | overlap => exact hdeclared.removed hkept
        | duplicate =>
            have hpresent : s.pieces.entries ≠ [] := by
              intro hempty
              rw [← hpieces, ← hdpieces] at hempty
              exact FragmentState.judge_of_empty hempty hjudge
            rcases hold with hempty | rfl
            · exact absurd hempty hpresent
            · have hsame : c₂.Shrinks (c₂.setState key d) :=
                ⟨rfl, rfl, le_rfl, (List.length_map _).le⟩
              obtain ⟨haccounted, hshrinks⟩ := hdeclared.accounted.tryComplete key
              exact hkept.shrinks haccounted (hsame.trans hshrinks)
        | new =>
            have hbytes₁ := hkept.bytes
            have hfits : (c₂.setState key d).bytes +
                (payload.length + fragmentPieceOverhead) ≤ u64Max := by
              change c₂.bytes + _ ≤ _
              omega
            have hadded := hdeclared.added more payload wireLen
              (FragmentState.absent_of_judge hjudge) hfits
            dsimp only
            generalize ({ (c₂.setState key d).setState key (d.add offset more payload wireLen) with
              bytes := _ } : FragmentCache) = c₃ at hadded ⊢
            rw [tryComplete_of_state c₃ hadded.state]
            cases (d.add offset more payload wireLen).complete? with
            | none =>
                obtain ⟨haccounted, hshrinks, hle, hlength⟩ := hadded.accounted.evict
                  (Nat.lt_succ_self _) (c.maintenance now).2
                rw [hadded.maxBytes, hkept.maxBytes] at hle
                rw [hadded.maxDatagrams, hkept.maxDatagrams] at hlength
                refine ⟨?_, ?_, haccounted, hle, hlength⟩
                · exact (hshrinks.maxBytes.trans hadded.maxBytes).trans hkept.maxBytes
                · exact (hshrinks.maxDatagrams.trans hadded.maxDatagrams).trans hkept.maxDatagrams
            | some whole => exact hadded.removed hkept

theorem kept_new (maxBytes maxDatagrams timeout now : ℕ) :
    (FragmentCache.new maxBytes maxDatagrams timeout now).Kept (max maxBytes 65536)
      (max maxDatagrams 1) :=
  ⟨rfl, rfl, charged_nil, Nat.zero_le _, Nat.zero_le _⟩

/-- The counts are right and within the limits. -/
structure Budgeted (c : FragmentCache) : Prop where
  total : c.bytes = (c.states.map fun e ↦ e.2.bytes).sum
  each : ∀ e ∈ c.states, e.2.bytes = e.2.charge
  bytes : c.bytes ≤ c.maxBytes
  datagrams : c.states.length ≤ c.maxDatagrams

theorem Kept.budgeted (h : c.Kept limit count) : c.Budgeted :=
  ⟨h.accounted.total, h.accounted.each, h.maxBytes.symm ▸ h.bytes,
    h.maxDatagrams.symm ▸ h.datagrams⟩

end Insertion

end FragmentCache

namespace SharedFragmentCache

def receive (c : SharedFragmentCache) (a : Arrival) : SharedFragmentCache :=
  (c.insert a.now a.key a.fragment.offset a.fragment.more a.fragment.payload a.wireLen).1

variable {c : SharedFragmentCache} {limit count : ℕ}

def Kept (limit count : ℕ) (c : SharedFragmentCache) : Prop :=
  ∀ i, (c.shards i).Kept limit count

theorem Kept.receive (hroom : limit + FragmentCache.callBytes ≤ u64Max) (h : c.Kept limit count)
    (a : Arrival) : (c.receive a).Kept limit count := by
  intro i
  unfold SharedFragmentCache.receive SharedFragmentCache.insert
  dsimp only
  by_cases hi : i = c.shardOf a.key
  · subst hi
    rw [Function.update_self]
    exact (h _).insert hroom _ _ _ _ _ _
  · rw [Function.update_of_ne hi]
    exact h i

/-- A share of what a word can count leaves room for a call. -/
theorem share_add_le {maxBytes : ℕ} (hword : maxBytes ≤ u64Max) :
    max (max (maxBytes / 64) 65536) 65536 + FragmentCache.callBytes ≤ u64Max := by
  unfold FragmentCache.callBytes fragmentDatagramOverhead fragmentPieceOverhead
  unfold u64Max at hword ⊢
  omega

theorem budgeted_after (shardOf : FragmentKey → Fin 64) (maxBytes maxDatagrams timeout : ℕ)
    (now : Fin 64 → ℕ) (hword : maxBytes ≤ u64Max) (arrivals : List Arrival) (i : Fin 64) :
    ((runFrom receive (new shardOf maxBytes maxDatagrams timeout now) arrivals).shards
      i).Budgeted := by
  have hstart : (new shardOf maxBytes maxDatagrams timeout now).Kept
      (max (max (maxBytes / 64) 65536) 65536) (max (max (maxDatagrams / 64) 1) 1) :=
    fun i ↦ FragmentCache.kept_new _ _ timeout (now i)
  have hkept := invariant_runFrom_of_step
    (fun c a (h : c.Kept _ _) ↦ h.receive (share_add_le hword) a) arrivals hstart
  exact (hkept i).budgeted

/-- A datagram that is completed, one that is dropped, and one that is kept. -/
theorem budgeted_after_threeDatagrams :
    ((runFrom receive (new (fun _ ↦ 0) 67108864 4096 30000000000 fun _ ↦ 0)
      [arrival 1 ⟨8, false, [99, 100]⟩, arrival 2 ⟨0, true, List.replicate 8 97⟩,
        arrival 3 ⟨0, true, List.replicate 8 97⟩, arrival 4 ⟨4, true, List.replicate 8 98⟩,
        arrival 5 ⟨16, true, List.replicate 8 98⟩]).shards 0).Budgeted :=
  budgeted_after _ _ _ _ _ (by decide) _ 0

end SharedFragmentCache

end Bazalt.Capture
