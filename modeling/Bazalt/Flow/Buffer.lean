import Bazalt.Flow.Reassembly
import Bazalt.Lib.Loop

/-!
# The out-of-order buffer

`insertOooFirstSeen` fills the holes of the interval map with the bytes of a
segment and keeps every byte that was there before.
-/

namespace Bazalt.Flow

open Lib OrdMap

/-- The buffer invariant: buffered segments are not empty, do not meet, end inside
the 64-bit space, and are counted by `outOfOrderBytes`. -/
structure TcpHalf.Buffered (h : TcpHalf) : Prop where
  tidy : Tidy BufferedSegment.data h.outOfOrder
  bound : ∀ e ∈ h.outOfOrder.entries, e.1 + e.2.data.length ≤ u64Max
  bytes : h.outOfOrderBytes = total BufferedSegment.data h.outOfOrder

/-- Byte `b` is buffered at extended sequence position `p`. -/
def TcpHalf.Held (h : TcpHalf) (p : ℕ) (b : UInt8) : Prop :=
  Holds BufferedSegment.data h.outOfOrder p b

namespace Pass

/-- `w'` differs from `w` by buffered segments of `[lo, hi)` alone, and what they
add is `new` at the positions that were free. -/
structure Inserts (w w' : Pass) (lo hi : ℕ) (new : ℕ → UInt8 → Prop) : Prop where
  half : w'.half = { w.half with
    outOfOrder := w'.half.outOfOrder, outOfOrderBytes := w'.half.outOfOrderBytes }
  out : w'.out = { w.out with
    retransmit := w'.out.retransmit, outOfOrder := w'.out.outOfOrder }
  buffered : w'.half.Buffered
  held : ∀ p b, w'.half.Held p b ↔
    w.half.Held p b ∨ (∀ c, ¬ w.half.Held p c) ∧ new p b
  keeps : ∀ e ∈ w.half.outOfOrder.entries, e ∈ w'.half.outOfOrder.entries
  adds : ∀ e ∈ w'.half.outOfOrder.entries,
    e ∈ w.half.outOfOrder.entries ∨ lo ≤ e.1 ∧ e.1 + e.2.data.length ≤ hi

theorem Inserts.refl {w : Pass} (hb : w.half.Buffered) (lo hi : ℕ)
    {new : ℕ → UInt8 → Prop} (hnew : ∀ p b, ¬ new p b) : Inserts w w lo hi new :=
  ⟨rfl, rfl, hb, by simp [hnew], fun _ he ↦ he, fun _ he ↦ .inl he⟩

theorem Inserts.of_markRetransmit {w w' : Pass} {lo hi : ℕ} {new : ℕ → UInt8 → Prop}
    (h : Inserts w.markRetransmit w' lo hi new) : Inserts w w' lo hi new :=
  ⟨h.half, h.out, h.buffered, h.held, h.keeps, h.adds⟩

/-- A mark where nothing is free. -/
theorem Inserts.markRetransmit {w : Pass} (hb : w.half.Buffered) (lo hi : ℕ)
    {new : ℕ → UInt8 → Prop} (hnew : ∀ p b, (∀ c, ¬ w.half.Held p c) → ¬ new p b) :
    Inserts w w.markRetransmit lo hi new := by
  refine ⟨rfl, rfl, hb, fun p b ↦ ⟨.inl, ?_⟩, fun _ he ↦ he, fun _ he ↦ .inl he⟩
  rintro (h | ⟨hfree, h⟩)
  · exact h
  · exact absurd h (hnew p b hfree)

/-- Two insertions side by side. -/
theorem Inserts.trans {w w' w'' : Pass} {lo mid mid' hi : ℕ} {f g new : ℕ → UInt8 → Prop}
    (h : Inserts w w' lo mid f) (h' : Inserts w' w'' mid' hi g)
    (hlo : lo ≤ mid') (hmid : mid ≤ hi)
    (hnew : ∀ p b, (∀ c, ¬ w.half.Held p c) →
      (new p b ↔ f p b ∨ (∀ c, ¬ f p c) ∧ g p b)) : Inserts w w'' lo hi new := by
  refine ⟨?_, ?_, h'.buffered, ?_, fun e he ↦ h'.keeps e (h.keeps e he), ?_⟩
  · rw [h'.half, h.half]
  · rw [h'.out, h.out]
  · intro p b
    rw [h'.held]
    by_cases hfree : ∀ c, ¬ w.half.Held p c
    · have hw : ∀ c, w'.half.Held p c ↔ f p c := by
        intro c
        rw [h.held]
        simp [hfree]
      simp only [hw, hfree, false_or, hnew p b hfree]
      simp
    · have hw : ∀ c, w'.half.Held p c ↔ w.half.Held p c := by
        intro c
        rw [h.held]
        simp [hfree]
      simp only [hw, hfree, false_and, or_false]
  · intro e he
    rcases h'.adds e he with he | ⟨h₁, h₂⟩
    · rcases h.adds e he with he | ⟨h₁, h₂⟩
      · exact .inl he
      · exact .inr ⟨h₁, h₂.trans hmid⟩
    · exact .inr ⟨hlo.trans h₁, h₂⟩

@[simp] theorem insertPiece_outOfOrder (w : Pass) (cursor : ℕ) (piece : Bytes) (tsNs : ℕ) :
    (w.insertPiece cursor piece tsNs).half.outOfOrder =
      w.half.outOfOrder.insert cursor ⟨piece, tsNs⟩ := rfl

/-- One piece in a hole of the map. -/
theorem insertPiece_inserts {w : Pass} (hb : w.half.Buffered) {cursor : ℕ} {piece : Bytes}
    (tsNs : ℕ) (hne : piece ≠ []) (hmax : cursor + piece.length ≤ u64Max)
    (hole : ∀ e ∈ w.half.outOfOrder.entries,
      e.1 + e.2.data.length ≤ cursor ∨ cursor + piece.length ≤ e.1) :
    Inserts w (w.insertPiece cursor piece tsNs) cursor (cursor + piece.length)
      fun p b ↦ cursor ≤ p ∧ piece[p - cursor]? = some b := by
  obtain ⟨htidy, hmem, htotal⟩ :=
    hb.tidy.insert_spec (k := cursor) (v := ⟨piece, tsNs⟩) hne hole
  have hbound : ∀ e ∈ (w.half.outOfOrder.insert cursor ⟨piece, tsNs⟩).entries,
      e.1 + e.2.data.length ≤ u64Max := by
    intro e he
    rcases (hmem e).mp he with rfl | he
    · exact hmax
    · exact hb.bound e he
  have hle : 0 + total BufferedSegment.data _ ≤ u64Max :=
    htidy.total_le (fun _ _ ↦ Nat.zero_le _) hbound (Nat.zero_le _)
  rw [htotal, Nat.zero_add] at hle
  refine ⟨rfl, rfl, ⟨htidy, hbound, ?_⟩, ?_, ?_, ?_⟩
  · rw [insertPiece_outOfOrder, htotal]
    change satAdd w.half.outOfOrderBytes piece.length = _
    rw [hb.bytes, satAdd_of_le hle]
  · intro p b
    rw [TcpHalf.Held, insertPiece_outOfOrder, holds_of_mem_iff hmem]
    constructor
    · rintro (h | ⟨hcp, hget⟩)
      · exact .inl h
      · refine .inr ⟨?_, hcp, hget⟩
        rintro c ⟨e, he, hle, hc⟩
        have hi : p - cursor < piece.length := (List.getElem?_eq_some_iff.mp hget).1
        have hi' := (List.getElem?_eq_some_iff.mp hc).1
        rcases hole e he with h | h <;> omega
    · rintro (h | ⟨-, h⟩)
      · exact .inl h
      · exact .inr h
  · exact fun e he ↦ (hmem e).mpr (.inr he)
  · intro e he
    rcases (hmem e).mp he with rfl | he
    · exact .inr ⟨le_rfl, le_rfl⟩
    · exact .inl he

/-- The bytes of the segment `data` from `start` in `[lo, hi)`. -/
def segmentBytes (start : ℕ) (data : Bytes) (lo hi : ℕ) (p : ℕ) (b : UInt8) : Prop :=
  lo ≤ p ∧ p < hi ∧ data[p - start]? = some b

theorem slice_getElem? {data : Bytes} {start lo hi p : ℕ} {b : UInt8} (hs : start ≤ lo)
    (hp : lo ≤ p) : ((data.take (hi - start)).drop (lo - start))[p - lo]? = some b ↔
      p < hi ∧ data[p - start]? = some b := by
  rw [List.getElem?_drop, show lo - start + (p - lo) = p - start by omega, List.getElem?_take]
  by_cases h : p < hi
  · simp [h, show p - start < hi - start by omega]
  · simp [h, show ¬ p - start < hi - start by omega]

theorem insertSlice_inserts {w : Pass} (hb : w.half.Buffered) {start cursor pieceEnd : ℕ}
    {data : Bytes} (tsNs : ℕ) (hs : start ≤ cursor) (hlt : cursor < pieceEnd)
    (hlen : pieceEnd ≤ start + data.length) (hmax : pieceEnd ≤ u64Max)
    (hole : ∀ e ∈ w.half.outOfOrder.entries,
      e.1 + e.2.data.length ≤ cursor ∨ pieceEnd ≤ e.1) :
    Inserts w (w.insertPiece cursor ((data.take (pieceEnd - start)).drop (cursor - start)) tsNs)
      cursor pieceEnd (segmentBytes start data cursor pieceEnd) := by
  have hplen : ((data.take (pieceEnd - start)).drop (cursor - start)).length =
      pieceEnd - cursor := by
    rw [List.length_drop, List.length_take]
    omega
  have hend : cursor + (pieceEnd - cursor) = pieceEnd := by omega
  have hne : (data.take (pieceEnd - start)).drop (cursor - start) ≠ [] :=
    List.length_pos_iff.mp (by omega)
  have hfit : cursor + ((data.take (pieceEnd - start)).drop (cursor - start)).length ≤ u64Max := by
    rwa [hplen, hend]
  have hins := insertPiece_inserts hb tsNs hne hfit (by rwa [hplen, hend])
  rw [hplen, hend] at hins
  refine ⟨hins.half, hins.out, hins.buffered, ?_, hins.keeps, hins.adds⟩
  intro p b
  rw [hins.held]
  refine or_congr Iff.rfl (and_congr Iff.rfl ?_)
  exact and_congr_right fun hp ↦ slice_getElem? hs hp

/-! ## Rounds of the loop -/

section

variable {start finish tsNs : ℕ} {data : Bytes} {cursor : ℕ} {w : Pass}

/-- The bytes of the segment between two positions. -/
def piece (start : ℕ) (data : Bytes) (lo hi : ℕ) : Bytes := (data.take (hi - start)).drop (lo - start)

/-- One round of the loop. -/
def insertOooRound (start finish tsNs : ℕ) (data : Bytes) (cursor : ℕ) (w : Pass) : ℕ × Pass :=
  match (w.half.outOfOrder.lastLE? cursor).filter
      (fun e ↦ decide (cursor < e.2.finish e.1)) with
  | some (existingStart, existing) => (min (existing.finish existingStart) finish, w.markRetransmit)
  | none =>
      let next := w.half.outOfOrder.firstIn? cursor finish
      let pieceEnd := min ((next.map Prod.fst).getD finish) finish
      let (cursor, w) := if cursor < pieceEnd then
          (pieceEnd, w.insertPiece cursor (piece start data cursor pieceEnd) tsNs)
        else (cursor, w)
      match next with
      | some (nextStart, nextSeg) =>
          if nextStart ≤ cursor ∧ cursor < nextSeg.finish nextStart then
            (min (nextSeg.finish nextStart) finish, w.markRetransmit)
          else (cursor, w)
      | none => (cursor, w)

def insertOooTurn (start finish tsNs : ℕ) (data : Bytes) (s : ℕ × Pass) : Turn (ℕ × Pass) :=
  if s.1 < finish then .again (insertOooRound start finish tsNs data s.1 s.2) else .stop s

theorem insertOooLoop_eq_loop (fuel cursor : ℕ) (w : Pass) :
    insertOooLoop start finish tsNs data fuel cursor w =
      (loop (insertOooTurn start finish tsNs data) fuel (cursor, w)).2 := by
  induction fuel generalizing cursor w with
  | zero => rfl
  | succ fuel ih =>
      unfold insertOooLoop loop insertOooTurn
      by_cases hcur : cursor < finish
      · simp only [if_pos hcur, insertOooRound, piece]
        cases (w.half.outOfOrder.lastLE? cursor).filter
            (fun e ↦ decide (cursor < e.2.finish e.1)) with
        | some e => exact ih _ _
        | none =>
            cases w.half.outOfOrder.firstIn? cursor finish with
            | none => exact ih _ _
            | some e =>
                dsimp only
                split_ifs
                · exact ih _ _
                · exact ih _ _
                · exact ih _ _
                · exact ih _ _
      · simp only [if_neg hcur]

/-- What a round does: it skips an interval, it fills the hole up to the end of the segment, or it
fills the hole up to the next interval and skips that. -/
inductive Round (start finish tsNs : ℕ) (data : Bytes) (cursor : ℕ) (w : Pass) : ℕ → Pass → Prop where
  | skip (e : ℕ × BufferedSegment) (he : e ∈ w.half.outOfOrder.entries) (hle : e.1 ≤ cursor)
      (hlt : cursor < e.1 + e.2.data.length) :
      Round start finish tsNs data cursor w (min (e.1 + e.2.data.length) finish) w.markRetransmit
  | fill (hole : ∀ a ∈ w.half.outOfOrder.entries,
        a.1 + a.2.data.length ≤ cursor ∨ finish ≤ a.1) :
      Round start finish tsNs data cursor w finish
        (w.insertPiece cursor (piece start data cursor finish) tsNs)
  | fillSkip (e : ℕ × BufferedSegment) (he : e ∈ w.half.outOfOrder.entries) (hlt : cursor < e.1)
      (hfinish : e.1 < finish) (hpos : 0 < e.2.data.length)
      (hole : ∀ a ∈ w.half.outOfOrder.entries, a.1 + a.2.data.length ≤ cursor ∨ e.1 ≤ a.1) :
      Round start finish tsNs data cursor w (min (e.1 + e.2.data.length) finish)
        (w.insertPiece cursor (piece start data cursor e.1) tsNs).markRetransmit

theorem round_insertOooRound (start tsNs : ℕ) (data : Bytes)
    (htidy : Tidy BufferedSegment.data w.half.outOfOrder)
    (hbound : ∀ e ∈ w.half.outOfOrder.entries, e.1 + e.2.data.length ≤ u64Max)
    (hcur : cursor < finish) :
    Round start finish tsNs data cursor w (insertOooRound start finish tsNs data cursor w).1
      (insertOooRound start finish tsNs data cursor w).2 := by
  have hfinish : ∀ e ∈ w.half.outOfOrder.entries, e.2.finish e.1 = e.1 + e.2.data.length :=
    fun e he ↦ satAdd_of_le (hbound e he)
  unfold insertOooRound
  cases hcov : (w.half.outOfOrder.lastLE? cursor).filter
      (fun e ↦ decide (cursor < e.2.finish e.1)) with
  | some e =>
      obtain ⟨hlast, hreach⟩ := Option.filter_eq_some_iff.mp hcov
      obtain ⟨hmem, hle, -⟩ := lastLE?_some hlast
      rw [decide_eq_true_eq, hfinish e hmem] at hreach
      simp only
      rw [hfinish e hmem]
      exact .skip e hmem hle hreach
  | none =>
      -- the cursor is free, and so is everything up to the next interval
      have hfree : ∀ e ∈ w.half.outOfOrder.entries, e.1 ≤ cursor →
          e.1 + e.2.data.length ≤ cursor := by
        intro e he hle
        by_contra hlt
        have hcv : Covered BufferedSegment.data w.half.outOfOrder cursor :=
          ⟨e, he, hle, by omega⟩
        obtain ⟨a, ha, hreach⟩ := htidy.covered_iff_lastLE?.mp hcv
        have hmem := (lastLE?_some ha).1
        have hsome : (w.half.outOfOrder.lastLE? cursor).filter
            (fun e ↦ decide (cursor < e.2.finish e.1)) = some a :=
          Option.filter_eq_some_iff.mpr ⟨ha, by simpa [hfinish a hmem] using hreach⟩
        rw [hsome] at hcov
        cases hcov
      cases hnext : w.half.outOfOrder.firstIn? cursor finish with
      | none =>
          have hbeyond := firstIn?_none hnext
          simp only [Option.map_none, Option.getD_none, min_self, if_pos hcur]
          apply Round.fill
          intro a ha
          by_cases hle : a.1 ≤ cursor
          · exact .inl (hfree a ha hle)
          · exact .inr (hbeyond a ha (by omega))
      | some e =>
          obtain ⟨hmem, hle, hlt, hmin⟩ := firstIn?_some hnext
          have hpos := htidy.length_pos hmem
          have hcur' : cursor < e.1 := by
            by_contra hge
            have := hfree e hmem (by omega)
            omega
          simp only [Option.map_some, Option.getD_some, min_eq_left hlt.le, if_pos hcur',
            hfinish e hmem]
          rw [if_pos ⟨le_rfl, by omega⟩]
          refine .fillSkip e hmem hcur' hlt hpos fun a ha ↦ ?_
          by_cases hle : a.1 ≤ cursor
          · exact .inl (hfree a ha hle)
          · exact .inr (hmin a ha (by omega))

theorem Round.lt {cursor' : ℕ} {w' : Pass} (h : Round start finish tsNs data cursor w cursor' w')
    (hcur : cursor < finish) : cursor < cursor' ∧ cursor' ≤ finish := by
  cases h with
  | skip e he hle hlt => omega
  | fill hole => omega
  | fillSkip e he hlt hfinish hpos hole => omega

end

/-- A round fills the free positions between the old cursor and the new one. -/
theorem Round.inserts {start finish tsNs : ℕ} {data : Bytes} {cursor cursor' : ℕ} {w w' : Pass}
    (h : Round start finish tsNs data cursor w cursor' w') (hb : w.half.Buffered)
    (hcur : cursor < finish) (hs : start ≤ cursor) (hlen : finish ≤ start + data.length)
    (hmax : finish ≤ u64Max) :
    Inserts w w' cursor cursor' (segmentBytes start data cursor cursor') := by
  cases h with
  | skip e he hle hlt =>
      refine .markRetransmit hb _ _ fun p b hfree ⟨hp, hp', _⟩ ↦ ?_
      obtain ⟨c, hc⟩ := covered_iff_holds.mp
        (⟨e, he, by omega, by omega⟩ : Covered BufferedSegment.data w.half.outOfOrder p)
      exact hfree c hc
  | fill hole => exact insertSlice_inserts hb tsNs hs hcur hlen hmax hole
  | fillSkip e he hlt hfinish hpos hole =>
      have hins := insertSlice_inserts hb tsNs hs hlt (hfinish.le.trans hlen)
        (hfinish.le.trans hmax) hole
      have hmark := Inserts.markRetransmit hins.buffered e.1 (min (e.1 + e.2.data.length) finish)
        (fun (_ : ℕ) (_ : UInt8) _ h ↦ (h : False))
      refine hins.trans hmark hlt.le (by omega) fun p b hfree ↦ ?_
      simp only [segmentBytes, and_false, or_false]
      refine ⟨fun ⟨hp, hp', hget⟩ ↦ ⟨hp, ?_, hget⟩, fun ⟨hp, hp', hget⟩ ↦ ⟨hp, by omega, hget⟩⟩
      by_contra hge
      obtain ⟨c, hc⟩ := covered_iff_holds.mp
        (⟨e, he, by omega, by omega⟩ : Covered BufferedSegment.data w.half.outOfOrder p)
      exact hfree c hc

/-- The rest of the loop fills exactly the free positions of `[cursor, finish)`. The
fuel covers every round, since each one moves the cursor. -/
theorem insertOooLoop_inserts {start finish tsNs : ℕ} {data : Bytes}
    (hlen : finish ≤ start + data.length) (hmax : finish ≤ u64Max) (fuel : ℕ) :
    ∀ (cursor : ℕ) (w : Pass), w.half.Buffered → start ≤ cursor → finish - cursor < fuel →
      Inserts w (insertOooLoop start finish tsNs data fuel cursor w) cursor finish
        (segmentBytes start data cursor finish) := by
  induction fuel with
  | zero => intro cursor w _ _ hf; omega
  | succ fuel ih =>
      intro cursor w hb hstart hfuel
      rw [insertOooLoop_eq_loop, loop, insertOooTurn]
      dsimp only
      split_ifs with hcur
      · have hround := round_insertOooRound start tsNs data hb.tidy hb.bound hcur
        obtain ⟨hless, hle⟩ := hround.lt hcur
        have hins := hround.inserts hb hcur hstart hlen hmax
        have hrec := ih _ _ hins.buffered (hstart.trans hless.le) (by omega)
        rw [insertOooLoop_eq_loop] at hrec
        refine hins.trans hrec hless.le hle fun p b hfree ↦ ?_
        simp only [segmentBytes]
        constructor
        · rintro ⟨hp, hp', hget⟩
          by_cases hbefore : p < (insertOooRound start finish tsNs data cursor w).1
          · exact .inl ⟨hp, hbefore, hget⟩
          · exact .inr ⟨fun c hc ↦ hbefore hc.2.1, by omega, hp', hget⟩
        · rintro (⟨hp, hp', hget⟩ | ⟨-, hp, hp', hget⟩)
          · exact ⟨hp, by omega, hget⟩
          · exact ⟨by omega, hp', hget⟩
      · refine Inserts.refl hb _ _ ?_
        rintro p b ⟨h₁, h₂, -⟩
        omega

/-- First-wins union: the segment's bytes enter wherever nothing was buffered. -/
theorem insertOooFirstSeen_inserts {w : Pass} (hb : w.half.Buffered) (start tsNs : ℕ)
    (data : Bytes) :
    Inserts w (w.insertOooFirstSeen start tsNs data) start (satAdd start data.length)
      (segmentBytes start data start (satAdd start data.length)) := by
  have hle := satAdd_le_add start data.length
  exact insertOooLoop_inserts hle (satAdd_le _ _) _ start w hb le_rfl (by omega)

end Pass

end Bazalt.Flow
