import Bazalt.Http.Framing
import Bazalt.Lib.Loop
import Bazalt.Lib.Slices

/-!
# The chunked decoder

The decoder takes what it can from the front of a buffer: size lines, data, the line end
after the data and the trailers.  It remembers where it is between calls.
-/

namespace Bazalt.Http

open Lib

inductive ChunkState where
  | size
  | data (remaining : ℕ)
  | dataCrlf
  | trailers
  deriving DecidableEq, Repr

structure ChunkedDecoder where
  state : ChunkState := .size
  scanFrom : ℕ := 0
  deriving DecidableEq, Repr

structure ChunkData where
  relativeOffset : ℕ
  data : Bytes
  deriving DecidableEq, Repr

/-- A call of the decoder in the middle of its loop. -/
structure ChunkPass where
  decoder : ChunkedDecoder
  buf : Bytes
  chunks : List ChunkData := []
  collected : ℕ := 0
  bodyBytes : ℕ := 0
  done : Bool := false
  failed : Bool := false
  deriving DecidableEq, Repr

namespace ChunkPass

section Turns

variable (initialLen maxLine maxCollect : ℕ) (p : ChunkPass)

def fail : ChunkPass := { p with failed := true }

def turnSize : Turn ChunkPass :=
  match findCrlfFrom p.buf p.decoder.scanFrom with
  | none =>
      if maxLine < p.buf.length then .stop p.fail
      else .stop { p with decoder.scanFrom := p.buf.length - 1 }
  | some pos =>
      let p' := { p with decoder.scanFrom := 0, buf := p.buf.drop (pos + 2) }
      match chunkSize (p.buf.take pos) with
      | none => .stop p'.fail
      | some 0 => .again { p' with decoder.state := .trailers }
      | some n => .again { p' with decoder.state := .data n }

def turnData (remaining : ℕ) : Turn ChunkPass :=
  if p.buf = [] then .stop p
  else
    let take := min remaining p.buf.length
    let collect := min take (maxCollect - p.collected)
    let p' := { p with
      buf := p.buf.drop take
      chunks := if collect = 0 then p.chunks
        else p.chunks ++ [ChunkData.mk (initialLen - p.buf.length) (p.buf.take collect)]
      collected := if collect = 0 then p.collected else satAdd p.collected collect
      bodyBytes := satAdd p.bodyBytes take }
    if remaining - take = 0 then .again { p' with decoder.state := .dataCrlf }
    else .stop { p' with decoder.state := .data (remaining - take) }

def turnDataCrlf : Turn ChunkPass :=
  if p.buf.length < 2 then .stop p
  else if p.buf.take 2 ≠ crlf then .stop p.fail
  else .again { p with buf := p.buf.drop 2, decoder.state := .size }

def turnTrailers : Turn ChunkPass :=
  let finished : ChunkPass := { p with decoder := {}, done := true }
  if crlf <+: p.buf then .stop { finished with buf := p.buf.drop 2 }
  else match findDoubleCrlfFrom p.buf p.decoder.scanFrom with
    | none =>
        if maxLine < p.buf.length then .stop p.fail
        else .stop { p with decoder.scanFrom := p.buf.length - 3 }
    | some pos => .stop { finished with buf := p.buf.drop (pos + 4) }

def turn : Turn ChunkPass :=
  match p.decoder.state with
  | .size => turnSize maxLine p
  | .data remaining => turnData initialLen maxCollect p remaining
  | .dataCrlf => turnDataCrlf p
  | .trailers => turnTrailers maxLine p

/-- Every round that is not the last one takes bytes or leaves the data of a chunk. -/
def measure : ℕ := 2 * p.buf.length + match p.decoder.state with
  | .data _ => 1
  | _ => 0

end Turns

theorem measure_turn {initialLen maxLine maxCollect : ℕ} {p p' : ChunkPass}
    (h : turn initialLen maxLine maxCollect p = .again p') : p'.measure < p.measure := by
  unfold turn at h
  split at h
  next hstate =>
    unfold turnSize at h
    split at h
    next => split_ifs at h
    next pos hpos =>
      have hle := findCrlfFrom_le hpos
      dsimp only at h
      split at h
      · cases h
      all_goals
        obtain rfl := Turn.again.inj h
        simp only [measure, hstate, List.length_drop]
        omega
  next remaining hstate =>
    unfold turnData at h
    dsimp only at h
    split_ifs at h
    all_goals
      obtain rfl := Turn.again.inj h
      simp only [measure, hstate, List.length_drop]
      omega
  next hstate =>
    unfold turnDataCrlf at h
    split_ifs at h
    obtain rfl := Turn.again.inj h
    simp only [measure, hstate, List.length_drop]
    omega
  next hstate =>
    unfold turnTrailers at h
    split at h
    · cases h
    · split at h
      · split at h <;> cases h
      · cases h

/-- What is left of `buf`, and where the collected data was in it. -/
def Placed (buf : Bytes) (p : ChunkPass) : Prop :=
  ∃ k ≤ buf.length, p.buf = buf.drop k ∧
    PlacedIn buf k (p.chunks.map fun d ↦ (d.relativeOffset, d.data))

theorem Placed.of_drop {buf : Bytes} {p p' : ChunkPass} (h : p.Placed buf) {n : ℕ}
    (hn : n ≤ p.buf.length) (hbuf : p'.buf = p.buf.drop n) (hchunks : p'.chunks = p.chunks) :
    p'.Placed buf := by
  obtain ⟨k, hk, hp, hplaced⟩ := h
  rw [hp, List.length_drop] at hn
  refine ⟨k + n, by omega, by rw [hbuf, hp, List.drop_drop], ?_⟩
  rw [hchunks]
  exact hplaced.mono (Nat.le_add_right k n)

theorem Placed.of_collect {buf : Bytes} {p p' : ChunkPass} (h : p.Placed buf) {n collect : ℕ}
    (hn : n ≤ p.buf.length) (hcollect : collect ≠ 0) (hle : collect ≤ n)
    (hbuf : p'.buf = p.buf.drop n)
    (hchunks : p'.chunks = p.chunks ++ [⟨buf.length - p.buf.length, p.buf.take collect⟩]) :
    p'.Placed buf := by
  obtain ⟨k, hk, hp, hplaced⟩ := h
  have hstart : buf.length - p.buf.length = k := by rw [hp, List.length_drop]; omega
  rw [hstart] at hchunks
  rw [hp, List.length_drop] at hn
  have hlen : ((buf.drop k).take collect).length = collect := by
    rw [List.length_take, List.length_drop]
    omega
  refine ⟨k + n, by omega, by rw [hbuf, hp, List.drop_drop], ?_⟩
  rw [hchunks, List.map_append, hp]
  refine hplaced.concat le_rfl ?_ (List.take_prefix _ _) ?_
  · exact fun hnil ↦ hcollect (hlen.symm.trans (congrArg List.length hnil))
  · dsimp only
    rw [hlen]
    omega

theorem placed_turn {buf : Bytes} {maxLine maxCollect : ℕ} {p : ChunkPass} (h : p.Placed buf) :
    (turn buf.length maxLine maxCollect p).state.Placed buf := by
  unfold turn
  split
  · unfold turnSize
    split
    · split_ifs <;> exact h
    next pos hpos =>
      have hle := findCrlfFrom_le hpos
      dsimp only
      split <;> exact h.of_drop hle rfl rfl
  next remaining hstate =>
    unfold turnData
    split_ifs with hempty
    · exact h
    · dsimp only
      by_cases hcollect : min (min remaining p.buf.length) (maxCollect - p.collected) = 0
      · simp only [hcollect, if_true]
        split_ifs <;> exact h.of_drop (min_le_right _ _) rfl rfl
      · simp only [hcollect, if_false]
        split_ifs <;>
          exact h.of_collect (min_le_right _ _) hcollect (min_le_left _ _) rfl rfl
  · unfold turnDataCrlf
    split_ifs with hshort hcrlf
    · exact h
    · exact h
    · exact h.of_drop (not_lt.mp hshort) rfl rfl
  · unfold turnTrailers
    split
    next hend => exact h.of_drop (List.IsPrefix.length_le hend) rfl rfl
    next =>
      split
      · split_ifs <;> exact h
      next pos hpos => exact h.of_drop (findDoubleCrlfFrom_le hpos) rfl rfl

end ChunkPass

structure ChunkConsume where
  dataChunks : List ChunkData
  done : Bool
  wireConsumed : ℕ
  bodyBytes : ℕ
  deriving DecidableEq, Repr

/-- What a call leaves: the decoder and the buffer also when it fails. -/
structure ChunkOutcome where
  decoder : ChunkedDecoder
  buf : Bytes
  result : Option ChunkConsume
  deriving DecidableEq, Repr

def ChunkPass.outcome (initialLen : ℕ) (p : ChunkPass) : ChunkOutcome where
  decoder := p.decoder
  buf := p.buf
  result := if p.failed then none else some {
    dataChunks := p.chunks
    done := p.done
    wireConsumed := initialLen - p.buf.length
    bodyBytes := p.bodyBytes }

def ChunkedDecoder.consume (d : ChunkedDecoder) (buf : Bytes) (maxLine maxCollect : ℕ) :
    ChunkOutcome :=
  let p : ChunkPass := { decoder := d, buf := buf }
  (loop (ChunkPass.turn buf.length maxLine maxCollect) (p.measure + 1) p).outcome buf.length

theorem ChunkedDecoder.leaves_consume (d : ChunkedDecoder) (buf : Bytes)
    (maxLine maxCollect : ℕ) : ∃ p, Leaves (ChunkPass.turn buf.length maxLine maxCollect)
      { decoder := d, buf := buf } p ∧
      d.consume buf maxLine maxCollect = p.outcome buf.length :=
  ⟨_, leaves_loop (fun _ _ ↦ ChunkPass.measure_turn) (Nat.lt_succ_self _), rfl⟩

/-- A call takes a part of the front of the buffer; its data is there, in order. -/
theorem ChunkedDecoder.placed_consume (d : ChunkedDecoder) (buf : Bytes)
    (maxLine maxCollect : ℕ) : ∃ k ≤ buf.length,
      (d.consume buf maxLine maxCollect).buf = buf.drop k ∧
      ∀ result, (d.consume buf maxLine maxCollect).result = some result →
        result.wireConsumed = k ∧
        PlacedIn buf k (result.dataChunks.map fun d ↦ (d.relativeOffset, d.data)) := by
  obtain ⟨p, hleaves, hp⟩ := d.leaves_consume buf maxLine maxCollect
  obtain ⟨k, hk, hbuf, hplaced⟩ : p.Placed buf :=
    hleaves.invariant (fun _ ↦ ChunkPass.placed_turn) ⟨0, Nat.zero_le _, rfl, PlacedIn.nil _ _⟩
  rw [hp]
  refine ⟨k, hk, hbuf, fun result hresult ↦ ?_⟩
  simp only [ChunkPass.outcome] at hresult
  split_ifs at hresult
  obtain rfl := Option.some.inj hresult
  refine ⟨?_, hplaced⟩
  dsimp only
  rw [hbuf, List.length_drop]
  omega

end Bazalt.Http
