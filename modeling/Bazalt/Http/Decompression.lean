import Bazalt.Http.ChunkedEncoding
import Bazalt.Http.Watch

/-!
# Compressed bodies

The input of the decompressor is collected piece by piece, each piece only if it still fits.
It is the whole body exactly when the body fits, and nothing when no piece does.
-/

namespace Bazalt.Http

open Lib

section Collecting

variable {cfg : HttpConfig} {info : MessageInfo} {compressed data : Bytes} {pieces : List Bytes}

/-- The input of the decompressor after pieces of a body. -/
def collectPieces (cfg : HttpConfig) (info : MessageInfo) (compressed : Bytes)
    (pieces : List Bytes) : Bytes :=
  pieces.foldl (collectCompressed cfg info) compressed

theorem foldl_collectCompressed (compressed : Bytes) (chunks : List ChunkData) :
    chunks.foldl (fun compressed d ↦ collectCompressed cfg info compressed d.data) compressed =
      collectPieces cfg info compressed (chunks.map (·.data)) :=
  List.foldl_map.symm

theorem collectPieces_append (compressed : Bytes) (pieces more : List Bytes) :
    collectPieces cfg info compressed (pieces ++ more) =
      collectPieces cfg info (collectPieces cfg info compressed pieces) more :=
  List.foldl_append

theorem collectCompressed_of_le (hencoding : info.encoding ≠ .identity)
    (hle : compressed.length + data.length ≤ cfg.httpMaxDecodeBytes) :
    collectCompressed cfg info compressed data = compressed ++ data := by
  rw [collectCompressed, if_pos ⟨hencoding, (satAdd_le_add _ _).trans hle⟩]

theorem collectCompressed_of_lt (hfits : compressed.length + data.length ≤ u64Max)
    (hlt : cfg.httpMaxDecodeBytes < compressed.length + data.length) :
    collectCompressed cfg info compressed data = compressed := by
  rw [collectCompressed, if_neg]
  rintro ⟨-, hle⟩
  rw [satAdd_of_le hfits] at hle
  omega

/-- The collected input is never longer than the limit. -/
theorem length_collectPieces_le : ∀ {compressed : Bytes}, compressed.length ≤ cfg.httpMaxDecodeBytes →
    compressed.length + pieces.flatten.length ≤ u64Max →
    (collectPieces cfg info compressed pieces).length ≤ cfg.httpMaxDecodeBytes := by
  induction pieces with
  | nil => exact fun hle _ ↦ hle
  | cons piece pieces ih =>
      intro compressed hle hfits
      rw [List.flatten_cons, List.length_append] at hfits
      rw [collectPieces, List.foldl_cons]
      by_cases hroom : info.encoding ≠ .identity ∧
          satAdd compressed.length piece.length ≤ cfg.httpMaxDecodeBytes
      · rw [collectCompressed, if_pos hroom]
        have hsum := hroom.2
        rw [satAdd_of_le (by omega)] at hsum
        refine ih ?_ ?_
        · rwa [List.length_append]
        · rw [List.length_append]
          omega
      · rw [collectCompressed, if_neg hroom]
        exact ih hle (by omega)

theorem collectPieces_of_le (hencoding : info.encoding ≠ .identity) : ∀ {compressed : Bytes},
    compressed.length + pieces.flatten.length ≤ cfg.httpMaxDecodeBytes →
    collectPieces cfg info compressed pieces = compressed ++ pieces.flatten := by
  induction pieces with
  | nil => exact fun _ ↦ (List.append_nil _).symm
  | cons piece pieces ih =>
      intro compressed hle
      rw [List.flatten_cons, List.length_append] at hle
      rw [collectPieces, List.foldl_cons, collectCompressed_of_le hencoding (by omega),
        List.flatten_cons, ← List.append_assoc]
      refine ih ?_
      rw [List.length_append]
      omega

/-- What is collected stays. -/
theorem ne_nil_collectPieces : ∀ {compressed : Bytes}, compressed ≠ [] →
    collectPieces cfg info compressed pieces ≠ [] := by
  induction pieces with
  | nil => exact fun hne ↦ hne
  | cons piece pieces ih =>
      intro compressed hne
      rw [collectPieces, List.foldl_cons]
      refine ih ?_
      rw [collectCompressed]
      split_ifs
      · exact fun hnil ↦ hne (List.append_eq_nil_iff.mp hnil).1
      · exact hne

theorem collectPieces_eq_nil_iff (hencoding : info.encoding ≠ .identity)
    (hfits : pieces.flatten.length ≤ u64Max) (hne : ∀ piece ∈ pieces, piece ≠ []) :
    collectPieces cfg info [] pieces = [] ↔
      ∀ piece ∈ pieces, cfg.httpMaxDecodeBytes < piece.length := by
  induction pieces with
  | nil => simp [collectPieces]
  | cons piece pieces ih =>
      rw [List.flatten_cons, List.length_append] at hfits
      have hrest := ih (by omega) fun q hq ↦ hne q (List.mem_cons_of_mem _ hq)
      rw [collectPieces, List.foldl_cons, List.forall_mem_cons]
      by_cases hlt : cfg.httpMaxDecodeBytes < piece.length
      · rw [collectCompressed_of_lt (by simpa using (by omega : piece.length ≤ u64Max))
          (by simpa using hlt)]
        exact hrest.trans ⟨fun h ↦ ⟨hlt, h⟩, fun h ↦ h.2⟩
      · rw [collectCompressed_of_le hencoding (by simpa using not_lt.mp hlt), List.nil_append]
        exact ⟨fun h ↦ absurd h (ne_nil_collectPieces (hne piece List.mem_cons_self)),
          fun h ↦ absurd h.1 hlt⟩

/-- The input is empty or the whole of the pieces exactly when the whole fits or no piece
does. -/
theorem collectPieces_whole_iff (hencoding : info.encoding ≠ .identity)
    (hfits : pieces.flatten.length ≤ u64Max) (hne : ∀ piece ∈ pieces, piece ≠ []) :
    (collectPieces cfg info [] pieces = [] ∨
      collectPieces cfg info [] pieces = pieces.flatten) ↔
    pieces.flatten.length ≤ cfg.httpMaxDecodeBytes ∨
      ∀ piece ∈ pieces, cfg.httpMaxDecodeBytes < piece.length := by
  rw [collectPieces_eq_nil_iff hencoding hfits hne]
  constructor
  · rintro (hnone | hwhole)
    · exact .inr hnone
    · left
      rw [← hwhole]
      exact length_collectPieces_le (Nat.zero_le _) (by simpa using hfits)
  · rintro (hle | hnone)
    · right
      rw [collectPieces_of_le hencoding (by simpa using hle), List.nil_append]
    · exact .inl hnone

end Collecting

section Trace

/-- A body on its way: its bytes so far, and the pieces that were offered to the
decompressor. -/
structure BodyTrace where
  bytes : Bytes := []
  pieces : List Bytes := []
  deriving DecidableEq, Repr

/-- A call of the decompressor, with the body that it is for and the pieces of it. -/
structure DecodeCall where
  info : MessageInfo
  offset : ℕ
  compressed : Bytes
  body : Bytes
  pieces : List Bytes
  deriving DecidableEq, Repr

namespace BodyTrace

def add (b : BodyTrace) (data : Bytes) (pieces : List Bytes) : BodyTrace :=
  ⟨b.bytes ++ data, b.pieces ++ pieces⟩

def call (b : BodyTrace) (info : MessageInfo) (offset : ℕ) (compressed : Bytes) : DecodeCall :=
  ⟨info, offset, compressed, b.bytes, b.pieces⟩

/-- A call of the chunked decoder: what it gives without a limit, and the pieces that it
gives. -/
def addChunks (cfg : HttpConfig) (b : BodyTrace) (decoder : ChunkedDecoder) (buf : Bytes)
    (result : ChunkConsume) : BodyTrace :=
  match (decoder.consume buf cfg.httpMaxHeaderBytes buf.length).result with
  | none => b
  | some all => b.add all.data (result.dataChunks.map (·.data))

/-- A round of a parser: what it adds to the body, and its call of the decompressor. -/
def round (cfg : HttpConfig) (p : HttpStreamParser) (b : BodyTrace) :
    BodyTrace × Option DecodeCall :=
  match p.state with
  | .headers => ({}, none)
  | .fixed remaining info compressed =>
      if p.buffer = [] then (b, none)
      else
        let take := min remaining p.buffer.length
        let data := p.buffer.take take
        let b := b.add data [data]
        (b, if remaining - take = 0 then
            some (b.call info (p.advance take).streamOffset
              (collectCompressed cfg info compressed data))
          else none)
  | .skipFixed _ _ _ => (b, none)
  | .chunked info decoder compressed bodySeen captureBody =>
      if p.buffer = [] then (b, none)
      else match (decoder.consume p.buffer cfg.httpMaxHeaderBytes
          (Feed.collectRemaining cfg bodySeen captureBody)).result with
        | none => (b, none)
        | some result =>
            let b := b.addChunks cfg decoder p.buffer result
            let captureBody :=
              captureBody && decide (satAdd bodySeen result.bodyBytes ≤ cfg.httpMaxBodyBytes)
            (b, if result.done && captureBody then
                some (b.call info (satAdd p.streamOffset result.wireConsumed)
                  (collectPieces cfg info compressed (result.dataChunks.map (·.data))))
              else none)
  | .untilClose _ _ bodySeen captureBody =>
      if p.buffer = [] then (b, none)
      else
        let collect := min p.buffer.length (Feed.collectRemaining cfg bodySeen captureBody)
        (b.add p.buffer (if collect = 0 then [] else [p.buffer.take collect]), none)

/-- The call of the decompressor at the end of the stream. -/
def finish (cfg : HttpConfig) (p : HttpStreamParser) (b : BodyTrace) : Option DecodeCall :=
  match p.state with
  | .headers => none
  | .fixed remaining info compressed =>
      let take := min remaining p.buffer.length
      let data := p.buffer.take take
      if take = remaining then
        some ((b.add data (if take = 0 then [] else [data])).call info
          (p.advance take).streamOffset
          (if take = 0 then compressed else collectCompressed cfg info compressed data))
      else none
  | .skipFixed _ _ _ => none
  | .chunked info decoder compressed bodySeen captureBody =>
      match (decoder.consume p.buffer cfg.httpMaxHeaderBytes
          (Feed.collectRemaining cfg bodySeen captureBody)).result with
      | none => none
      | some result =>
          let captureBody :=
            captureBody && decide (satAdd bodySeen result.bodyBytes ≤ cfg.httpMaxBodyBytes)
          if result.done && captureBody then
            some ((b.addChunks cfg decoder p.buffer result).call info
              (satAdd p.streamOffset result.wireConsumed)
              (collectPieces cfg info compressed (result.dataChunks.map (·.data))))
          else none
  | .untilClose info compressed bodySeen captureBody =>
      let collect := min p.buffer.length (Feed.collectRemaining cfg bodySeen captureBody)
      let captured := p.buffer.take collect
      let finalCapture := captureBody &&
        decide (p.buffer = [] ∨ satAdd bodySeen p.buffer.length ≤ cfg.httpMaxBodyBytes)
      if finalCapture then
        some ((b.add p.buffer (if collect = 0 then [] else [captured])).call info
          (p.advance p.buffer.length).streamOffset
          (if collect = 0 then compressed else collectCompressed cfg info compressed captured))
      else none

end BodyTrace

/-- What is noted of the bodies: the one on its way in each direction, and the calls of the
decompressor. -/
structure Decodes where
  current : Direction → BodyTrace := fun _ ↦ {}
  calls : List DecodeCall := []

def decodeWatch (cfg : HttpConfig) : Watch Decodes where
  chunk p c g :=
    match p.nextInputOffset with
    | none => g
    | some expected =>
        if expected = c.offset then g
        else { g with current := Function.update g.current c.direction {} }
  round c f g :=
    let out := (g.current c.direction).round cfg f.parser
    { current := Function.update g.current c.direction out.1
      calls := g.calls ++ out.2.toList }

/-- The calls of the decompressor in a whole session, with those at its end. -/
def decodeCalls (cfg : HttpConfig) (cs : List StreamChunk) : List DecodeCall :=
  let s := runFrom (Watched.feed (decodeWatch cfg) cfg) ⟨{}, {}⟩ cs
  s.ghost.calls ++ if s.connection.mode = .tunnel then []
    else ((s.ghost.current .aToB).finish cfg s.connection.aToB).toList ++
      ((s.ghost.current .bToA).finish cfg s.connection.bToA).toList

/-- The pieces of a body are the body, and the input was collected from them. -/
structure DecodeCall.Collected (cfg : HttpConfig) (call : DecodeCall) : Prop where
  compressed : call.compressed = collectPieces cfg call.info [] call.pieces
  body : call.pieces.flatten = call.body
  nonempty : ∀ piece ∈ call.pieces, piece ≠ []
  fits : call.body.length ≤ u64Max

theorem DecodeCall.Collected.whole_iff {cfg : HttpConfig} {call : DecodeCall}
    (h : call.Collected cfg) (hencoding : call.info.encoding ≠ .identity) :
    (call.compressed = [] ∨ call.compressed = call.body) ↔
      call.body.length ≤ cfg.httpMaxDecodeBytes ∨
        ∀ piece ∈ call.pieces, cfg.httpMaxDecodeBytes < piece.length := by
  rw [h.compressed, ← h.body]
  exact collectPieces_whole_iff hencoding (by rw [h.body]; exact h.fits) h.nonempty

section Invariant

variable {cfg : HttpConfig} {c : StreamChunk} {f : Feed} {b : BodyTrace} {p : HttpStreamParser}

/-- The state of a parser has what was collected of the body. -/
def BodyTrace.Of (cfg : HttpConfig) (b : BodyTrace) : BodyState → Prop
  | .headers => True
  | .fixed remaining info compressed => 0 < remaining ∧
      compressed = collectPieces cfg info [] b.pieces ∧ b.pieces.flatten = b.bytes
  | .skipFixed _ _ _ => True
  | .chunked info _ compressed bodySeen captureBody
  | .untilClose info compressed bodySeen captureBody =>
      compressed = collectPieces cfg info [] b.pieces ∧ bodySeen = b.bytes.length ∧
        (captureBody = true → b.pieces.flatten = b.bytes ∧ b.bytes.length ≤ cfg.httpMaxBodyBytes)

/-- The trace of the body that a parser reads. -/
structure Traces (cfg : HttpConfig) (p : HttpStreamParser) (b : BodyTrace) : Prop where
  nonempty : ∀ piece ∈ b.pieces, piece ≠ []
  state : b.Of cfg p.state
  room : b.bytes.length + p.buffer.length ≤ p.nextInputOffset.getD 0
  bound : p.nextInputOffset.getD 0 ≤ u64Max

theorem Traces.fits (h : Traces cfg p b) : b.bytes.length + p.buffer.length ≤ u64Max :=
  h.room.trans h.bound

theorem of_framing_nil {parsed : ParsedHeader} {kind : Option RequestKind} {info : MessageInfo}
    {state : BodyState} (h : Feed.framing cfg parsed kind info = some state) :
    BodyTrace.Of cfg {} state := by
  unfold Feed.framing at h
  split_ifs at h
  · cases h
    trivial
  · cases h
    exact ⟨rfl, rfl, fun _ ↦ ⟨rfl, Nat.zero_le _⟩⟩
  · cases h
    exact ⟨rfl, rfl, fun _ ↦ ⟨rfl, Nat.zero_le _⟩⟩
  · split at h
    · split_ifs at h
      · cases h
        trivial
      · cases h
        trivial
      next hzero _ =>
        cases h
        exact ⟨Nat.pos_of_ne_zero hzero, rfl, rfl⟩
    · cases h
      exact ⟨rfl, rfl, fun _ ↦ ⟨rfl, Nat.zero_le _⟩⟩

/-- A round of a parser that looks for a header block ends at the start of a body, or goes on
looking. -/
theorem of_turnHeaders (hstate : f.parser.state = .headers) :
    BodyTrace.Of cfg {} (Feed.turnHeaders cfg c f).state.parser.state := by
  have hready : f.parser.ready.1.state = .headers :=
    HttpStreamParser.state_ready.trans hstate
  unfold Feed.turnHeaders
  dsimp only
  split
  · simp only [Turn.state, hready]
    trivial
  · split
    · split
      · simp only [Turn.state, HttpStreamParser.state_trimDesyncedSuffix, Feed.desync,
          Feed.countError, hready]
        trivial
      · simp only [Turn.state, hready]
        trivial
    · split
      · simp only [Turn.state, HttpStreamParser.advance, Feed.desync, Feed.countError, hready]
        trivial
      · unfold Feed.onHeader
        dsimp only
        split
        · trivial
        · split
          next state hframing => exact of_framing_nil hframing
          · trivial

theorem length_turnHeaders_le (cfg : HttpConfig) (c : StreamChunk)
    (hstate : f.parser.state = .headers) :
    (Feed.turnHeaders cfg c f).state.parser.buffer.length ≤ f.parser.buffer.length := by
  have hturns : MovesOrTunnels c.direction f (Feed.turnHeaders cfg c f) :=
    moves_turnHeaders rfl hstate
  rcases hturns with ⟨k, es, hmoves⟩ | ⟨f', k, es, -, hturn⟩
  · rw [hmoves.passes.length_le]
    exact Nat.sub_le _ _
  · rw [hturn]
    exact Nat.zero_le _

/-- The pieces that the chunked decoder gives are not empty. -/
theorem nonempty_turn {initialLen maxLine maxCollect : ℕ} {q : ChunkPass}
    (h : ∀ d ∈ q.chunks, d.data ≠ []) :
    ∀ d ∈ (q.turn initialLen maxLine maxCollect).state.chunks, d.data ≠ [] := by
  unfold ChunkPass.turn
  split
  · unfold ChunkPass.turnSize
    split
    · split_ifs <;> exact h
    · dsimp only
      split <;> exact h
  next remaining _ =>
    unfold ChunkPass.turnData
    split
    · exact h
    next hempty =>
      have hdata : ∀ d ∈ (if min (min remaining q.buf.length) (maxCollect - q.collected) = 0
          then q.chunks else q.chunks ++ [ChunkData.mk (initialLen - q.buf.length)
            (q.buf.take (min (min remaining q.buf.length) (maxCollect - q.collected)))]),
          d.data ≠ [] := by
        split_ifs with hcollect
        · exact h
        · intro d hd
          rcases List.mem_append.mp hd with hd | hd
          · exact h d hd
          · rw [List.mem_singleton.mp hd]
            simp only [ne_eq, List.take_eq_nil_iff, not_or]
            exact ⟨hcollect, hempty⟩
      dsimp only
      split <;> exact hdata
  · unfold ChunkPass.turnDataCrlf
    split_ifs <;> exact h
  · unfold ChunkPass.turnTrailers
    split
    · exact h
    · split
      · split <;> exact h
      · exact h

/-- A call of the chunked decoder on the way of a body. -/
theorem addChunks_spec (b : BodyTrace) (decoder : ChunkedDecoder) {buf : Bytes} (k : ℕ)
    (hbuf : buf.length ≤ u64Max) {result : ChunkConsume}
    (hresult : (decoder.consume buf cfg.httpMaxHeaderBytes k).result = some result) :
    ∃ all : Bytes, b.addChunks cfg decoder buf result =
        b.add all (result.dataChunks.map (·.data)) ∧
      result.bodyBytes = all.length ∧
      (result.dataChunks.map (·.data)).flatten = all.take k ∧
      all.length + (decoder.consume buf cfg.httpMaxHeaderBytes k).buf.length ≤ buf.length ∧
      ∀ piece ∈ result.dataChunks.map (·.data), piece ≠ [] := by
  obtain ⟨p, q, htrims, hp, hq⟩ :=
    trims_consume decoder cfg.httpMaxHeaderBytes k (le_refl buf.length) hbuf
  obtain ⟨p', hleaves, hp'⟩ := decoder.leaves_consume buf cfg.httpMaxHeaderBytes k
  have hnonempty : ∀ d ∈ p'.chunks, d.data ≠ [] :=
    hleaves.invariant (I := fun p ↦ ∀ d ∈ p.chunks, d.data ≠ []) (fun _ ↦ nonempty_turn)
      fun d hd ↦ by cases hd
  have hchunks : result.dataChunks = p'.chunks := by
    rw [hp', ChunkPass.outcome] at hresult
    dsimp only at hresult
    split_ifs at hresult
    cases hresult
    rfl
  rw [hp] at hresult ⊢
  simp only [ChunkPass.outcome] at hresult ⊢
  split_ifs at hresult with hfailed
  cases hresult
  refine ⟨q.data, ?_, htrims.bodyBytes.trans htrims.whole, ?_, ?_, fun piece hpiece ↦ ?_⟩
  · have hfine : ¬q.failed = true := by rwa [← htrims.failed]
    rw [BodyTrace.addChunks, hq, ChunkPass.outcome]
    dsimp only
    rw [if_neg hfine]
    rfl
  · have hdata := htrims.data
    rwa [ChunkPass.data, List.flatMap_def] at hdata
  · rw [htrims.buf]
    exact htrims.room
  · obtain ⟨d, hd, rfl⟩ := List.mem_map.mp hpiece
    rw [hchunks] at hd
    exact hnonempty d hd

/-- Nothing is added to the input of the decompressor but the pieces. -/
theorem collectPieces_concat (info : MessageInfo) (compressed : Bytes) (pieces : List Bytes)
    (piece : Bytes) : collectPieces cfg info compressed (pieces ++ [piece]) =
      collectCompressed cfg info (collectPieces cfg info compressed pieces) piece :=
  collectPieces_append compressed pieces [piece]

/-- Pieces that join a body. -/
theorem nonempty_append {pieces more : List Bytes} (h : ∀ piece ∈ pieces, piece ≠ [])
    (hmore : ∀ piece ∈ more, piece ≠ []) : ∀ piece ∈ pieces ++ more, piece ≠ [] :=
  fun piece hpiece ↦ (List.mem_append.mp hpiece).elim (h piece) (hmore piece)

/-- A piece that joins a body of which every byte is collected. -/
theorem collected_call (cfg : HttpConfig) (info : MessageInfo)
    (hpieces : b.pieces.flatten = b.bytes) (hnonempty : ∀ piece ∈ b.pieces, piece ≠ [])
    {data : Bytes}
    (hne : data ≠ []) (hfits : b.bytes.length + data.length ≤ u64Max) (offset : ℕ) :
    ((b.add data [data]).call info offset (collectCompressed cfg info
      (collectPieces cfg info [] b.pieces) data)).Collected cfg where
  compressed := (collectPieces_concat info [] b.pieces data).symm
  body := by simp [BodyTrace.call, BodyTrace.add, hpieces]
  nonempty := nonempty_append hnonempty fun piece hpiece ↦ by rwa [List.mem_singleton.mp hpiece]
  fits := by
    simp only [BodyTrace.call, BodyTrace.add, List.length_append]
    exact hfits

theorem collected_fixed {remaining : ℕ} {info : MessageInfo} {compressed : Bytes}
    (h : Traces cfg f.parser b) (hstate : f.parser.state = .fixed remaining info compressed) :
    Traces cfg (Feed.turnFixed cfg f remaining info compressed).state.parser
        (b.round cfg f.parser).1 ∧
      ∀ call ∈ (b.round cfg f.parser).2, call.Collected cfg := by
  have hof := h.state
  rw [hstate] at hof
  obtain ⟨hpos, rfl, hpieces⟩ := hof
  have hfits := h.fits
  have hroom := h.room
  unfold BodyTrace.round Feed.turnFixed
  rw [hstate]
  dsimp only
  by_cases hempty : f.parser.buffer = []
  · rw [if_pos hempty, if_pos hempty]
    exact ⟨h, fun call hcall ↦ by cases hcall⟩
  · rw [if_neg hempty, if_neg hempty]
    dsimp only
    have hlong : 0 < f.parser.buffer.length := List.length_pos_iff.mpr hempty
    have hlen : (f.parser.buffer.take (min remaining f.parser.buffer.length)).length =
        min remaining f.parser.buffer.length := by
      rw [List.length_take]
      omega
    have hne : f.parser.buffer.take (min remaining f.parser.buffer.length) ≠ [] := by
      rw [← List.length_pos_iff, hlen]
      omega
    have hcollected := collected_call cfg info hpieces h.nonempty hne (by rw [hlen]; omega)
      (f.parser.advance (min remaining f.parser.buffer.length)).streamOffset
    have hdrop : (f.parser.buffer.drop (min remaining f.parser.buffer.length)).length =
        f.parser.buffer.length - min remaining f.parser.buffer.length := List.length_drop
    have hroom' : (b.bytes ++ f.parser.buffer.take (min remaining f.parser.buffer.length)).length +
        (f.parser.buffer.drop (min remaining f.parser.buffer.length)).length ≤
          f.parser.nextInputOffset.getD 0 := by
      rw [List.length_append, hlen, hdrop]
      omega
    by_cases hdone : remaining - min remaining f.parser.buffer.length = 0
    · rw [if_pos hdone, if_pos hdone]
      refine ⟨⟨hcollected.nonempty, trivial, hroom', h.bound⟩, fun call hcall ↦ ?_⟩
      obtain rfl := Option.some.inj hcall
      exact hcollected
    · rw [if_neg hdone, if_neg hdone]
      exact ⟨⟨hcollected.nonempty, ⟨Nat.pos_of_ne_zero hdone, hcollected.compressed,
        hcollected.body⟩, hroom', h.bound⟩, fun call hcall ↦ by cases hcall⟩

/-- What a body of unknown length has in the state of its parser. -/
structure Captured (cfg : HttpConfig) (b : BodyTrace) (info : MessageInfo) (compressed : Bytes)
    (bodySeen : ℕ) (captureBody : Bool) : Prop where
  compressed : compressed = collectPieces cfg info [] b.pieces
  bodySeen : bodySeen = b.bytes.length
  whole : captureBody = true →
    b.pieces.flatten = b.bytes ∧ b.bytes.length ≤ cfg.httpMaxBodyBytes

/-- More of a body of unknown length, of which the first bytes are captured. -/
theorem Captured.add {info : MessageInfo} {compressed data : Bytes} {bodySeen : ℕ}
    {captureBody : Bool} (h : Captured cfg b info compressed bodySeen captureBody)
    {pieces : List Bytes}
    (hpieces : pieces.flatten = data.take (Feed.collectRemaining cfg bodySeen captureBody))
    (hfits : b.bytes.length + data.length ≤ u64Max) :
    Captured cfg (b.add data pieces) info (collectPieces cfg info compressed pieces)
      (satAdd bodySeen data.length)
      (captureBody && decide (satAdd bodySeen data.length ≤ cfg.httpMaxBodyBytes)) := by
  have hseen := h.bodySeen
  have hsum : satAdd bodySeen data.length = b.bytes.length + data.length := by
    rw [hseen, satAdd_of_le hfits]
  refine ⟨?_, ?_, fun hcapture ↦ ?_⟩
  · rw [h.compressed]
    exact (collectPieces_append [] b.pieces pieces).symm
  · rw [hsum]
    exact List.length_append.symm
  · rw [Bool.and_eq_true, decide_eq_true_eq, hsum] at hcapture
    obtain ⟨hcapture, hle⟩ := hcapture
    obtain ⟨hwhole, -⟩ := h.whole hcapture
    have hall : pieces.flatten = data := by
      rw [hpieces, Feed.collectRemaining, if_pos hcapture]
      exact List.take_of_length_le (by omega)
    refine ⟨?_, ?_⟩
    · simp only [BodyTrace.add, List.flatten_append, hwhole, hall]
    · simp only [BodyTrace.add, List.length_append]
      exact hle

/-- A body that is captured as a whole. -/
theorem Captured.call {info : MessageInfo} {compressed : Bytes} {bodySeen : ℕ}
    (h : Captured cfg b info compressed bodySeen true) (hnonempty : ∀ piece ∈ b.pieces, piece ≠ [])
    (hfits : b.bytes.length ≤ u64Max) (offset : ℕ) :
    (b.call info offset compressed).Collected cfg :=
  ⟨h.compressed, (h.whole rfl).1, hnonempty, hfits⟩

/-- A call of the chunked decoder. -/
theorem Captured.chunks {info : MessageInfo} {decoder : ChunkedDecoder} {compressed buf : Bytes}
    {bodySeen : ℕ} {captureBody : Bool} (h : Captured cfg b info compressed bodySeen captureBody)
    (hnonempty : ∀ piece ∈ b.pieces, piece ≠ []) (hfits : b.bytes.length + buf.length ≤ u64Max)
    {result : ChunkConsume}
    (hresult : (decoder.consume buf cfg.httpMaxHeaderBytes
      (Feed.collectRemaining cfg bodySeen captureBody)).result = some result) :
    Captured cfg (b.addChunks cfg decoder buf result) info
        (collectPieces cfg info compressed (result.dataChunks.map (·.data)))
        (satAdd bodySeen result.bodyBytes)
        (captureBody && decide (satAdd bodySeen result.bodyBytes ≤ cfg.httpMaxBodyBytes)) ∧
      (∀ piece ∈ (b.addChunks cfg decoder buf result).pieces, piece ≠ []) ∧
      (b.addChunks cfg decoder buf result).bytes.length +
        (decoder.consume buf cfg.httpMaxHeaderBytes
          (Feed.collectRemaining cfg bodySeen captureBody)).buf.length ≤
        b.bytes.length + buf.length := by
  obtain ⟨all, hadd, hbytes, htake, hroom, hpieces⟩ :=
    addChunks_spec b decoder (Feed.collectRemaining cfg bodySeen captureBody) (by omega) hresult
  rw [hadd, hbytes]
  refine ⟨h.add htake (by omega), nonempty_append hnonempty hpieces, ?_⟩
  simp only [BodyTrace.add, List.length_append]
  omega

theorem collected_chunked {info : MessageInfo} {decoder : ChunkedDecoder} {compressed : Bytes}
    {bodySeen : ℕ} {captureBody : Bool} (h : Traces cfg f.parser b)
    (hstate : f.parser.state = .chunked info decoder compressed bodySeen captureBody) :
    Traces cfg (Feed.turnChunked cfg f info decoder compressed bodySeen captureBody).state.parser
        (b.round cfg f.parser).1 ∧
      ∀ call ∈ (b.round cfg f.parser).2, call.Collected cfg := by
  have hof := h.state
  rw [hstate] at hof
  have hcaptured : Captured cfg b info compressed bodySeen captureBody :=
    ⟨hof.1, hof.2.1, hof.2.2⟩
  have hroom := h.room
  unfold BodyTrace.round Feed.turnChunked
  rw [hstate]
  dsimp only
  by_cases hempty : f.parser.buffer = []
  · rw [if_pos hempty, if_pos hempty]
    exact ⟨h, fun call hcall ↦ by cases hcall⟩
  · rw [if_neg hempty, if_neg hempty]
    cases hresult : (decoder.consume f.parser.buffer cfg.httpMaxHeaderBytes
        (Feed.collectRemaining cfg bodySeen captureBody)).result with
    | none =>
        obtain ⟨k, -, hbuf, -⟩ := decoder.placed_consume f.parser.buffer cfg.httpMaxHeaderBytes
          (Feed.collectRemaining cfg bodySeen captureBody)
        refine ⟨⟨h.nonempty, trivial, ?_, h.bound⟩, fun call hcall ↦ by cases hcall⟩
        simp only [Turn.state, Feed.desync, Feed.countError, hbuf, List.length_drop]
        omega
    | some result =>
        obtain ⟨hnext, hnonempty, hless⟩ := hcaptured.chunks h.nonempty h.fits hresult
        dsimp only
        rw [foldl_collectCompressed]
        refine ⟨?_, fun call hcall ↦ ?_⟩
        · split
          · exact ⟨hnonempty, trivial, hless.trans hroom, h.bound⟩
          · split <;> exact ⟨hnonempty, ⟨hnext.compressed, hnext.bodySeen, hnext.whole⟩,
              hless.trans hroom, h.bound⟩
        · split at hcall
          next hdone =>
            obtain rfl := Option.some.inj hcall
            rw [Bool.and_eq_true] at hdone
            rw [hdone.2] at hnext
            have hfits := h.fits
            exact hnext.call hnonempty (by omega) _
          · cases hcall

/-- The bytes that arrive of a body without a length of its own. -/
theorem Captured.rest {info : MessageInfo} {compressed data : Bytes} {bodySeen : ℕ}
    {captureBody : Bool} (h : Captured cfg b info compressed bodySeen captureBody)
    (hnonempty : ∀ piece ∈ b.pieces, piece ≠ [])
    (hfits : b.bytes.length + data.length ≤ u64Max) {collect : ℕ}
    (hcollect : collect = min data.length (Feed.collectRemaining cfg bodySeen captureBody)) :
    Captured cfg (b.add data (if collect = 0 then [] else [data.take collect])) info
        (if collect = 0 then compressed
          else collectCompressed cfg info compressed (data.take collect))
        (satAdd bodySeen data.length)
        (captureBody && decide (satAdd bodySeen data.length ≤ cfg.httpMaxBodyBytes)) ∧
      ∀ piece ∈ (b.add data (if collect = 0 then [] else [data.take collect])).pieces,
        piece ≠ [] := by
  have htake : data.take collect = data.take (Feed.collectRemaining cfg bodySeen captureBody) := by
    rw [hcollect, List.take_eq_take_iff]
    omega
  by_cases hzero : collect = 0
  · rw [if_pos hzero, if_pos hzero]
    refine ⟨h.add ?_ hfits, nonempty_append hnonempty fun piece hpiece ↦ by cases hpiece⟩
    rw [← htake, hzero]
    rfl
  · rw [if_neg hzero, if_neg hzero]
    have hflatten : [data.take collect].flatten =
        data.take (Feed.collectRemaining cfg bodySeen captureBody) := by
      rwa [List.flatten_cons, List.flatten_nil, List.append_nil]
    refine ⟨h.add hflatten hfits, nonempty_append hnonempty fun piece hpiece ↦ ?_⟩
    rw [List.mem_singleton.mp hpiece, ← List.length_pos_iff, List.length_take]
    omega

theorem collected_untilClose {info : MessageInfo} {compressed : Bytes} {bodySeen : ℕ}
    {captureBody : Bool} (h : Traces cfg f.parser b)
    (hstate : f.parser.state = .untilClose info compressed bodySeen captureBody) :
    Traces cfg (Feed.turnUntilClose cfg f info compressed bodySeen captureBody).state.parser
        (b.round cfg f.parser).1 ∧
      ∀ call ∈ (b.round cfg f.parser).2, call.Collected cfg := by
  have hof := h.state
  rw [hstate] at hof
  have hcaptured : Captured cfg b info compressed bodySeen captureBody :=
    ⟨hof.1, hof.2.1, hof.2.2⟩
  have hroom := h.room
  unfold BodyTrace.round Feed.turnUntilClose
  rw [hstate]
  dsimp only
  by_cases hempty : f.parser.buffer = []
  · rw [if_pos hempty, if_pos hempty]
    exact ⟨h, fun call hcall ↦ by cases hcall⟩
  · rw [if_neg hempty, if_neg hempty]
    obtain ⟨hnext, hnonempty⟩ := hcaptured.rest h.nonempty h.fits rfl
    refine ⟨⟨hnonempty, ⟨hnext.compressed, hnext.bodySeen, hnext.whole⟩, ?_, h.bound⟩,
      fun call hcall ↦ by cases hcall⟩
    simp only [BodyTrace.add, Turn.state, Feed.emit, HttpStreamParser.advance, List.length_append,
      List.length_drop]
    omega

/-- A round of a parser. -/
theorem Traces.round (h : Traces cfg f.parser b) (c : StreamChunk) :
    Traces cfg (Feed.turn cfg c f).state.parser (b.round cfg f.parser).1 ∧
      ∀ call ∈ (b.round cfg f.parser).2, call.Collected cfg := by
  have hroom := h.room
  have hbound := h.bound
  cases hstate : f.parser.state with
  | headers =>
      have hround : b.round cfg f.parser = ({}, none) := by rw [BodyTrace.round, hstate]
      have hturn : Feed.turn cfg c f = Feed.turnHeaders cfg c f := by rw [Feed.turn, hstate]
      have hlen := length_turnHeaders_le cfg c hstate
      have hnext := next_turn cfg c f
      rw [hturn] at hnext ⊢
      rw [hround]
      refine ⟨⟨fun piece hpiece ↦ (by cases hpiece), of_turnHeaders hstate, ?_, ?_⟩,
        fun call hcall ↦ by cases hcall⟩
      · rw [hnext]
        simp only [List.length_nil]
        omega
      · rwa [hnext]
  | fixed remaining info compressed =>
      have hturn : Feed.turn cfg c f = Feed.turnFixed cfg f remaining info compressed := by
        rw [Feed.turn, hstate]
      rw [hturn]
      exact collected_fixed h hstate
  | skipFixed remaining captureRemaining info =>
      have hround : b.round cfg f.parser = (b, none) := by rw [BodyTrace.round, hstate]
      have hturn : Feed.turn cfg c f = Feed.turnSkipFixed f remaining captureRemaining info := by
        rw [Feed.turn, hstate]
      rw [hturn, hround]
      refine ⟨?_, fun call hcall ↦ by cases hcall⟩
      unfold Feed.turnSkipFixed
      split_ifs
      · exact h
      · dsimp only
        split_ifs <;>
          exact ⟨h.nonempty, trivial, by
            simp only [Turn.state, Feed.emit, HttpStreamParser.advance, List.length_drop]
            omega, h.bound⟩
  | chunked info decoder compressed bodySeen captureBody =>
      have hturn : Feed.turn cfg c f =
          Feed.turnChunked cfg f info decoder compressed bodySeen captureBody := by
        rw [Feed.turn, hstate]
      rw [hturn]
      exact collected_chunked h hstate
  | untilClose info compressed bodySeen captureBody =>
      have hturn : Feed.turn cfg c f =
          Feed.turnUntilClose cfg f info compressed bodySeen captureBody := by
        rw [Feed.turn, hstate]
      rw [hturn]
      exact collected_untilClose h hstate

/-- A chunk joins the buffer, after a gap of a parser that looks for a start. -/
theorem Traces.accept {g : Decodes} (h : Traces cfg p (g.current c.direction))
    (hbound : c.offset + c.data.length ≤ u64Max) (pending : List RequestKind) :
    Traces cfg (p.accept c pending).1 (((decodeWatch cfg).chunk p c g).current c.direction) := by
  have hsum : satAdd c.offset c.data.length = c.offset + c.data.length := satAdd_of_le hbound
  have hroom := h.room
  unfold HttpStreamParser.accept
  simp only [decodeWatch]
  cases hnext : p.nextInputOffset with
  | none =>
      rw [hnext, Option.getD_none] at hroom
      refine ⟨h.nonempty, h.state, ?_, ?_⟩
      · simp only [Option.getD_some, hsum, List.length_append]
        omega
      · simp only [Option.getD_some, hsum, hbound]
  | some expected =>
      rw [hnext, Option.getD_some] at hroom
      dsimp only
      by_cases hexpected : expected = c.offset
      · rw [if_pos hexpected, if_neg (not_not_intro hexpected)]
        refine ⟨h.nonempty, h.state, ?_, ?_⟩
        · simp only [Option.getD_some, hsum, List.length_append]
          omega
        · simp only [Option.getD_some, hsum, hbound]
      · rw [if_neg hexpected, if_pos hexpected]
        simp only [Function.update_self]
        refine ⟨fun piece hpiece ↦ (by cases hpiece), trivial, ?_, ?_⟩
        · simp only [Option.getD_some, hsum, List.length_append, List.length_nil]
          omega
        · simp only [Option.getD_some, hsum, hbound]

theorem calls_chunk (cfg : HttpConfig) (g : Decodes) :
    ((decodeWatch cfg).chunk p c g).calls = g.calls := by
  simp only [decodeWatch]
  split
  · rfl
  · split_ifs <;> rfl

theorem current_chunk (cfg : HttpConfig) {d : Direction} (hd : d ≠ c.direction) (g : Decodes) :
    ((decodeWatch cfg).chunk p c g).current d = g.current d := by
  simp only [decodeWatch]
  split
  · rfl
  · split_ifs
    · rfl
    · exact Function.update_of_ne hd _ _

/-- Both bodies of a connection, and the calls so far. -/
structure Watched.Collects (cfg : HttpConfig) (s : Watched Decodes) : Prop where
  traces : ∀ d, Traces cfg (s.connection.parser d) (s.ghost.current d)
  calls : ∀ call ∈ s.ghost.calls, call.Collected cfg

theorem Watched.Collects.next {s : Watched Decodes} (h : s.Collects cfg)
    (hbound : c.offset + c.data.length ≤ u64Max) :
    Traces cfg (s.next (decodeWatch cfg) cfg c).1.parser
        ((s.next (decodeWatch cfg) cfg c).2.current c.direction) ∧
      (∀ call ∈ (s.next (decodeWatch cfg) cfg c).2.calls, call.Collected cfg) ∧
      ∀ d ≠ c.direction, (s.next (decodeWatch cfg) cfg c).2.current d = s.ghost.current d := by
  refine Leaves.ghost_invariant (I := fun f (g : Decodes) ↦
    Traces cfg f.parser (g.current c.direction) ∧ (∀ call ∈ g.calls, call.Collected cfg) ∧
      ∀ d ≠ c.direction, g.current d = s.ghost.current d)
    (leaves_watch c _ ((decodeWatch cfg).chunk (s.connection.parser c.direction) c s.ghost))
    (fun f g hI ↦ ?_) ⟨?_, ?_, fun d hd ↦ current_chunk cfg hd _⟩
  · obtain ⟨htraces, hcalls, hother⟩ := hI
    obtain ⟨hnext, hcollected⟩ := htraces.round c
    simp only [decodeWatch]
    refine ⟨?_, fun call hcall ↦ ?_, fun d hd ↦ ?_⟩
    · rwa [Function.update_self]
    · rcases List.mem_append.mp hcall with hcall | hcall
      · exact hcalls call hcall
      · exact hcollected call (Option.mem_toList.mp hcall)
    · rw [Function.update_of_ne hd, hother d hd]
  · exact (h.traces c.direction).accept hbound _
  · rw [calls_chunk]
    exact h.calls

theorem Watched.Collects.feed {s : Watched Decodes} (h : s.Collects cfg)
    (hbound : c.offset + c.data.length ≤ u64Max) :
    (s.feed (decodeWatch cfg) cfg c).Collects cfg := by
  cases hmode : s.connection.mode with
  | tunnel => rwa [Watched.feed_of_tunnel hmode]
  | http =>
      obtain ⟨hghost, hparser, -, -, hothers⟩ :=
        Watched.feed_of_http (decodeWatch cfg) cfg c hmode
      obtain ⟨htraces, hcalls, hcurrent⟩ := h.next hbound
      refine ⟨fun d ↦ ?_, by rwa [hghost]⟩
      by_cases hd : d = c.direction
      · subst hd
        rwa [hparser, hghost]
      · rw [hothers d hd, hghost, hcurrent d hd]
        exact h.traces d

theorem Watched.Collects.run (cs : List StreamChunk)
    (hbound : ∀ c ∈ cs, c.offset + c.data.length ≤ u64Max) {s : Watched Decodes}
    (h : s.Collects cfg) : (runFrom (Watched.feed (decodeWatch cfg) cfg) s cs).Collects cfg := by
  induction cs generalizing s with
  | nil => exact h
  | cons c cs ih =>
      exact ih (fun c hc ↦ hbound c (List.mem_cons_of_mem _ hc))
        (h.feed (hbound c List.mem_cons_self))

/-- The call at the end of a stream. -/
theorem Traces.finish (h : Traces cfg p b) :
    ∀ call ∈ b.finish cfg p, call.Collected cfg := by
  intro call hcall
  have hof := h.state
  have hfits := h.fits
  unfold BodyTrace.finish at hcall
  cases hstate : p.state with
  | headers =>
      rw [hstate] at hcall
      cases hcall
  | fixed remaining info compressed =>
      rw [hstate] at hcall hof
      obtain ⟨hpos, rfl, hpieces⟩ := hof
      dsimp only at hcall
      split at hcall
      next htake =>
        obtain rfl := Option.some.inj hcall
        have hzero : min remaining p.buffer.length ≠ 0 := by omega
        rw [if_neg hzero, if_neg hzero]
        have hlen : (p.buffer.take (min remaining p.buffer.length)).length =
            min remaining p.buffer.length := by
          rw [List.length_take]
          omega
        refine collected_call cfg info hpieces h.nonempty ?_ ?_ _
        · rw [← List.length_pos_iff, hlen]
          omega
        · rw [hlen]
          omega
      · cases hcall
  | skipFixed remaining captureRemaining info =>
      rw [hstate] at hcall
      cases hcall
  | chunked info decoder compressed bodySeen captureBody =>
      rw [hstate] at hcall hof
      have hcaptured : Captured cfg b info compressed bodySeen captureBody :=
        ⟨hof.1, hof.2.1, hof.2.2⟩
      dsimp only at hcall
      cases hresult : (decoder.consume p.buffer cfg.httpMaxHeaderBytes
          (Feed.collectRemaining cfg bodySeen captureBody)).result with
      | none =>
          rw [hresult] at hcall
          cases hcall
      | some result =>
          obtain ⟨hnext, hnonempty, hless⟩ := hcaptured.chunks h.nonempty hfits hresult
          rw [hresult] at hcall
          dsimp only at hcall
          split at hcall
          next hdone =>
            obtain rfl := Option.some.inj hcall
            rw [Bool.and_eq_true] at hdone
            rw [hdone.2] at hnext
            exact hnext.call hnonempty (by omega) _
          · cases hcall
  | untilClose info compressed bodySeen captureBody =>
      rw [hstate] at hcall hof
      have hcaptured : Captured cfg b info compressed bodySeen captureBody :=
        ⟨hof.1, hof.2.1, hof.2.2⟩
      obtain ⟨hnext, hnonempty⟩ := hcaptured.rest h.nonempty hfits rfl
      dsimp only at hcall
      split at hcall
      next hfinal =>
        obtain rfl := Option.some.inj hcall
        rw [Bool.and_eq_true, decide_eq_true_eq] at hfinal
        obtain ⟨hcapture, hend⟩ := hfinal
        have hwithin : satAdd bodySeen p.buffer.length ≤ cfg.httpMaxBodyBytes := by
          rcases hend with hempty | hwithin
          · rw [hempty, List.length_nil, satAdd_of_le (by rw [hof.2.1]; omega), hof.2.1]
            exact (hof.2.2 hcapture).2
          · exact hwithin
        subst hcapture
        rw [decide_eq_true hwithin, Bool.and_self] at hnext
        refine hnext.call hnonempty ?_ _
        simp only [BodyTrace.add, List.length_append]
        exact hfits
      · cases hcall

theorem collects_new (cfg : HttpConfig) : Watched.Collects cfg ⟨{}, {}⟩ where
  traces d := by
    cases d <;> exact ⟨fun piece hpiece ↦ (by cases hpiece), trivial, le_rfl, Nat.zero_le _⟩
  calls call hcall := by cases hcall

/-- In every session, every call of the decompressor gets what was collected of the pieces of
its body. -/
theorem collected_decodeCalls (cfg : HttpConfig) (cs : List StreamChunk)
    (hbound : ∀ c ∈ cs, c.offset + c.data.length ≤ u64Max) :
    ∀ call ∈ decodeCalls cfg cs, call.Collected cfg := by
  intro call hcall
  have hcollects := (collects_new cfg).run cs hbound
  unfold decodeCalls at hcall
  dsimp only at hcall
  rcases List.mem_append.mp hcall with hcall | hcall
  · exact hcollects.calls call hcall
  · split at hcall
    · cases hcall
    · rcases List.mem_append.mp hcall with hcall | hcall
      · exact (hcollects.traces .aToB).finish call (Option.mem_toList.mp hcall)
      · exact (hcollects.traces .bToA).finish call (Option.mem_toList.mp hcall)

end Invariant

section Emitted

variable {cfg : HttpConfig} {c : StreamChunk} {d : Direction} {f : Feed} {p : HttpStreamParser}
  {info : MessageInfo}

/-- The decoded bodies among the records. -/
def decodedRecords (es : List HttpEmission) : List HttpContent :=
  (es.flatMap HttpEmission.content).filter fun r ↦ decide (¬IsWire r.view)

def DecodeCall.records (cfg : HttpConfig) (call : DecodeCall) : List HttpContent :=
  (decodedRecord cfg call.info call.offset call.compressed).toList

theorem decodedRecords_append (es es' : List HttpEmission) :
    decodedRecords (es ++ es') = decodedRecords es ++ decodedRecords es' := by
  simp [decodedRecords]

theorem decodedRecords_of_wire {es : List HttpEmission}
    (h : ∀ e ∈ es, ∀ r ∈ e.content, IsWire r.view) : decodedRecords es = [] := by
  rw [decodedRecords, List.filter_eq_nil_iff]
  intro r hr
  obtain ⟨e, he, hre⟩ := List.mem_flatMap.mp hr
  simp [h e he r hre]

theorem decodedRecords_body (hinfo : info.Of d) (offset : ℕ) (data : Bytes) :
    decodedRecords [contentEvent info (bodyRecord info offset data)] = [] := by
  refine decodedRecords_of_wire fun e he r hr ↦ ?_
  obtain rfl := List.mem_singleton.mp he
  obtain rfl := List.mem_singleton.mp hr
  exact hinfo.body

theorem decodedRecords_ite_body (hinfo : info.Of d) (q : Prop) [Decidable q] (offset : ℕ)
    (data : Bytes) :
    decodedRecords (if q then [] else [contentEvent info (bodyRecord info offset data)]) = [] := by
  split_ifs
  · rfl
  · exact decodedRecords_body hinfo offset data

theorem decodedRecords_chunkEvents (hinfo : info.Of d) (base : ℕ) (chunks : List ChunkData) :
    decodedRecords (Feed.chunkEvents info base chunks) = [] := by
  refine decodedRecords_of_wire fun e he r hr ↦ ?_
  obtain ⟨chunk, -, rfl⟩ := List.mem_map.mp he
  obtain rfl := List.mem_singleton.mp hr
  exact hinfo.body

theorem decodedRecords_decoded (hinfo : info.Of d) (cfg : HttpConfig) (offset : ℕ)
    (compressed : Bytes) :
    decodedRecords ((decodedRecord cfg info offset compressed).toList.map (contentEvent info)) =
      (decodedRecord cfg info offset compressed).toList := by
  have hhidden := hidden_decodedRecord hinfo cfg offset compressed
  cases hrecord : decodedRecord cfg info offset compressed with
  | none => rfl
  | some record =>
      have hview := (hhidden record hrecord).2
      simp [decodedRecords, contentEvent, hview]

theorem decodedRecords_header {header : HttpContent} (hview : IsWire header.view)
    (record : Option HttpRecord) (reqDir : Option Direction) :
    decodedRecords [⟨[header], record, reqDir⟩] = [] := by
  simp [decodedRecords, hview]

theorem decoded_turnHeaders (cfg : HttpConfig) (c : StreamChunk) (f : Feed) :
    decodedRecords (Feed.turnHeaders cfg c f).state.report.events =
      decodedRecords f.report.events := by
  unfold Feed.turnHeaders
  dsimp only
  split
  · rfl
  · split
    · split <;> rfl
    · split
      · rfl
      next parsed _ =>
        have hview (offset : ℕ) (header : Bytes) :
            IsWire (Feed.headerRecord c parsed offset header).view := by
          cases hrequest : parsed.request <;> simp [Feed.headerRecord, hrequest, IsWire]
        unfold Feed.onHeader
        dsimp only
        split
        · simp only [Turn.state, Feed.noteHeader, decodedRecords_append,
            decodedRecords_header (hview _ _), List.append_nil]
        · split <;>
            simp only [Turn.state, Feed.noteHeader, Feed.desync, Feed.countError,
              decodedRecords_append, decodedRecords_header (hview _ _), List.append_nil]

/-- The decoded bodies of a round are those of its calls. -/
theorem decoded_turn (cfg : HttpConfig) (c : StreamChunk) (b : BodyTrace)
    (hof : f.parser.state.Of d) :
    decodedRecords (Feed.turn cfg c f).state.report.events =
      decodedRecords f.report.events ++
        (b.round cfg f.parser).2.toList.flatMap (DecodeCall.records cfg) := by
  unfold Feed.turn BodyTrace.round
  cases hstate : f.parser.state with
  | headers =>
      dsimp only
      rw [decoded_turnHeaders]
      exact (List.append_nil _).symm
  | fixed remaining info compressed =>
      rw [hstate] at hof
      have hinfo := hof.2
      unfold Feed.turnFixed
      dsimp only
      split
      · exact (List.append_nil _).symm
      · split
        · simp only [Turn.state, Feed.emit, decodedRecords_append, decodedRecords_body hinfo,
            decodedRecords_decoded hinfo, List.append_nil, Option.toList_some,
            List.flatMap_singleton]
          rfl
        · simp only [Turn.state, Feed.emit, decodedRecords_append, decodedRecords_body hinfo,
            Option.toList_none, List.flatMap_nil]
  | skipFixed remaining captureRemaining info =>
      rw [hstate] at hof
      unfold Feed.turnSkipFixed
      dsimp only
      split
      · exact (List.append_nil _).symm
      · split <;>
          simp only [Turn.state, Feed.emit, decodedRecords_append, decodedRecords_ite_body hof,
            Option.toList_none, List.flatMap_nil]
  | chunked info decoder compressed bodySeen captureBody =>
      rw [hstate] at hof
      unfold Feed.turnChunked
      dsimp only
      split
      · exact (List.append_nil _).symm
      · cases hresult : (decoder.consume f.parser.buffer cfg.httpMaxHeaderBytes
            (Feed.collectRemaining cfg bodySeen captureBody)).result with
        | none => exact (List.append_nil _).symm
        | some result =>
            dsimp only
            rw [foldl_collectCompressed]
            by_cases hdone : result.done = true
            · rw [if_pos hdone, hdone, Bool.true_and]
              simp only [Turn.state, Feed.emit, decodedRecords_append,
                decodedRecords_chunkEvents hof, List.append_nil]
              split
              · rw [decodedRecords_decoded hof, Option.toList_some, List.flatMap_singleton]
                rfl
              · rfl
            · rw [if_neg hdone, Bool.eq_false_of_not_eq_true hdone, Bool.false_and]
              split <;>
                simp only [Turn.state, Feed.emit, decodedRecords_append,
                  decodedRecords_chunkEvents hof, Bool.false_eq_true, if_false, Option.toList_none,
                  List.flatMap_nil]
  | untilClose info compressed bodySeen captureBody =>
      rw [hstate] at hof
      unfold Feed.turnUntilClose
      dsimp only
      split
      · exact (List.append_nil _).symm
      · simp only [Turn.state, Feed.emit, decodedRecords_append, decodedRecords_ite_body hof,
          Option.toList_none, List.flatMap_nil]

/-- The decoded bodies at the end of a stream are those of the calls there. -/
theorem decoded_finish (cfg : HttpConfig) (b : BodyTrace) (hof : p.state.Of d) :
    decodedRecords (p.finish cfg) =
      (b.finish cfg p).toList.flatMap (DecodeCall.records cfg) := by
  unfold HttpStreamParser.finish BodyTrace.finish
  cases hstate : p.state with
  | headers => rfl
  | fixed remaining info compressed =>
      rw [hstate] at hof
      have hinfo := hof.2
      dsimp only
      rw [decodedRecords_append, decodedRecords_ite_body hinfo, List.nil_append]
      split
      · rw [decodedRecords_decoded hinfo, Option.toList_some, List.flatMap_singleton]
        rfl
      · rfl
  | skipFixed remaining captureRemaining info =>
      rw [hstate] at hof
      exact decodedRecords_ite_body hof _ _ _
  | chunked info decoder compressed bodySeen captureBody =>
      rw [hstate] at hof
      dsimp only
      cases hresult : (decoder.consume p.buffer cfg.httpMaxHeaderBytes
          (Feed.collectRemaining cfg bodySeen captureBody)).result with
      | none => rfl
      | some result =>
          dsimp only
          rw [foldl_collectCompressed, decodedRecords_append, decodedRecords_chunkEvents hof,
            List.nil_append]
          split
          · rw [decodedRecords_decoded hof, Option.toList_some, List.flatMap_singleton]
            rfl
          · rfl
  | untilClose info compressed bodySeen captureBody =>
      rw [hstate] at hof
      dsimp only
      rw [decodedRecords_append, decodedRecords_ite_body hof, List.nil_append]
      split
      · rw [decodedRecords_decoded hof, Option.toList_some, List.flatMap_singleton]
        rfl
      · rfl

theorem of_accept (h : p.state.Of d) (c : StreamChunk) (pending : List RequestKind) :
    (p.accept c pending).1.state.Of d := by
  unfold HttpStreamParser.accept
  dsimp only
  split
  · split
    · trivial
    · exact h
  · exact h

theorem of_turn (cfg : HttpConfig) (c : StreamChunk) (h : f.parser.state.Of c.direction) :
    (Feed.turn cfg c f).state.parser.state.Of c.direction := by
  have hstep : MovesOrTunnels c.direction f (Feed.turn cfg c f) := moves_turn rfl h
  rcases hstep with ⟨k, es, hmoves⟩ | ⟨f', k, es, hmoves, hturn⟩
  · exact hmoves.state
  · rw [hturn]
    exact hmoves.state

/-- What is noted of a connection is what it emitted. -/
structure Emitted (cfg : HttpConfig) (s : Watched Decodes) (fed : Fed) : Prop where
  connection : s.connection = fed.connection
  state : ∀ d, (s.connection.parser d).state.Of d
  records : decodedRecords fed.events = s.ghost.calls.flatMap (DecodeCall.records cfg)

theorem Emitted.next {s : Watched Decodes} {fed : Fed} (h : Emitted cfg s fed) (c : StreamChunk) :
    (s.next (decodeWatch cfg) cfg c).1.parser.state.Of c.direction ∧
      decodedRecords fed.events ++
          decodedRecords (s.next (decodeWatch cfg) cfg c).1.report.events =
        (s.next (decodeWatch cfg) cfg c).2.calls.flatMap (DecodeCall.records cfg) := by
  refine Leaves.ghost_invariant (I := fun f (g : Decodes) ↦ f.parser.state.Of c.direction ∧
    decodedRecords fed.events ++ decodedRecords f.report.events =
      g.calls.flatMap (DecodeCall.records cfg))
    (leaves_watch c _ ((decodeWatch cfg).chunk (s.connection.parser c.direction) c s.ghost))
    (fun f g hI ↦ ?_) ⟨?_, ?_⟩
  · obtain ⟨hof, hrecords⟩ := hI
    refine ⟨of_turn cfg c hof, ?_⟩
    rw [decoded_turn cfg c (g.current c.direction) hof, ← List.append_assoc, hrecords]
    exact List.flatMap_append.symm
  · exact of_accept (h.state c.direction) c _
  · rw [calls_chunk, ← h.records]
    exact List.append_nil _

theorem Emitted.feed {s : Watched Decodes} {fed : Fed} (h : Emitted cfg s fed) (c : StreamChunk) :
    Emitted cfg (s.feed (decodeWatch cfg) cfg c) (fed.feed cfg c) := by
  cases hmode : s.connection.mode with
  | tunnel =>
      rw [Watched.feed_of_tunnel hmode, Fed.feed_of_tunnel (h.connection ▸ hmode)]
      exact h
  | http =>
      obtain ⟨hghost, hparser, -, -, hothers⟩ :=
        Watched.feed_of_http (decodeWatch cfg) cfg c hmode
      obtain ⟨hevents, -, -, -⟩ := Fed.feed_of_http cfg c (h.connection ▸ hmode)
      obtain ⟨hof, hrecords⟩ := h.next c
      have hnext : (s.next (decodeWatch cfg) cfg c).1 = fed.next cfg c := by
        rw [Watched.next, fst_watch, h.connection, Fed.next]
      refine ⟨?_, fun d ↦ ?_, ?_⟩
      · rw [connection_feed, h.connection]
        rfl
      · by_cases hd : d = c.direction
        · subst hd
          rwa [hparser]
        · rw [hothers d hd]
          exact h.state d
      · rw [hevents, decodedRecords_append, ← hnext, hrecords, hghost]

theorem Emitted.run {s : Watched Decodes} {fed : Fed} (h : Emitted cfg s fed)
    (cs : List StreamChunk) : Emitted cfg (runFrom (Watched.feed (decodeWatch cfg) cfg) s cs)
      (runFrom (Fed.feed cfg) fed cs) := by
  induction cs generalizing s fed with
  | nil => exact h
  | cons c cs ih => exact ih (h.feed c)

/-- The decoded bodies of a session are those of the calls. -/
theorem decodedRecords_allEvents (cfg : HttpConfig) (cs : List StreamChunk) :
    decodedRecords (allEvents cfg cs) =
      (decodeCalls cfg cs).flatMap (DecodeCall.records cfg) := by
  have hnew : Emitted cfg ⟨{}, {}⟩ {} := ⟨rfl, fun d ↦ by cases d <;> trivial, rfl⟩
  obtain ⟨hconnection, hstate, hrecords⟩ := hnew.run cs
  rw [allEvents, decodedRecords_append, feedAll, hrecords, decodeCalls, List.flatMap_append,
    ← hconnection, HttpConnection.finish]
  congr 1
  split
  · rfl
  · rw [decodedRecords_append, List.flatMap_append]
    exact congrArg₂ _ (decoded_finish cfg _ (hstate .aToB)) (decoded_finish cfg _ (hstate .bToA))

end Emitted

/-- A request whose compressed body has six bytes. -/
def gzipHeader : Bytes :=
  ascii "POST / HTTP/1.1\r\nContent-Encoding: gzip\r\nContent-Length: 6\r\n\r\n"

/-- A decompressor with room for four bytes, for inputs that are not compressed. -/
def smallConfig : HttpConfig where
  httpMaxHeaderBytes := 131072
  httpMaxBodyBytes := 67108864
  httpMaxDecodeBytes := 4
  httpMaxDecodeRatio := 32
  parseHeader header := if header = gzipHeader then
      some { request := true, method := some "POST", path := some "/", contentLength := some 6
             encoding := .gzip }
    else none
  inflate _ _ := none

/-- The body of the request in two chunks, of which the first has `n` bytes. -/
def gzipChunks (n : ℕ) : List StreamChunk :=
  [{ flowId := 0, tsNs := 1, direction := .aToB, offset := 0
     data := gzipHeader ++ (ascii "abcdef").take n },
    { flowId := 0, tsNs := 2, direction := .aToB, offset := gzipHeader.length + n
      data := (ascii "abcdef").drop n }]

/-- The decompressor gets the whole body or nothing exactly when the body is within the limit
or no piece of it is. -/
theorem wholeOrNothing_decodeCalls (cfg : HttpConfig) (cs : List StreamChunk)
    (hbound : ∀ c ∈ cs, c.offset + c.data.length ≤ u64Max) :
    ∀ call ∈ decodeCalls cfg cs, call.info.encoding ≠ .identity →
      ((call.compressed = [] ∨ call.compressed = call.body) ↔
        (call.body.length ≤ cfg.httpMaxDecodeBytes ∨
          ∀ piece ∈ call.pieces, cfg.httpMaxDecodeBytes < piece.length)) :=
  fun call hcall hencoding ↦ (collected_decodeCalls cfg cs hbound call hcall).whole_iff hencoding

theorem wholeOrNothing_gzipChunks : (decodeCalls smallConfig (gzipChunks 6)).length = 1 ∧
    ∀ call ∈ decodeCalls smallConfig (gzipChunks 6), call.info.encoding = .gzip ∧
      (call.compressed = [] ∨ call.compressed = call.body) := by
  have hcalls : ∀ call ∈ decodeCalls smallConfig (gzipChunks 6), call.info.encoding = .gzip ∧
      ∀ piece ∈ call.pieces, smallConfig.httpMaxDecodeBytes < piece.length := by decide +kernel
  refine ⟨by decide +kernel, fun call hcall ↦ ⟨(hcalls call hcall).1, ?_⟩⟩
  refine (wholeOrNothing_decodeCalls smallConfig (gzipChunks 6) (by decide +kernel) call hcall
    ?_).mpr (.inr (hcalls call hcall).2)
  rw [(hcalls call hcall).1]
  decide

/-- The first piece fits and the second does not: the decompressor gets a body that is cut. -/
theorem decodeCalls_cutBody : ¬∀ call ∈ decodeCalls smallConfig (gzipChunks 4),
    call.info.encoding ≠ .identity → call.compressed ≠ [] → call.compressed = call.body := by
  decide +kernel

end Trace

end Bazalt.Http
