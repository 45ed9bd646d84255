import Bazalt.Http.Segmentation
import Bazalt.Http.Resync

/-!
# Where a search goes on

The parser and its decoder remember how far they have looked for the end of a header block, of a
line or of the trailers.  A search from there finds what a search of the whole buffer finds, and
nothing is remembered once the front of the buffer has moved or the state has changed.
-/

namespace Bazalt.Http

open Lib

/-- What was looked at before makes no difference to a search. -/
theorem ScannedTo.findFrom_eq {word v : Bytes} {n : ℕ} (h : ScannedTo word v n)
    (hword : word ≠ []) : findFrom word v n = findFrom word v 0 := by
  have hwhole := scannedTo_zero word v
  cases hfind : findFrom word v 0 with
  | none =>
      have habsent := findFrom_eq_none hwhole hfind hword
      cases hlater : findFrom word v n with
      | none => rfl
      | some pos => exact absurd (findFrom_eq_some h hlater).1 (habsent pos)
  | some pos =>
      obtain ⟨hoccurs, hfirst⟩ := findFrom_eq_some hwhole hfind
      exact findFrom_of_first h hword hoccurs hfirst

/-! ## The decoder -/

section Decoder

variable {initialLen maxLine maxCollect : ℕ} {p : ChunkPass}

/-- A round of the decoder searches as if from the start, and forgets its position when the buffer
or the state changes. -/
structure ChunkPass.ScansFull (initialLen maxLine maxCollect : ℕ) (p : ChunkPass) : Prop where
  size : p.decoder.state = .size →
    findCrlfFrom p.buf p.decoder.scanFrom = findCrlfFrom p.buf 0
  trailers : p.decoder.state = .trailers →
    findDoubleCrlfFrom p.buf p.decoder.scanFrom = findDoubleCrlfFrom p.buf 0
  reset : (p.turn initialLen maxLine maxCollect).state.buf ≠ p.buf ∨
      (p.turn initialLen maxLine maxCollect).state.decoder.state ≠ p.decoder.state →
    (p.turn initialLen maxLine maxCollect).state.decoder.scanFrom = 0

/-- Every round of a call, whatever the call does. -/
def ChunkedDecoder.ScansFull (d : ChunkedDecoder) (buf : Bytes) : Prop :=
  ∀ (maxLine maxCollect : ℕ) (p : ChunkPass),
    Reaches (ChunkPass.turn buf.length maxLine maxCollect) { decoder := d, buf := buf } p →
      p.ScansFull buf.length maxLine maxCollect

/-- What a round of the decoder leaves: a position before which nothing was missed, and zero
unless nothing has changed. -/
structure ChunkPass.Rescans (p q : ChunkPass) : Prop where
  ok : q.decoder.Ok q.buf
  reset : q.buf ≠ p.buf ∨ q.decoder.state ≠ p.decoder.state → q.decoder.scanFrom = 0

namespace ChunkPass

theorem rescans_same {q : ChunkPass} (hok : q.decoder.Ok q.buf) (hbuf : q.buf = p.buf)
    (hstate : q.decoder.state = p.decoder.state) : p.Rescans q :=
  ⟨hok, fun h ↦ h.elim (fun h ↦ absurd hbuf h) fun h ↦ absurd hstate h⟩

theorem rescans_reset {q : ChunkPass} (hok : q.decoder.Ok q.buf) (hzero : q.decoder.scanFrom = 0) :
    p.Rescans q :=
  ⟨hok, fun _ ↦ hzero⟩

theorem rescans_turnSize (hok : p.decoder.Ok p.buf) (hstate : p.decoder.state = .size) :
    p.Rescans (p.turnSize maxLine).state := by
  have hscan : ScannedTo crlf p.buf p.decoder.scanFrom := by
    rwa [ChunkedDecoder.Ok, hstate] at hok
  unfold turnSize
  cases hfind : findCrlfFrom p.buf p.decoder.scanFrom with
  | none =>
      have habsent := findFrom_eq_none hscan hfind (by decide)
      dsimp only
      split_ifs
      · exact rescans_same hok rfl rfl
      · refine rescans_same ?_ rfl rfl
        simp only [Turn.state, ChunkedDecoder.Ok, hstate]
        exact scannedTo_of_absent habsent (by decide)
  | some pos =>
      dsimp only
      split
      · refine rescans_reset ?_ rfl
        simp only [Turn.state, fail, ChunkedDecoder.Ok, hstate]
        exact scannedTo_zero _ _
      · exact rescans_reset (scannedTo_zero _ _) rfl
      next n hn _ => exact rescans_reset ⟨Nat.pos_of_ne_zero hn, rfl⟩ rfl

theorem rescans_turnData {remaining : ℕ} (hok : p.decoder.Ok p.buf)
    (hstate : p.decoder.state = .data remaining) :
    p.Rescans (p.turnData initialLen maxCollect remaining).state := by
  have hzero : 0 < remaining ∧ p.decoder.scanFrom = 0 := by
    rwa [ChunkedDecoder.Ok, hstate] at hok
  unfold turnData
  by_cases hempty : p.buf = []
  · rw [if_pos hempty]
    exact rescans_same hok rfl rfl
  · rw [if_neg hempty]
    dsimp only
    by_cases hdone : remaining - min remaining p.buf.length = 0
    · rw [if_pos hdone]
      exact rescans_reset hzero.2 hzero.2
    · rw [if_neg hdone]
      exact rescans_reset ⟨Nat.pos_of_ne_zero hdone, hzero.2⟩ hzero.2

theorem rescans_turnDataCrlf (hok : p.decoder.Ok p.buf) (hstate : p.decoder.state = .dataCrlf) :
    p.Rescans p.turnDataCrlf.state := by
  have hzero : p.decoder.scanFrom = 0 := by
    rwa [ChunkedDecoder.Ok, hstate] at hok
  unfold turnDataCrlf
  split_ifs
  · exact rescans_same hok rfl rfl
  · exact rescans_same hok rfl rfl
  · refine rescans_reset ?_ hzero
    simp only [Turn.state, ChunkedDecoder.Ok]
    rw [hzero]
    exact scannedTo_zero _ _

theorem rescans_turnTrailers (hok : p.decoder.Ok p.buf) (hstate : p.decoder.state = .trailers) :
    p.Rescans (p.turnTrailers maxLine).state := by
  have hscan : ScannedTo doubleCrlf p.buf p.decoder.scanFrom := by
    rwa [ChunkedDecoder.Ok, hstate] at hok
  unfold turnTrailers
  dsimp only
  by_cases hcrlf : crlf <+: p.buf
  · rw [if_pos hcrlf]
    exact rescans_reset (scannedTo_zero _ _) rfl
  · rw [if_neg hcrlf]
    cases hfind : findDoubleCrlfFrom p.buf p.decoder.scanFrom with
    | none =>
        have habsent := findFrom_eq_none hscan hfind (by decide)
        dsimp only
        split_ifs
        · exact rescans_same hok rfl rfl
        · refine rescans_same ?_ rfl rfl
          simp only [Turn.state, ChunkedDecoder.Ok, hstate]
          exact scannedTo_of_absent habsent (by decide)
    | some pos => exact rescans_reset (scannedTo_zero _ _) rfl

/-- The step lemma. -/
theorem rescans_turn (initialLen maxLine maxCollect : ℕ) (hok : p.decoder.Ok p.buf) :
    p.Rescans (p.turn initialLen maxLine maxCollect).state := by
  unfold turn
  split
  next hstate => exact rescans_turnSize hok hstate
  next remaining hstate => exact rescans_turnData hok hstate
  next hstate => exact rescans_turnDataCrlf hok hstate
  next hstate => exact rescans_turnTrailers hok hstate

end ChunkPass

theorem ChunkedDecoder.Ok.scansFull_pass (hok : p.decoder.Ok p.buf) :
    p.ScansFull initialLen maxLine maxCollect := by
  have hold := hok
  unfold ChunkedDecoder.Ok at hold
  refine ⟨fun hstate ↦ ?_, fun hstate ↦ ?_, (ChunkPass.rescans_turn _ _ _ hok).reset⟩
  · rw [hstate] at hold
    exact ScannedTo.findFrom_eq hold (by decide)
  · rw [hstate] at hold
    exact ScannedTo.findFrom_eq hold (by decide)

theorem ChunkedDecoder.Ok.scansFull {d : ChunkedDecoder} {buf : Bytes} (hok : d.Ok buf) :
    d.ScansFull buf := by
  intro maxLine maxCollect p hreaches
  have hp : p.decoder.Ok p.buf := by
    refine hreaches.invariant (I := fun q : ChunkPass ↦ q.decoder.Ok q.buf) ?_ hok
    intro q q' hq hturn
    have hnext := (ChunkPass.rescans_turn buf.length maxLine maxCollect hq).ok
    rwa [hturn] at hnext
  exact hp.scansFull_pass

theorem ChunkedDecoder.Ok.consume {d : ChunkedDecoder} {buf : Bytes} (hok : d.Ok buf)
    (maxLine maxCollect : ℕ) : (d.consume buf maxLine maxCollect).decoder.Ok
      (d.consume buf maxLine maxCollect).buf := by
  obtain ⟨p, hleaves, hp⟩ := d.leaves_consume buf maxLine maxCollect
  rw [hp]
  exact hleaves.invariant (I := fun q : ChunkPass ↦ q.decoder.Ok q.buf)
    (fun q hq ↦ (ChunkPass.rescans_turn _ _ _ hq).ok) hok

/-- Bytes join the buffer, and the decoder is called, with limits of its own every time. -/
def consumeStep (s : ChunkedDecoder × Bytes) (call : Bytes × ℕ × ℕ) : ChunkedDecoder × Bytes :=
  let out := s.1.consume (s.2 ++ call.1) call.2.1 call.2.2
  (out.decoder, out.buf)

theorem ok_runFrom_consumeStep (calls : List (Bytes × ℕ × ℕ)) :
    (runFrom consumeStep ({}, []) calls).1.Ok (runFrom consumeStep ({}, []) calls).2 :=
  invariant_runFrom_of_step (I := fun s : ChunkedDecoder × Bytes ↦ s.1.Ok s.2)
    (fun _ call hs ↦ (hs.append call.1).consume call.2.1 call.2.2) calls (scannedTo_zero _ _)

end Decoder

/-! ## The parser -/

namespace HttpStreamParser

def decoder? (p : HttpStreamParser) : Option ChunkedDecoder :=
  match p.state with
  | .chunked _ decoder _ _ _ => some decoder
  | _ => none

/-- The remembered positions leave nothing out, and only a synchronised parser that looks for the
end of a header block has one of its own. -/
structure Scanned (p : HttpStreamParser) : Prop where
  header : ScannedTo doubleCrlf p.buffer p.headerScanFrom
  body : p.state ≠ .headers → p.headerScanFrom = 0
  lost : p.synced = false → p.headerScanFrom = 0
  chunk : ∀ decoder ∈ p.decoder?, decoder.Ok p.buffer

variable {p : HttpStreamParser}

/-- Without a position of its own, only the decoder matters. -/
theorem scanned_of_zero (hzero : p.headerScanFrom = 0)
    (hchunk : ∀ decoder ∈ p.decoder?, decoder.Ok p.buffer) : p.Scanned := by
  refine ⟨?_, fun _ ↦ hzero, fun _ ↦ hzero, hchunk⟩
  rw [hzero]
  exact scannedTo_zero _ _

theorem decoder?_of_headers (h : p.state = .headers) : p.decoder? = none := by
  rw [decoder?, h]

theorem scanned_of_headers (hstate : p.state = .headers) (hzero : p.headerScanFrom = 0) :
    p.Scanned := by
  apply scanned_of_zero hzero
  rw [decoder?_of_headers hstate]
  simp

theorem headerScanFrom_trimDesyncedSuffix :
    p.trimDesyncedSuffix.headerScanFrom = p.headerScanFrom := by
  unfold trimDesyncedSuffix
  dsimp only
  split_ifs <;> rfl

/-- A parser that had to look for a start has no position. -/
theorem headerScanFrom_ready (h : p.Scanned) : p.ready.1 = p ∨ p.ready.1.headerScanFrom = 0 := by
  unfold ready
  cases hsynced : p.synced with
  | true => exact .inl rfl
  | false =>
      right
      rw [if_neg Bool.false_ne_true]
      unfold resyncToHttpStart
      split
      · rfl
      · exact headerScanFrom_trimDesyncedSuffix.trans (h.lost hsynced)

theorem Scanned.ready (h : p.Scanned) (hstate : p.state = .headers) : p.ready.1.Scanned := by
  rcases headerScanFrom_ready h with hsame | hzero
  · rw [hsame]
    exact h
  · exact scanned_of_headers (state_ready.trans hstate) hzero

theorem Scanned.accept (h : p.Scanned)
    (hfresh : p.nextInputOffset = none → p.headerScanFrom = 0) (c : StreamChunk)
    (pending : List RequestKind) : (p.accept c pending).1.Scanned := by
  have hjoin : ∀ decoder ∈ p.decoder?, decoder.Ok (p.buffer ++ c.data) :=
    fun decoder hd ↦ (h.chunk decoder hd).append c.data
  unfold HttpStreamParser.accept
  dsimp only
  split
  next expected hnext =>
    split_ifs
    · exact scanned_of_headers rfl rfl
    · exact ⟨h.header.append c.data, h.body, h.lost, hjoin⟩
  next hnext => exact scanned_of_zero (hfresh hnext) hjoin

end HttpStreamParser

namespace Feed

section

variable {cfg : HttpConfig} {c : StreamChunk} {f : Feed}

/-- A round searches as if from the start of the buffer, and so do the rounds of the decoder; the
position is forgotten when the front of the buffer moves or the state changes. -/
structure ScansFull (cfg : HttpConfig) (c : StreamChunk) (f : Feed) : Prop where
  header : f.parser.state = .headers → f.parser.ready.2 = true →
    findDoubleCrlfFrom f.parser.ready.1.buffer f.parser.ready.1.headerScanFrom =
      findDoubleCrlfFrom f.parser.ready.1.buffer 0
  chunk : ∀ decoder ∈ f.parser.decoder?, decoder.ScansFull f.parser.buffer
  resync : f.parser.ready.1.buffer ≠ f.parser.buffer → f.parser.ready.1.headerScanFrom = 0
  reset : (turn cfg c f).state.parser.buffer ≠ f.parser.ready.1.buffer ∨
      (turn cfg c f).state.parser.state ≠ f.parser.state →
    (turn cfg c f).state.parser.headerScanFrom = 0

/-- What a round leaves. -/
structure Rescans (f f' : Feed) : Prop where
  scanned : f'.parser.Scanned
  reset : f'.parser.buffer ≠ f.parser.ready.1.buffer ∨ f'.parser.state ≠ f.parser.state →
    f'.parser.headerScanFrom = 0

theorem rescans_of_zero {f' : Feed} (hzero : f'.parser.headerScanFrom = 0)
    (hchunk : ∀ decoder ∈ f'.parser.decoder?, decoder.Ok f'.parser.buffer) : f.Rescans f' :=
  ⟨HttpStreamParser.scanned_of_zero hzero hchunk, fun _ ↦ hzero⟩

theorem rescans_of_headers {f' : Feed} (hstate : f'.parser.state = .headers)
    (hzero : f'.parser.headerScanFrom = 0) : f.Rescans f' :=
  ⟨HttpStreamParser.scanned_of_headers hstate hzero, fun _ ↦ hzero⟩

/-- A body that begins has a decoder that begins. -/
theorem ok_framing {parsed : ParsedHeader} {kind : Option RequestKind} {info : MessageInfo}
    {state : BodyState} (h : framing cfg parsed kind info = some state) {p : HttpStreamParser}
    (hstate : p.state = state) (hscan : p.headerScanFrom = 0) :
    ∀ decoder ∈ p.decoder?, decoder.Ok p.buffer := by
  have hready := ready_framing h hstate hscan
  intro decoder hdecoder
  unfold HttpStreamParser.decoder? at hdecoder
  unfold HttpStreamParser.Ready at hready
  split at hdecoder
  next hchunked =>
    rw [hchunked] at hready
    rw [Option.mem_some_iff] at hdecoder
    exact hdecoder ▸ hready.1
  next => cases hdecoder

theorem rescans_onHeader {offset : ℕ} {header : Bytes} {parsed : ParsedHeader} {g : Feed}
    (hzero : g.parser.headerScanFrom = 0) :
    f.Rescans (onHeader cfg c offset header parsed g).state := by
  unfold onHeader
  dsimp only
  split_ifs
  · exact rescans_of_headers rfl hzero
  · split
    next state hframing => exact rescans_of_zero hzero (ok_framing hframing rfl hzero)
    next => exact rescans_of_headers rfl hzero

theorem rescans_turnHeaders (h : f.parser.Scanned) (hstate : f.parser.state = .headers) :
    f.Rescans (turnHeaders cfg c f).state := by
  have hready := h.ready hstate
  have hheaders : f.parser.ready.1.state = .headers := HttpStreamParser.state_ready.trans hstate
  unfold turnHeaders
  dsimp only
  by_cases hfound : f.parser.ready.2 = false
  · rw [if_pos hfound]
    refine ⟨hready, fun hchange ↦ ?_⟩
    rcases hchange with hbuffer | hnot
    · exact absurd rfl hbuffer
    · exact absurd (hheaders.trans hstate.symm) hnot
  · rw [if_neg hfound]
    cases hfind : findDoubleCrlfFrom f.parser.ready.1.buffer f.parser.ready.1.headerScanFrom with
    | none =>
        have habsent := findFrom_eq_none hready.header hfind (by decide)
        dsimp only
        split_ifs
        · apply rescans_of_headers
          · exact HttpStreamParser.state_trimDesyncedSuffix.trans hheaders
          · exact HttpStreamParser.headerScanFrom_trimDesyncedSuffix
        · refine ⟨⟨scannedTo_of_absent habsent (by decide), fun hnot ↦ absurd hheaders hnot,
            fun hlost ↦ ?_, ?_⟩, fun hchange ↦ ?_⟩
          · have hsynced := HttpStreamParser.synced_ready (Bool.eq_true_of_not_eq_false hfound)
            exact absurd (hsynced.symm.trans hlost) (by decide)
          · exact hready.chunk
          · rcases hchange with hbuffer | hnot
            · exact absurd rfl hbuffer
            · exact absurd (hheaders.trans hstate.symm) hnot
    | some finish =>
        dsimp only
        split
        · exact rescans_of_headers hheaders rfl
        · exact rescans_onHeader rfl

theorem rescans_turnChunked (h : f.parser.Scanned) {info : MessageInfo} {decoder : ChunkedDecoder}
    {compressed : Bytes} {bodySeen : ℕ} {captureBody : Bool}
    (hstate : f.parser.state = .chunked info decoder compressed bodySeen captureBody) :
    f.Rescans (turnChunked cfg f info decoder compressed bodySeen captureBody).state := by
  have hzero := h.body (by simp [hstate])
  have hok : decoder.Ok f.parser.buffer := by
    apply h.chunk
    rw [HttpStreamParser.decoder?, hstate]
    rfl
  have hconsume := hok.consume cfg.httpMaxHeaderBytes (collectRemaining cfg bodySeen captureBody)
  unfold turnChunked
  by_cases hempty : f.parser.buffer = []
  · rw [if_pos hempty]
    exact rescans_of_zero hzero h.chunk
  · rw [if_neg hempty]
    dsimp only
    split
    next result hresult =>
      by_cases hdone : result.done = true
      · rw [if_pos hdone]
        exact rescans_of_headers rfl hzero
      · rw [if_neg hdone]
        split_ifs
        all_goals
          refine rescans_of_zero hzero fun d hd ↦ ?_
          obtain rfl := Option.mem_some_iff.mp hd
          exact hconsume
    next => exact rescans_of_headers rfl hzero

/-- The step lemma. -/
theorem rescans_turn (cfg : HttpConfig) (c : StreamChunk) (h : f.parser.Scanned) :
    f.Rescans (turn cfg c f).state := by
  unfold turn
  split
  next hstate => exact rescans_turnHeaders h hstate
  next remaining info compressed hstate =>
    have hzero := h.body (by simp [hstate])
    unfold turnFixed
    dsimp only
    split_ifs
    · exact rescans_of_zero hzero h.chunk
    · exact rescans_of_headers rfl hzero
    · exact rescans_of_zero hzero (by simp [HttpStreamParser.decoder?, Turn.state])
  next remaining captureRemaining info hstate =>
    have hzero := h.body (by simp [hstate])
    unfold turnSkipFixed
    dsimp only
    split_ifs
    · exact rescans_of_zero hzero h.chunk
    · exact rescans_of_headers rfl hzero
    · exact rescans_of_headers rfl hzero
    · exact rescans_of_zero hzero (by simp [HttpStreamParser.decoder?, Turn.state])
    · exact rescans_of_zero hzero (by simp [HttpStreamParser.decoder?, Turn.state])
  next info decoder compressed bodySeen captureBody hstate => exact rescans_turnChunked h hstate
  next info compressed bodySeen captureBody hstate =>
    have hzero := h.body (by simp [hstate])
    unfold turnUntilClose
    dsimp only
    split_ifs
    · exact rescans_of_zero hzero h.chunk
    all_goals exact rescans_of_zero hzero (by simp [HttpStreamParser.decoder?, Turn.state])

theorem scansFull_of_scanned (cfg : HttpConfig) (c : StreamChunk) (h : f.parser.Scanned) :
    f.ScansFull cfg c := by
  refine ⟨fun hstate _ ↦ ?_, fun decoder hd ↦ (h.chunk decoder hd).scansFull, fun hmoved ↦ ?_,
    (rescans_turn cfg c h).reset⟩
  · exact (h.ready hstate).header.findFrom_eq (by decide)
  · rcases HttpStreamParser.headerScanFrom_ready h with hsame | hzero
    · exact absurd (congrArg HttpStreamParser.buffer hsame) hmoved
    · exact hzero

end

end Feed

/-! ## Runs -/

/-- A chunk comes in, with what the parser shares with the other direction. -/
structure ParserCall where
  chunk : StreamChunk
  pending : List RequestKind
  requestDirection : Option Direction

namespace HttpStreamParser

def step (cfg : HttpConfig) (p : HttpStreamParser) (call : ParserCall) : HttpStreamParser :=
  (p.feed cfg call.chunk call.pending call.requestDirection).parser

/-- Between two calls. -/
def Kept (p : HttpStreamParser) : Prop :=
  p.Scanned ∧ (p.nextInputOffset = none → p.headerScanFrom = 0)

theorem kept_new : Kept {} := ⟨scanned_of_headers rfl rfl, fun _ ↦ rfl⟩

theorem Kept.begin {p : HttpStreamParser} (h : p.Kept) (call : ParserCall) :
    (p.begin call.chunk call.pending call.requestDirection).parser.Scanned :=
  h.1.accept h.2 call.chunk call.pending

theorem Kept.step {p : HttpStreamParser} (cfg : HttpConfig) (h : p.Kept) (call : ParserCall) :
    (p.step cfg call).Kept := by
  have hleaves : Leaves (Feed.turn cfg call.chunk)
      (p.begin call.chunk call.pending call.requestDirection)
      (p.feed cfg call.chunk call.pending call.requestDirection) :=
    leaves_loop (fun _ _ ↦ Feed.measure_turn) (Nat.lt_succ_self _)
  obtain ⟨hscanned, hnext⟩ := hleaves.invariant
    (I := fun f ↦ f.parser.Scanned ∧ f.parser.nextInputOffset ≠ none)
    (fun f hf ↦ ⟨(Feed.rescans_turn cfg call.chunk hf.1).scanned,
      (next_turn cfg call.chunk f).trans_ne hf.2⟩)
    ⟨h.begin call, next_accept p call.chunk call.pending⟩
  exact ⟨hscanned, fun hnone ↦ absurd hnone hnext⟩

end HttpStreamParser

/-- In every run of a parser, and of a decoder on its own, every search from a remembered position
is a search of the whole buffer. -/
theorem searches_scan_full (cfg : HttpConfig) (calls : List ParserCall)
    (pieces : List (Bytes × ℕ × ℕ)) (piece : Bytes) :
    (∀ (call : ParserCall) (f : Feed), Reaches (Feed.turn cfg call.chunk)
        ((runFrom (HttpStreamParser.step cfg) {} calls).begin call.chunk call.pending
          call.requestDirection) f → f.ScansFull cfg call.chunk) ∧
      (∀ decoder ∈ (runFrom (HttpStreamParser.step cfg) {} calls).decoder?,
        decoder.ScansFull (runFrom (HttpStreamParser.step cfg) {} calls).buffer) ∧
      (runFrom consumeStep ({}, []) pieces).1.ScansFull
        ((runFrom consumeStep ({}, []) pieces).2 ++ piece) := by
  have hkept : (runFrom (HttpStreamParser.step cfg) {} calls).Kept :=
    invariant_runFrom_of_step (fun _ call h ↦ h.step cfg call) calls HttpStreamParser.kept_new
  refine ⟨fun call f hreaches ↦ ?_, fun decoder hd ↦ (hkept.1.chunk decoder hd).scansFull,
    ((ok_runFrom_consumeStep pieces).append piece).scansFull⟩
  apply Feed.scansFull_of_scanned
  refine hreaches.invariant (I := fun g : Feed ↦ g.parser.Scanned) ?_ (hkept.begin call)
  intro g g' hg hturn
  have hnext := (Feed.rescans_turn cfg call.chunk hg).scanned
  rwa [hturn] at hnext

end Bazalt.Http
