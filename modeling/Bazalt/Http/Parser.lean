import Bazalt.Http.Chunked

/-!
# The HTTP parser of a connection

Each direction of a connection has a parser that finds header blocks, frames bodies and
emits both as records at their offsets in the stream.  The parsers share the requests that
wait for a response.  A gap in the stream or a framing error desynchronises a parser until a
plausible start of a message appears.
-/

namespace Bazalt.Http

open Lib

def httpPendingRequestLimit : ℕ := 4096

def httpResyncSuffix : ℕ := 48

inductive HttpMode where
  | http
  | tunnel
  deriving DecidableEq, Repr

/-- The limits, with the header parser and the decompressors, which are libraries. -/
structure HttpConfig where
  httpMaxHeaderBytes : ℕ
  httpMaxBodyBytes : ℕ
  httpMaxDecodeBytes : ℕ
  httpMaxDecodeRatio : ℕ
  parseHeader : Bytes → Option ParsedHeader
  inflate : Encoding → Bytes → Option Bytes

structure StreamChunk where
  flowId : Uuid
  tsNs : ℕ
  direction : Direction
  offset : ℕ
  data : Bytes
  deriving DecidableEq, Repr

/-- A content record before the service is known.  Its fresh identifier is left out. -/
structure HttpContent where
  flowId : Uuid
  tsNs : ℕ
  direction : Direction
  view : ContentView
  streamOffset : ℕ
  data : Bytes
  deriving DecidableEq, Repr

structure HttpRecord where
  flowId : Uuid
  timestamp : ℕ
  request : Bool
  method : Option String
  host : Option String
  path : Option String
  status : Option ℕ
  userAgent : Option String
  contentType : Option String
  deriving DecidableEq, Repr

structure HttpEmission where
  content : List HttpContent
  info : Option HttpRecord
  requestDirection : Option Direction
  deriving DecidableEq, Repr

structure MessageInfo where
  flowId : Uuid
  tsNs : ℕ
  direction : Direction
  requestDirection : Direction
  encoding : Encoding
  bodyView : ContentView
  decodedView : ContentView
  deriving DecidableEq, Repr

inductive BodyState where
  | headers
  | fixed (remaining : ℕ) (info : MessageInfo) (compressed : Bytes)
  | skipFixed (remaining captureRemaining : ℕ) (info : MessageInfo)
  | chunked (info : MessageInfo) (decoder : ChunkedDecoder) (compressed : Bytes) (bodySeen : ℕ)
      (captureBody : Bool)
  | untilClose (info : MessageInfo) (compressed : Bytes) (bodySeen : ℕ) (captureBody : Bool)
  deriving DecidableEq, Repr

structure HttpStreamParser where
  buffer : Bytes := []
  state : BodyState := .headers
  streamOffset : ℕ := 0
  nextInputOffset : Option ℕ := none
  synced : Bool := true
  headerScanFrom : ℕ := 0
  deriving DecidableEq, Repr

structure HttpFeedReport where
  events : List HttpEmission := []
  parseErrors : ℕ := 0
  deriving DecidableEq, Repr

namespace HttpStreamParser

variable (p : HttpStreamParser)

/-- The first `n` bytes of the buffer leave it. -/
def advance (n : ℕ) : HttpStreamParser :=
  { p with buffer := p.buffer.drop n, streamOffset := satAdd p.streamOffset n }

def trimDesyncedSuffix : HttpStreamParser :=
  let drop := p.buffer.length - httpResyncSuffix
  if drop = 0 then p else p.advance drop

/-- A start of a message in the buffer, if there is one. -/
def resyncToHttpStart : HttpStreamParser × Bool :=
  match findPlausibleHttpStart p.buffer with
  | some pos =>
      ({ (if pos = 0 then p else p.advance pos) with synced := true, headerScanFrom := 0 }, true)
  | none => (p.trimDesyncedSuffix, false)

/-- A parser that is synchronised, or was just now. -/
def ready : HttpStreamParser × Bool := if p.synced then (p, true) else p.resyncToHttpStart

/-- The parser `p'` is `p` after `k` bytes of its buffer. -/
structure Passes (p p' : HttpStreamParser) (k : ℕ) : Prop where
  le : k ≤ p.buffer.length
  buffer : p'.buffer = p.buffer.drop k
  offset : p.streamOffset + k ≤ u64Max → p'.streamOffset = p.streamOffset + k
  next : p'.nextInputOffset = p.nextInputOffset

variable {p}

theorem Passes.refl : Passes p p 0 := ⟨Nat.zero_le _, rfl, fun _ ↦ rfl, rfl⟩

theorem Passes.trans {p' p'' : HttpStreamParser} {k l : ℕ} (h : Passes p p' k)
    (h' : Passes p' p'' l) : Passes p p'' (k + l) := by
  have hle := h'.le
  rw [h.buffer, List.length_drop] at hle
  refine ⟨by have := h.le; omega, by rw [h'.buffer, h.buffer, List.drop_drop], fun hbound ↦ ?_,
    h'.next.trans h.next⟩
  have hoffset := h.offset (by omega)
  rw [h'.offset (by omega), hoffset, Nat.add_assoc]

theorem Passes.length_le {p' : HttpStreamParser} {k : ℕ} (h : Passes p p' k) :
    p'.buffer.length = p.buffer.length - k := by
  rw [h.buffer, List.length_drop]

theorem passes_advance {n : ℕ} (hn : n ≤ p.buffer.length) : Passes p (p.advance n) n :=
  ⟨hn, rfl, fun h ↦ satAdd_of_le h, rfl⟩

theorem passes_trimDesyncedSuffix : ∃ k, Passes p p.trimDesyncedSuffix k := by
  unfold trimDesyncedSuffix
  dsimp only
  split_ifs
  · exact ⟨0, .refl⟩
  · exact ⟨_, passes_advance (Nat.sub_le _ _)⟩

theorem passes_ready : ∃ k, Passes p p.ready.1 k := by
  unfold ready
  split_ifs
  · exact ⟨0, .refl⟩
  · unfold resyncToHttpStart
    split
    next pos hpos =>
      split_ifs
      · exact ⟨0, Nat.zero_le _, rfl, fun _ ↦ rfl, rfl⟩
      · have hpasses := passes_advance (findPlausibleHttpStart_le hpos)
        exact ⟨pos, hpasses.le, hpasses.buffer, hpasses.offset, hpasses.next⟩
    next => exact passes_trimDesyncedSuffix

theorem state_trimDesyncedSuffix : p.trimDesyncedSuffix.state = p.state := by
  unfold trimDesyncedSuffix
  dsimp only
  split_ifs <;> rfl

theorem state_ready : p.ready.1.state = p.state := by
  unfold ready
  split_ifs
  · rfl
  · unfold resyncToHttpStart
    split
    · split_ifs <;> rfl
    · exact state_trimDesyncedSuffix

/-- A parser that goes on is synchronised. -/
theorem synced_ready (h : p.ready.2 = true) : p.ready.1.synced = true := by
  unfold ready at h ⊢
  split_ifs at h ⊢ with hsynced
  · exact hsynced
  · unfold resyncToHttpStart at h ⊢
    split at h
    · rfl
    · cases h

end HttpStreamParser

def bodyRecord (info : MessageInfo) (offset : ℕ) (data : Bytes) : HttpContent where
  flowId := info.flowId
  tsNs := info.tsNs
  direction := info.direction
  view := info.bodyView
  streamOffset := offset
  data := data

/-- What the decompressor gives, unless it is more than `limit` bytes. -/
def readBounded (decoded : Option Bytes) (limit : ℕ) : Option Bytes :=
  decoded.filter fun out ↦ decide (out.length ≤ limit)

def decodedRecord (cfg : HttpConfig) (info : MessageInfo) (offset : ℕ) (compressed : Bytes) :
    Option HttpContent :=
  if info.encoding = .identity ∨ compressed = [] then none
  else
    let ratioLimit := min (compressed.length * cfg.httpMaxDecodeRatio) u64Max
    let limit := min cfg.httpMaxDecodeBytes ratioLimit
    if limit = 0 then none
    else (readBounded (cfg.inflate info.encoding compressed) limit).map fun decoded ↦
      { flowId := info.flowId
        tsNs := info.tsNs
        direction := info.direction
        view := info.decodedView
        streamOffset := offset
        data := decoded }

/-- The event of one record that belongs to a message. -/
def contentEvent (info : MessageInfo) (record : HttpContent) : HttpEmission where
  content := [record]
  info := none
  requestDirection := some info.requestDirection

/-- The decompressor's input grows while it stays within the limit. -/
def collectCompressed (cfg : HttpConfig) (info : MessageInfo) (compressed data : Bytes) : Bytes :=
  if info.encoding ≠ .identity ∧
      satAdd compressed.length data.length ≤ cfg.httpMaxDecodeBytes then
    compressed ++ data
  else compressed

/-- A parser inside of `feed`, with what it shares with the other one. -/
structure Feed where
  parser : HttpStreamParser
  pendingRequests : List RequestKind
  requestDirection : Option Direction
  mode : HttpMode := .http
  report : HttpFeedReport := {}
  deriving DecidableEq, Repr

namespace Feed

section

variable (f : Feed)

def emit (events : List HttpEmission) : Feed :=
  { f with report.events := f.report.events ++ events }

def countError : Feed := { f with report.parseErrors := satAdd f.report.parseErrors 1 }

/-- Framing is lost: the parser looks for a start and the pairing is forgotten. -/
def desync : Feed :=
  { f.countError with parser := { f.parser with synced := false }, pendingRequests := [] }

end

section Headers

variable (cfg : HttpConfig) (c : StreamChunk)

def messageInfo (parsed : ParsedHeader) (requestDirection : Direction) : MessageInfo where
  flowId := c.flowId
  tsNs := c.tsNs
  direction := c.direction
  requestDirection := requestDirection
  encoding := parsed.encoding
  bodyView := if parsed.request then .httpRequestBody else .httpResponseBody
  decodedView := if parsed.request then .httpRequestDecodedBody else .httpResponseDecodedBody

def headerRecord (parsed : ParsedHeader) (offset : ℕ) (header : Bytes) : HttpContent where
  flowId := c.flowId
  tsNs := c.tsNs
  direction := c.direction
  view := if parsed.request then .httpRequestHeaders else .httpResponseHeaders
  streamOffset := offset
  data := header

def httpRecord (parsed : ParsedHeader) : HttpRecord where
  flowId := c.flowId
  timestamp := c.tsNs
  request := parsed.request
  method := parsed.method
  host := parsed.host
  path := parsed.path
  status := parsed.status
  userAgent := parsed.userAgent
  contentType := parsed.contentType

/-- `matches!(status, Some(lo..=hi))`. -/
def statusIn (parsed : ParsedHeader) (lo hi : ℕ) : Bool :=
  parsed.status.any fun s ↦ decide (lo ≤ s ∧ s ≤ hi)

/-- An interim response, which does not answer its request yet. -/
def informational (parsed : ParsedHeader) : Bool :=
  !parsed.request && statusIn parsed 100 199 && decide (parsed.status ≠ some 101)

/-- The requests that wait after a header, and whether one of them was pushed out. -/
def pair (parsed : ParsedHeader) (pending : List RequestKind) : List RequestKind × Bool :=
  if parsed.request then
    if httpPendingRequestLimit ≤ pending.length then
      (pending.drop 1 ++ [.fromMethod parsed.method], true)
    else (pending ++ [.fromMethod parsed.method], false)
  else if informational parsed then (pending, false)
  else (pending.drop 1, false)

/-- The request that a response answers, by the queue before the response is taken off. -/
def responseKind (parsed : ParsedHeader) (pending : List RequestKind) : Option RequestKind :=
  if parsed.request then none else pending.head?

def entersTunnel (parsed : ParsedHeader) (kind : Option RequestKind) : Bool :=
  !parsed.request && (decide (kind = some .connect) && statusIn parsed 200 299 ||
    decide (parsed.status = some 101))

def hasNoBody (parsed : ParsedHeader) (kind : Option RequestKind) : Bool :=
  !parsed.request && (statusIn parsed 100 199 || statusIn parsed 204 204 ||
    statusIn parsed 205 205 || statusIn parsed 304 304 || decide (kind = some .head))

/-- How the body is framed: `none` is a request without an end of its own. -/
def framing (parsed : ParsedHeader) (kind : Option RequestKind) (info : MessageInfo) :
    Option BodyState :=
  if hasNoBody parsed kind ∨
      parsed.request = true ∧ parsed.hasTransferEncoding = false ∧ parsed.contentLength = none then
    some .headers
  else if parsed.hasTransferEncoding then
    if parsed.transferFinalChunked then some (.chunked info {} [] 0 true)
    else if parsed.request then none
    else some (.untilClose info [] 0 true)
  else match parsed.contentLength with
    | some len =>
        if len = 0 then some .headers
        else if cfg.httpMaxBodyBytes < len then some (.skipFixed len cfg.httpMaxBodyBytes info)
        else some (.fixed len info [])
    | none => some (.untilClose info [] 0 true)

/-- The direction of the request that a message belongs to. -/
def messageDirection (parsed : ParsedHeader) (f : Feed) : Direction :=
  if parsed.request then c.direction else f.requestDirection.getD c.direction.opposite

/-- A header block is reported, and its message paired. -/
def noteHeader (offset : ℕ) (header : Bytes) (parsed : ParsedHeader) (f : Feed) : Feed :=
  let (pending, overflow) := pair parsed f.pendingRequests
  { f with
    pendingRequests := pending
    requestDirection := if parsed.request then some c.direction else f.requestDirection
    report := {
      events := f.report.events ++ [{
        content := [headerRecord c parsed offset header]
        info := some (httpRecord c parsed)
        requestDirection := some (messageDirection c parsed f) }]
      parseErrors :=
        let errors := f.report.parseErrors
        let errors := if parsed.ambiguousFraming then satAdd errors 1 else errors
        if overflow then satAdd errors 1 else errors } }

/-- A header block that was parsed; the parser is already behind it. -/
def onHeader (offset : ℕ) (header : Bytes) (parsed : ParsedHeader) (f : Feed) : Turn Feed :=
  let kind := responseKind parsed f.pendingRequests
  let info := messageInfo c parsed (messageDirection c parsed f)
  let f := noteHeader c offset header parsed f
  if entersTunnel parsed kind then
    .stop { f with mode := .tunnel, parser.buffer := [], parser.state := .headers }
  else match framing cfg parsed kind info with
    | some state => .again { f with parser.state := state }
    | none => .again { f.desync with parser.state := .headers }

def turnHeaders (f : Feed) : Turn Feed :=
  let p := f.parser.ready.1
  let f' := { f with parser := p }
  if f.parser.ready.2 = false then .stop f'
  else match findDoubleCrlfFrom p.buffer p.headerScanFrom with
    | none =>
        if cfg.httpMaxHeaderBytes < p.buffer.length then
          .stop { f'.desync with
            parser := ({ f'.desync.parser with headerScanFrom := 0 }).trimDesyncedSuffix }
        else .stop { f' with parser.headerScanFrom := p.buffer.length - 3 }
    | some finish =>
        let header := p.buffer.take (finish + 4)
        let f' := { f with parser := { p.advance (finish + 4) with headerScanFrom := 0 } }
        match cfg.parseHeader header with
        | none => .again f'.desync
        | some parsed => onHeader cfg c p.streamOffset header parsed f'

end Headers

section Bodies

variable (cfg : HttpConfig) (f : Feed)

def turnFixed (remaining : ℕ) (info : MessageInfo) (compressed : Bytes) : Turn Feed :=
  if f.parser.buffer = [] then .stop f
  else
    let take := min remaining f.parser.buffer.length
    let data := f.parser.buffer.take take
    let compressed := collectCompressed cfg info compressed data
    let event := contentEvent info (bodyRecord info f.parser.streamOffset data)
    let f := { f with parser := f.parser.advance take }.emit [event]
    if remaining - take = 0 then
      let decoded := decodedRecord cfg info f.parser.streamOffset compressed
      .again { f.emit (decoded.toList.map (contentEvent info)) with parser.state := .headers }
    else .stop { f with parser.state := .fixed (remaining - take) info compressed }

def turnSkipFixed (remaining captureRemaining : ℕ) (info : MessageInfo) : Turn Feed :=
  if f.parser.buffer = [] then .stop f
  else
    let take := min remaining f.parser.buffer.length
    let collect := min take captureRemaining
    let captured := f.parser.buffer.take collect
    let events := if collect = 0 then []
      else [contentEvent info (bodyRecord info f.parser.streamOffset captured)]
    let f := { f with parser := f.parser.advance take }.emit events
    if remaining - take = 0 then .again { f with parser.state := .headers }
    else .stop { f with
      parser.state := .skipFixed (remaining - take) (captureRemaining - collect) info }

/-- The records of the data that the decoder gives back, at their offsets. -/
def chunkEvents (info : MessageInfo) (base : ℕ) (chunks : List ChunkData) : List HttpEmission :=
  chunks.map fun d ↦
    contentEvent info (bodyRecord info (satAdd base d.relativeOffset) d.data)

def collectRemaining (bodySeen : ℕ) (captureBody : Bool) : ℕ :=
  if captureBody then cfg.httpMaxBodyBytes - bodySeen else 0

def turnChunked (info : MessageInfo) (decoder : ChunkedDecoder) (compressed : Bytes)
    (bodySeen : ℕ) (captureBody : Bool) : Turn Feed :=
  if f.parser.buffer = [] then .stop f
  else
    let before := f.parser.buffer.length
    let out := decoder.consume f.parser.buffer cfg.httpMaxHeaderBytes
      (collectRemaining cfg bodySeen captureBody)
    match out.result with
    | some result =>
        let compressed := result.dataChunks.foldl
          (fun compressed d ↦ collectCompressed cfg info compressed d.data) compressed
        let events := chunkEvents info f.parser.streamOffset result.dataChunks
        let bodySeen := satAdd bodySeen result.bodyBytes
        let captureBody := captureBody && decide (bodySeen ≤ cfg.httpMaxBodyBytes)
        let f := { f with
          parser.buffer := out.buf
          parser.streamOffset := satAdd f.parser.streamOffset result.wireConsumed }.emit events
        if result.done then
          let decoded := if captureBody then
              decodedRecord cfg info f.parser.streamOffset compressed
            else none
          .again { f.emit (decoded.toList.map (contentEvent info)) with parser.state := .headers }
        else
          let f := { f with
            parser.state := .chunked info out.decoder compressed bodySeen captureBody }
          if out.buf.length ≠ before then .again f else .stop f
    | none =>
        .again { f with parser := { f.parser with
          buffer := out.buf
          streamOffset := satAdd f.parser.streamOffset (before - out.buf.length)
          state := .headers } }.desync

def turnUntilClose (info : MessageInfo) (compressed : Bytes) (bodySeen : ℕ)
    (captureBody : Bool) : Turn Feed :=
  if f.parser.buffer = [] then .stop f
  else
    let data := f.parser.buffer
    let collect := min data.length (collectRemaining cfg bodySeen captureBody)
    let captured := data.take collect
    let events := if collect = 0 then []
      else [contentEvent info (bodyRecord info f.parser.streamOffset captured)]
    let compressed := if collect = 0 then compressed
      else collectCompressed cfg info compressed captured
    let bodySeen := satAdd bodySeen data.length
    let captureBody := captureBody && decide (bodySeen ≤ cfg.httpMaxBodyBytes)
    .stop { { f with parser := f.parser.advance data.length }.emit events with
      parser.state := .untilClose info compressed bodySeen captureBody }

end Bodies

def turn (cfg : HttpConfig) (c : StreamChunk) (f : Feed) : Turn Feed :=
  match f.parser.state with
  | .headers => turnHeaders cfg c f
  | .fixed remaining info compressed => turnFixed cfg f remaining info compressed
  | .skipFixed remaining captureRemaining info => turnSkipFixed f remaining captureRemaining info
  | .chunked info decoder compressed bodySeen captureBody =>
      turnChunked cfg f info decoder compressed bodySeen captureBody
  | .untilClose info compressed bodySeen captureBody =>
      turnUntilClose cfg f info compressed bodySeen captureBody

/-- Every round that is not the last one takes bytes, or gives up a body. -/
def measure (f : Feed) : ℕ :=
  2 * f.parser.buffer.length + if f.parser.state = .headers then 0 else 1

theorem measure_lt_of_headers {f f' : Feed} (hlen : f'.parser.buffer.length ≤ f.parser.buffer.length)
    (hstate : f.parser.state ≠ .headers) (hstate' : f'.parser.state = .headers) :
    f'.measure < f.measure := by
  simp only [measure, if_neg hstate, if_pos hstate']
  omega

theorem measure_lt_of_length {f f' : Feed}
    (hlen : f'.parser.buffer.length < f.parser.buffer.length) : f'.measure < f.measure := by
  simp only [measure]
  split_ifs <;> omega

section Results

variable {cfg : HttpConfig} {c : StreamChunk} {f f' : Feed}

@[simp] theorem parser_noteHeader (offset : ℕ) (header : Bytes) (parsed : ParsedHeader) :
    (noteHeader c offset header parsed f).parser = f.parser := rfl

@[simp] theorem mode_noteHeader (offset : ℕ) (header : Bytes) (parsed : ParsedHeader) :
    (noteHeader c offset header parsed f).mode = f.mode := rfl

theorem buffer_onHeader {offset : ℕ} {header : Bytes} {parsed : ParsedHeader}
    (h : onHeader cfg c offset header parsed f = .again f') :
    f'.parser.buffer = f.parser.buffer := by
  unfold onHeader at h
  dsimp only at h
  split at h
  · cases h
  · split at h <;> exact Turn.again.inj h ▸ rfl

theorem measure_turnHeaders (h : turnHeaders cfg c f = .again f') : f'.measure < f.measure := by
  apply measure_lt_of_length
  obtain ⟨k, hready⟩ : ∃ k, HttpStreamParser.Passes f.parser f.parser.ready.1 k :=
    HttpStreamParser.passes_ready
  have hlen := hready.length_le
  unfold turnHeaders at h
  dsimp only at h
  split at h
  · cases h
  · split at h
    · split at h <;> cases h
    next finish hfinish =>
      have hle := findDoubleCrlfFrom_le hfinish
      have hrest : (f.parser.ready.1.advance (finish + 4)).buffer.length <
          f.parser.buffer.length := by
        simp only [HttpStreamParser.advance, List.length_drop]
        omega
      split at h
      · obtain rfl := Turn.again.inj h
        exact hrest
      · rw [buffer_onHeader h]
        exact hrest

theorem measure_turn (h : turn cfg c f = .again f') : f'.measure < f.measure := by
  unfold turn at h
  split at h
  · exact measure_turnHeaders h
  next hstate =>
    have hne : f.parser.state ≠ .headers := by simp [hstate]
    unfold turnFixed at h
    dsimp only at h
    split_ifs at h
    obtain rfl := Turn.again.inj h
    exact measure_lt_of_headers (by simp [emit, HttpStreamParser.advance]) hne rfl
  next hstate =>
    have hne : f.parser.state ≠ .headers := by simp [hstate]
    unfold turnSkipFixed at h
    dsimp only at h
    split_ifs at h
    all_goals
      obtain rfl := Turn.again.inj h
      exact measure_lt_of_headers (by simp [emit, HttpStreamParser.advance]) hne rfl
  next info decoder compressed bodySeen captureBody hstate =>
    have hne : f.parser.state ≠ .headers := by simp [hstate]
    unfold turnChunked at h
    dsimp only at h
    obtain ⟨k, hk, hbuf, -⟩ := decoder.placed_consume f.parser.buffer cfg.httpMaxHeaderBytes
      (collectRemaining cfg bodySeen captureBody)
    have hlen : (decoder.consume f.parser.buffer cfg.httpMaxHeaderBytes
        (collectRemaining cfg bodySeen captureBody)).buf.length ≤ f.parser.buffer.length := by
      rw [hbuf, List.length_drop]
      omega
    split at h
    · cases h
    split at h
    · split at h
      · obtain rfl := Turn.again.inj h
        exact measure_lt_of_headers hlen hne rfl
      · split at h
        next hprogress =>
          obtain rfl := Turn.again.inj h
          exact measure_lt_of_length (lt_of_le_of_ne hlen hprogress)
        next => cases h
    · obtain rfl := Turn.again.inj h
      exact measure_lt_of_headers hlen hne rfl
  · unfold turnUntilClose at h
    split at h <;> cases h

end Results

end Feed

namespace HttpStreamParser

/-- A chunk joins the buffer.  After a gap nothing of the old framing is kept. -/
def accept (p : HttpStreamParser) (c : StreamChunk) (pending : List RequestKind) :
    HttpStreamParser × List RequestKind :=
  let joined (p : HttpStreamParser) : HttpStreamParser := { p with
    nextInputOffset := some (satAdd c.offset c.data.length)
    buffer := p.buffer ++ c.data }
  match p.nextInputOffset with
  | some expected =>
      if expected ≠ c.offset then
        (joined { p with
          buffer := []
          state := .headers
          streamOffset := c.offset
          synced := false
          headerScanFrom := 0 }, [])
      else (joined p, pending)
  | none => (joined { p with streamOffset := c.offset, synced := decide (c.offset = 0) }, pending)

def feed (cfg : HttpConfig) (p : HttpStreamParser) (c : StreamChunk)
    (pending : List RequestKind) (requestDirection : Option Direction) : Feed :=
  let (p, pending) := p.accept c pending
  let f : Feed := { parser := p, pendingRequests := pending, requestDirection := requestDirection }
  loop (Feed.turn cfg c) (f.measure + 1) f

/-- The end of the stream: what is left of the body is emitted and the buffer is dropped. -/
def finish (cfg : HttpConfig) (p : HttpStreamParser) : List HttpEmission :=
  match p.state with
  | .headers => []
  | .fixed remaining info compressed =>
      let take := min remaining p.buffer.length
      let data := p.buffer.take take
      let compressed := if take = 0 then compressed
        else collectCompressed cfg info compressed data
      let events := if take = 0 then []
        else [contentEvent info (bodyRecord info p.streamOffset data)]
      let decoded := if take = remaining then
          decodedRecord cfg info (p.advance take).streamOffset compressed
        else none
      events ++ decoded.toList.map (contentEvent info)
  | .skipFixed remaining captureRemaining info =>
      let collect := min (min remaining p.buffer.length) captureRemaining
      if collect = 0 then []
      else [contentEvent info (bodyRecord info p.streamOffset (p.buffer.take collect))]
  | .chunked info decoder compressed bodySeen captureBody =>
      let out := decoder.consume p.buffer cfg.httpMaxHeaderBytes
        (Feed.collectRemaining cfg bodySeen captureBody)
      match out.result with
      | none => []
      | some result =>
          let compressed := result.dataChunks.foldl
            (fun compressed d ↦ collectCompressed cfg info compressed d.data) compressed
          let captureBody :=
            captureBody && decide (satAdd bodySeen result.bodyBytes ≤ cfg.httpMaxBodyBytes)
          let decoded := if result.done && captureBody then
              decodedRecord cfg info (satAdd p.streamOffset result.wireConsumed) compressed
            else none
          Feed.chunkEvents info p.streamOffset result.dataChunks ++
            decoded.toList.map (contentEvent info)
  | .untilClose info compressed bodySeen captureBody =>
      let collect := min p.buffer.length (Feed.collectRemaining cfg bodySeen captureBody)
      let captured := p.buffer.take collect
      let events := if collect = 0 then []
        else [contentEvent info (bodyRecord info p.streamOffset captured)]
      let compressed := if collect = 0 then compressed
        else collectCompressed cfg info compressed captured
      let finalCapture := captureBody &&
        decide (p.buffer = [] ∨ satAdd bodySeen p.buffer.length ≤ cfg.httpMaxBodyBytes)
      let decoded := if finalCapture then
          decodedRecord cfg info (p.advance p.buffer.length).streamOffset compressed
        else none
      events ++ decoded.toList.map (contentEvent info)

end HttpStreamParser

structure HttpConnection where
  aToB : HttpStreamParser := {}
  bToA : HttpStreamParser := {}
  pendingRequests : List RequestKind := []
  requestDirection : Option Direction := none
  mode : HttpMode := .http
  deriving DecidableEq, Repr

namespace HttpConnection

def parser (h : HttpConnection) : Direction → HttpStreamParser
  | .aToB => h.aToB
  | .bToA => h.bToA

def setParser (h : HttpConnection) (p : HttpStreamParser) : Direction → HttpConnection
  | .aToB => { h with aToB := p }
  | .bToA => { h with bToA := p }

theorem parser_setParser_self (h : HttpConnection) (p : HttpStreamParser) (d : Direction) :
    (h.setParser p d).parser d = p := by
  cases d <;> rfl

theorem parser_setParser_of_ne (h : HttpConnection) (p : HttpStreamParser) {d d' : Direction}
    (hd : d' ≠ d) : (h.setParser p d).parser d' = h.parser d' := by
  cases d <;> cases d' <;> first | rfl | exact absurd rfl hd

def feed (cfg : HttpConfig) (h : HttpConnection) (c : StreamChunk) :
    HttpConnection × HttpFeedReport :=
  if h.mode = .tunnel then (h, {})
  else
    let f := (h.parser c.direction).feed cfg c h.pendingRequests h.requestDirection
    ({ h with
      pendingRequests := f.pendingRequests
      requestDirection := f.requestDirection
      mode := f.mode }.setParser f.parser c.direction, f.report)

theorem mode_setParser (h : HttpConnection) (p : HttpStreamParser) (d : Direction) :
    (h.setParser p d).mode = h.mode := by
  cases d <;> rfl

def finish (cfg : HttpConfig) (h : HttpConnection) : List HttpEmission :=
  if h.mode = .tunnel then [] else h.aToB.finish cfg ++ h.bToA.finish cfg

end HttpConnection

end Bazalt.Http
