import Bazalt.Http.Simulation

/-!
# Segmentation

Whatever the cuts of a stream are, a parser ends where the byte-by-byte reader ends: it has
reported the same header blocks and the same bytes of bodies, with the same requests pending
and the same number of errors.
-/

namespace Bazalt.Http

open Lib

section Parser

/-- What a parser relies on between two rounds. -/
def HttpStreamParser.Ready (cfg : HttpConfig) (p : HttpStreamParser) : Prop :=
  match p.state with
  | .headers => ScannedTo doubleCrlf p.buffer p.headerScanFrom
  | .fixed _ _ _ => p.headerScanFrom = 0
  | .skipFixed remaining _ _ => 0 < remaining ∧ p.headerScanFrom = 0
  | .chunked _ decoder _ bodySeen captureBody => decoder.Ok p.buffer ∧ p.headerScanFrom = 0 ∧
      bodySeen ≤ p.streamOffset ∧ (captureBody = false → cfg.httpMaxBodyBytes ≤ bodySeen)
  | .untilClose _ _ bodySeen captureBody => p.headerScanFrom = 0 ∧ bodySeen ≤ p.streamOffset ∧
      (captureBody = false → cfg.httpMaxBodyBytes ≤ bodySeen)

/-- A parser is where the reader is, with what was there before the chunk. -/
structure Sim (cfg : HttpConfig) (d : Direction) (tokens : List Token) (errors : ℕ) (f : Feed)
    (r : Reader) : Prop where
  phase : r.phase = phaseOf cfg f.parser.state
  offset : r.offset = f.parser.streamOffset
  bound : f.parser.streamOffset + f.parser.buffer.length ≤ u64Max
  pending : r.pending = f.pendingRequests
  errors : r.errors = errors + f.report.parseErrors
  few : f.report.parseErrors ≤ f.parser.streamOffset
  tokens : r.tokens = tokens ++ tokensOf f.report.events
  synced : f.parser.synced = true
  ready : f.parser.Ready cfg
  state : f.parser.state.Of d
  mode : f.mode = .http

/-- What a chunk leaves when the reader ends as `e`. -/
structure SimEnd (cfg : HttpConfig) (d : Direction) (tokens : List Token) (errors : ℕ) (e : Reader)
    (f : Feed) : Prop where
  http : f.mode = .http → ∃ r, Sim cfg d tokens errors f r ∧ Waiting cfg r f.parser.buffer ∧
    runFrom (Reader.step cfg) r f.parser.buffer = e
  tunnel : f.mode = .tunnel → e.phase = .tunnel ∧ e.pending = f.pendingRequests ∧
    e.errors = errors + f.report.parseErrors ∧ e.tokens = tokens ++ tokensOf f.report.events

def SimTurns (cfg : HttpConfig) (d : Direction) (tokens : List Token) (errors : ℕ) (e : Reader) :
    Turn Feed → Prop
  | .again f => ∃ r, Sim cfg d tokens errors f r ∧
      runFrom (Reader.step cfg) r f.parser.buffer = e
  | .stop f => SimEnd cfg d tokens errors e f

variable {cfg : HttpConfig} {c : StreamChunk} {d : Direction} {tokens : List Token} {errors : ℕ}
  {f f' : Feed} {r e : Reader}

theorem Sim.waits (h : Sim cfg d tokens errors f r) (hw : Waiting cfg r f.parser.buffer)
    (hrun : runFrom (Reader.step cfg) r f.parser.buffer = e) : SimEnd cfg d tokens errors e f :=
  ⟨fun _ ↦ ⟨r, h, hw, hrun⟩, fun hm ↦ by rw [h.mode] at hm; cases hm⟩

theorem SimEnd.of_empty (h : ∃ r, Sim cfg d tokens errors f r ∧
    runFrom (Reader.step cfg) r f.parser.buffer = e) (hempty : f.parser.buffer = []) :
    SimEnd cfg d tokens errors e f := by
  obtain ⟨r, hsim, hrun⟩ := h
  exact hsim.waits (.inl hempty) hrun

/-- The reader takes `k` bytes of a body that is not chunked, and so does the parser. -/
theorem Sim.take (h : Sim cfg d tokens errors f r) {remaining : Option ℕ} {capture k : ℕ}
    {view : ContentView} (hphase : r.phase = .body remaining capture view false) (hk : 0 < k)
    (hle : k ≤ f.parser.buffer.length) (hremaining : ∀ n ∈ remaining, k ≤ n)
    (hpasses : f.parser.Passes f'.parser k)
    (hstate : phaseOf cfg f'.parser.state = .afterBody remaining capture view false k)
    (hpending : f'.pendingRequests = f.pendingRequests)
    (herrors : f'.report.parseErrors = f.report.parseErrors)
    (hevents : tokensOf f'.report.events = tokensOf f.report.events ++
      bodyTokens view f.parser.streamOffset (f.parser.buffer.take (min capture k)))
    (hsynced : f'.parser.synced = f.parser.synced) (hready : f'.parser.Ready cfg)
    (hof : f'.parser.state.Of d) (hmode : f'.mode = f.mode)
    (hrun : runFrom (Reader.step cfg) r f.parser.buffer = e) :
    ∃ r', Sim cfg d tokens errors f' r' ∧
      runFrom (Reader.step cfg) r' f'.parser.buffer = e := by
  have hbound := h.bound
  have hfew := h.few
  have hoffset : f'.parser.streamOffset = f.parser.streamOffset + k := hpasses.offset (by omega)
  have hlen : (f.parser.buffer.take k).length = k := by
    rw [List.length_take]
    omega
  have hne : f.parser.buffer.take k ≠ [] := fun hnil ↦ by
    rw [hnil, List.length_nil] at hlen
    omega
  have hbody := Reader.run_body cfg hphase hne (by simpa [hlen] using hremaining)
  rw [hlen] at hbody
  refine ⟨runFrom (Reader.step cfg) r (f.parser.buffer.take k), ⟨?_, ?_, ?_, ?_, ?_, ?_, ?_,
    hsynced.trans h.synced, hready, hof, hmode.trans h.mode⟩, ?_⟩
  · rw [hbody, hstate]
  · rw [hbody, hoffset, h.offset]
  · rw [hoffset, hpasses.length_le]
    omega
  · rw [hbody, hpending]
    exact h.pending
  · rw [hbody, herrors]
    exact h.errors
  · rw [herrors, hoffset]
    omega
  · rw [hbody, hevents, ← List.append_assoc, ← h.tokens, h.offset, List.take_take]
  · rw [hpasses.buffer, ← runFrom_append, List.take_append_drop]
    exact hrun

theorem simTurns_fixed (h : Sim cfg d tokens errors f r) {remaining : ℕ} {info : MessageInfo}
    {compressed : Bytes} (hstate : f.parser.state = .fixed remaining info compressed)
    (hrun : runFrom (Reader.step cfg) r f.parser.buffer = e) :
    SimTurns cfg d tokens errors e (Feed.turnFixed cfg f remaining info compressed) := by
  obtain ⟨hpos, hinfo⟩ : 0 < remaining ∧ info.Of d := by
    have hof := h.state
    rwa [hstate] at hof
  have hscan : f.parser.headerScanFrom = 0 := by
    have hready := h.ready
    rwa [HttpStreamParser.Ready, hstate] at hready
  have hphase : r.phase = .body (some remaining) remaining info.bodyView false := by
    rw [h.phase, hstate]
    rfl
  unfold Feed.turnFixed
  split_ifs with hempty
  · exact h.waits (.inl hempty) hrun
  · have hlen := List.length_pos_of_ne_nil hempty
    have hpasses := HttpStreamParser.passes_advance (min_le_right remaining f.parser.buffer.length)
    have hevent := tokensOf_bodyEvent hinfo f.parser.streamOffset
      (f.parser.buffer.take (min remaining f.parser.buffer.length))
    have hcapture : min remaining (min remaining f.parser.buffer.length) =
        min remaining f.parser.buffer.length := by omega
    have hremaining : ∀ n ∈ some remaining, min remaining f.parser.buffer.length ≤ n := by
      simp
    dsimp only
    split_ifs with hlast
    · refine h.take hphase (by omega) (min_le_right _ _) hremaining
        ⟨hpasses.le, hpasses.buffer, hpasses.offset, hpasses.next⟩ ?_ rfl rfl ?_ rfl ?_ trivial rfl
        hrun
      · simp only [phaseOf, Phase.afterBody]
        rw [if_pos (by omega)]
        rfl
      · simp only [Feed.emit, tokensOf_append, hevent, hcapture,
          (hidden_decodedRecord hinfo cfg _ _).tokensOf, List.append_nil]
      · exact hscan ▸ scannedTo_zero _ _
    · refine SimEnd.of_empty (h.take hphase (by omega) (min_le_right _ _) hremaining
        ⟨hpasses.le, hpasses.buffer, hpasses.offset, hpasses.next⟩ ?_ rfl rfl ?_ rfl hscan
        ⟨by omega, hinfo⟩ rfl hrun) ?_
      · simp only [phaseOf, Phase.afterBody]
        rw [if_neg (by omega)]
      · simp only [Feed.emit, tokensOf_append, hevent, hcapture]
      · simp only [Feed.emit, HttpStreamParser.advance, List.drop_eq_nil_iff]
        omega

theorem tokensOf_captured {info : MessageInfo} (hinfo : info.Of d) (offset n : ℕ) (data : Bytes) :
    tokensOf (if n = 0 then [] else [contentEvent info (bodyRecord info offset (data.take n))]) =
      bodyTokens info.bodyView offset (data.take n) := by
  split_ifs with hn
  · rw [hn, List.take_zero]
    rfl
  · exact tokensOf_bodyEvent hinfo offset _

theorem simTurns_skipFixed (h : Sim cfg d tokens errors f r) {remaining captureRemaining : ℕ}
    {info : MessageInfo} (hstate : f.parser.state = .skipFixed remaining captureRemaining info)
    (hrun : runFrom (Reader.step cfg) r f.parser.buffer = e) :
    SimTurns cfg d tokens errors e (Feed.turnSkipFixed f remaining captureRemaining info) := by
  have hinfo : info.Of d := by
    have hof := h.state
    rwa [hstate] at hof
  obtain ⟨hpos, hscan⟩ : 0 < remaining ∧ f.parser.headerScanFrom = 0 := by
    have hready := h.ready
    rwa [HttpStreamParser.Ready, hstate] at hready
  have hphase : r.phase = .body (some remaining) captureRemaining info.bodyView false := by
    rw [h.phase, hstate]
    rfl
  unfold Feed.turnSkipFixed
  by_cases hempty : f.parser.buffer = []
  · rw [if_pos hempty]
    exact h.waits (.inl hempty) hrun
  · have hlen := List.length_pos_of_ne_nil hempty
    have hpasses := HttpStreamParser.passes_advance (min_le_right remaining f.parser.buffer.length)
    have hremaining : ∀ n ∈ some remaining, min remaining f.parser.buffer.length ≤ n := by
      simp
    rw [if_neg hempty]
    dsimp only
    by_cases hlast : remaining - min remaining f.parser.buffer.length = 0
    · rw [if_pos hlast]
      refine h.take hphase (by omega) (min_le_right _ _) hremaining
        ⟨hpasses.le, hpasses.buffer, hpasses.offset, hpasses.next⟩ ?_ rfl rfl ?_ rfl ?_ trivial rfl
        hrun
      · simp only [phaseOf, Phase.afterBody]
        rw [if_pos (by omega)]
        rfl
      · simp only [Feed.emit, tokensOf_append, tokensOf_captured hinfo, min_comm captureRemaining]
      · exact hscan ▸ scannedTo_zero _ _
    · rw [if_neg hlast]
      refine SimEnd.of_empty (h.take hphase (by omega) (min_le_right _ _) hremaining
        ⟨hpasses.le, hpasses.buffer, hpasses.offset, hpasses.next⟩ ?_ rfl rfl ?_ rfl
        ⟨by omega, hscan⟩ ?_ rfl hrun) ?_
      · simp only [phaseOf, Phase.afterBody]
        rw [if_neg (by omega)]
        congr 1
        omega
      · simp only [Feed.emit, tokensOf_append, tokensOf_captured hinfo, min_comm captureRemaining]
      · exact hinfo
      · simp only [Feed.emit, HttpStreamParser.advance, List.drop_eq_nil_iff]
        omega

theorem collectRemaining_eq {bodySeen : ℕ} {captureBody : Bool}
    (h : captureBody = false → cfg.httpMaxBodyBytes ≤ bodySeen) :
    Feed.collectRemaining cfg bodySeen captureBody = cfg.httpMaxBodyBytes - bodySeen := by
  cases captureBody with
  | true => rfl
  | false => exact (Nat.sub_eq_zero_of_le (h rfl)).symm

theorem simTurns_untilClose (h : Sim cfg d tokens errors f r) {info : MessageInfo}
    {compressed : Bytes} {bodySeen : ℕ} {captureBody : Bool}
    (hstate : f.parser.state = .untilClose info compressed bodySeen captureBody)
    (hrun : runFrom (Reader.step cfg) r f.parser.buffer = e) :
    SimTurns cfg d tokens errors e
      (Feed.turnUntilClose cfg f info compressed bodySeen captureBody) := by
  have hinfo : info.Of d := by
    have hof := h.state
    rwa [hstate] at hof
  obtain ⟨hscan, hseen, hcapture⟩ : f.parser.headerScanFrom = 0 ∧
      bodySeen ≤ f.parser.streamOffset ∧ (captureBody = false → cfg.httpMaxBodyBytes ≤ bodySeen) := by
    have hready := h.ready
    rwa [HttpStreamParser.Ready, hstate] at hready
  have hphase : r.phase = .body none (cfg.httpMaxBodyBytes - bodySeen) info.bodyView false := by
    rw [h.phase, hstate]
    rfl
  unfold Feed.turnUntilClose
  by_cases hempty : f.parser.buffer = []
  · rw [if_pos hempty]
    exact h.waits (.inl hempty) hrun
  · rw [if_neg hempty]
    have hlen := List.length_pos_of_ne_nil hempty
    have hbound := h.bound
    have hpasses := HttpStreamParser.passes_advance (le_refl f.parser.buffer.length)
    have hoffset := hpasses.offset hbound
    dsimp only
    rw [collectRemaining_eq hcapture, satAdd_of_le (by omega)]
    refine SimEnd.of_empty (h.take hphase hlen le_rfl (by simp)
      ⟨hpasses.le, hpasses.buffer, hpasses.offset, hpasses.next⟩ ?_ rfl rfl ?_ rfl ?_ hinfo rfl
      hrun) ?_
    · simp only [phaseOf, Phase.afterBody]
      congr 1
      omega
    · simp only [Feed.emit, tokensOf_append, tokensOf_captured hinfo, min_comm f.parser.buffer.length]
    · refine ⟨hscan, ?_, fun hoff ↦ ?_⟩
      · simp only [Feed.emit, hoffset]
        omega
      · rw [Bool.and_eq_false_iff, decide_eq_false_iff_not] at hoff
        rcases hoff with hoff | hoff
        · have := hcapture hoff
          omega
        · omega
    · simp only [Feed.emit, HttpStreamParser.advance, List.drop_eq_nil_iff]
      omega

/-- The decoder takes a part of the buffer, and so does the reader. -/
theorem Sim.chunks (h : Sim cfg d tokens errors f r) {info : MessageInfo} (hinfo : info.Of d)
    {chunks : List ChunkData} {decoded : Option HttpContent} {r' : Reader} {k : ℕ}
    (hk : k ≤ f.parser.buffer.length)
    (hplaced : PlacedIn f.parser.buffer k (chunks.map fun q ↦ (q.relativeOffset, q.data)))
    (hdecoded : Hidden d decoded) (hphase : r'.phase = phaseOf cfg f'.parser.state)
    (hoffset : r'.offset = r.offset + k) (hpending : r'.pending = r.pending)
    (herrors : r'.errors = r.errors)
    (htokens : r'.tokens = r.tokens ++ chunkTokens info.bodyView r.offset chunks)
    (hbuffer : f'.parser.buffer.length = f.parser.buffer.length - k)
    (hstream : f'.parser.streamOffset = satAdd f.parser.streamOffset k)
    (hpending' : f'.pendingRequests = f.pendingRequests)
    (herrors' : f'.report.parseErrors = f.report.parseErrors)
    (hevents : f'.report.events = f.report.events ++
      Feed.chunkEvents info f.parser.streamOffset chunks ++
        decoded.toList.map (contentEvent info))
    (hsynced : f'.parser.synced = f.parser.synced) (hready : f'.parser.Ready cfg)
    (hof : f'.parser.state.Of d) (hmode : f'.mode = f.mode) :
    Sim cfg d tokens errors f' r' := by
  have hbound := h.bound
  have hfew := h.few
  rw [satAdd_of_le (by omega)] at hstream
  have hwithin : ∀ q ∈ chunks, f.parser.streamOffset + q.relativeOffset ≤ u64Max := by
    intro q hq
    have hle := hplaced.within _ (List.mem_map_of_mem hq)
    dsimp only at hle
    omega
  refine ⟨hphase, ?_, ?_, ?_, ?_, ?_, ?_, hsynced.trans h.synced, hready, hof,
    hmode.trans h.mode⟩
  · rw [hoffset, hstream, h.offset]
  · rw [hstream, hbuffer]
    omega
  · rw [hpending, hpending', h.pending]
  · rw [herrors, herrors', h.errors]
  · rw [herrors', hstream]
    omega
  · rw [hevents, tokensOf_append, tokensOf_append, tokensOf_chunkEvents hinfo hwithin,
      hdecoded.tokensOf, List.append_nil, htokens, h.tokens, h.offset, List.append_assoc]

theorem simTurns_chunked (h : Sim cfg d tokens errors f r) {info : MessageInfo}
    {decoder : ChunkedDecoder} {compressed : Bytes} {bodySeen : ℕ} {captureBody : Bool}
    (hstate : f.parser.state = .chunked info decoder compressed bodySeen captureBody)
    (hrun : runFrom (Reader.step cfg) r f.parser.buffer = e) (hok : e.phase ≠ .failed) :
    SimTurns cfg d tokens errors e
      (Feed.turnChunked cfg f info decoder compressed bodySeen captureBody) := by
  have hinfo : info.Of d := by
    have hof := h.state
    rwa [hstate] at hof
  obtain ⟨hdecoder, hscan, hseen, hcapture⟩ : decoder.Ok f.parser.buffer ∧
      f.parser.headerScanFrom = 0 ∧ bodySeen ≤ f.parser.streamOffset ∧
      (captureBody = false → cfg.httpMaxBodyBytes ≤ bodySeen) := by
    have hready := h.ready
    rwa [HttpStreamParser.Ready, hstate] at hready
  have hphase : r.phase =
      chunkPhase (cfg.httpMaxBodyBytes - bodySeen) info.bodyView decoder.state := by
    rw [h.phase, hstate]
    rfl
  have hbound := h.bound
  rw [← hrun] at hok
  obtain ⟨p, hend, hp⟩ := chunkEnd_consume hdecoder hphase (by omega) hok
  obtain ⟨k, hk, hbuf, hplaced⟩ := decoder.placed_consume f.parser.buffer cfg.httpMaxHeaderBytes
    (cfg.httpMaxBodyBytes - bodySeen)
  rw [hp] at hbuf hplaced
  simp only [ChunkPass.outcome, hend.failed, Bool.false_eq_true, if_false] at hbuf hplaced
  obtain ⟨hwire, hplaced⟩ := hplaced _ rfl
  dsimp only at hwire hplaced
  have hlen : p.buf.length = f.parser.buffer.length - k := by rw [hbuf, List.length_drop]
  unfold Feed.turnChunked
  by_cases hempty : f.parser.buffer = []
  · rw [if_pos hempty]
    exact h.waits (.inl hempty) hrun
  · rw [if_neg hempty, collectRemaining_eq hcapture, hp]
    simp only [ChunkPass.outcome, hend.failed, Bool.false_eq_true, if_false, hwire]
    cases hdone : p.done with
    | true =>
        obtain ⟨r', hphase', hoffset, htokens, hpending, herrors, hrun'⟩ := hend.done hdone
        exact ⟨r', h.chunks hinfo hk hplaced ((hidden_decodedRecord hinfo cfg _ _).ite _) hphase'
          (by omega) hpending herrors htokens hlen rfl rfl rfl rfl rfl
          (hscan ▸ scannedTo_zero _ _) trivial rfl, hrun'.trans hrun⟩
    | false =>
        obtain ⟨r', hsim, hwaiting⟩ := hend.more hdone
        have hlength := hsim.length
        have hoffset := hsim.offset
        have hnext : ∀ f' : Feed, f' = { { f with
              parser.buffer := p.buf
              parser.streamOffset := satAdd f.parser.streamOffset k }.emit
                (Feed.chunkEvents info f.parser.streamOffset p.chunks) with
              parser.state := .chunked info p.decoder
                (p.chunks.foldl
                  (fun compressed q ↦ collectCompressed cfg info compressed q.data) compressed)
                (satAdd bodySeen p.bodyBytes)
                (captureBody && decide (satAdd bodySeen p.bodyBytes ≤ cfg.httpMaxBodyBytes)) } →
            Sim cfg d tokens errors f' r' := by
          rintro f' rfl
          refine h.chunks hinfo hk hplaced hidden_none ?_ (by omega) hsim.pending hsim.errors
            hsim.tokens hlen rfl rfl rfl (List.append_nil _).symm rfl ?_ hinfo rfl
          · rw [hsim.phase]
            simp only [phaseOf]
            rw [satAdd_of_le (by omega)]
          · simp only [HttpStreamParser.Ready]
            rw [satAdd_of_le (by omega), satAdd_of_le (by omega)]
            refine ⟨hsim.decoder, hscan, by simp only [Feed.emit]; omega, fun hoff ↦ ?_⟩
            rw [Bool.and_eq_false_iff, decide_eq_false_iff_not] at hoff
            rcases hoff with hoff | hoff
            · have := hcapture hoff
              omega
            · omega
        rw [if_neg Bool.false_ne_true]
        split_ifs
        · exact ⟨r', hnext _ rfl, hsim.run.trans hrun⟩
        · exact (hnext _ rfl).waits hwaiting (hsim.run.trans hrun)

/-- Of the metadata, only the view of the body decides where a message goes on. -/
theorem phaseOf_framing (cfg : HttpConfig) (parsed : ParsedHeader) (kind : Option RequestKind)
    {info info' : MessageInfo} (hview : info.bodyView = info'.bodyView) :
    (Feed.framing cfg parsed kind info).map (phaseOf cfg) =
      (Feed.framing cfg parsed kind info').map (phaseOf cfg) := by
  unfold Feed.framing
  split_ifs
  · rfl
  · simp only [Option.map_some, phaseOf, hview]
  · rfl
  · simp only [Option.map_some, phaseOf, hview]
  · split
    · split_ifs
      · rfl
      · simp only [Option.map_some, phaseOf, hview]
      · simp only [Option.map_some, phaseOf, hview]
    · simp only [Option.map_some, phaseOf, hview]

theorem ready_framing {parsed : ParsedHeader} {kind : Option RequestKind} {info : MessageInfo}
    {state : BodyState} (h : Feed.framing cfg parsed kind info = some state)
    {p : HttpStreamParser} (hstate : p.state = state) (hscan : p.headerScanFrom = 0) :
    p.Ready cfg := by
  subst hstate
  unfold Feed.framing at h
  unfold HttpStreamParser.Ready
  split_ifs at h
  · rw [← Option.some.inj h, hscan]
    exact scannedTo_zero _ _
  · rw [← Option.some.inj h]
    exact ⟨scannedTo_zero _ _, hscan, Nat.zero_le _, fun hoff ↦ (by cases hoff)⟩
  · rw [← Option.some.inj h]
    exact ⟨hscan, Nat.zero_le _, fun hoff ↦ (by cases hoff)⟩
  · split at h
    · split_ifs at h
      · rw [← Option.some.inj h, hscan]
        exact scannedTo_zero _ _
      · rw [← Option.some.inj h]
        exact ⟨by omega, hscan⟩
      · rw [← Option.some.inj h]
        exact hscan
    · rw [← Option.some.inj h]
      exact ⟨hscan, Nat.zero_le _, fun hoff ↦ (by cases hoff)⟩

/-- The reader and the parser note the same header block. -/
structure Noted (cfg : HttpConfig) (d : Direction) (tokens : List Token) (errors : ℕ) (f : Feed)
    (r : Reader) : Prop where
  offset : r.offset = f.parser.streamOffset
  bound : f.parser.streamOffset + f.parser.buffer.length ≤ u64Max
  pending : r.pending = f.pendingRequests
  errors : r.errors = errors + f.report.parseErrors
  few : f.report.parseErrors ≤ f.parser.streamOffset
  tokens : r.tokens = tokens ++ tokensOf f.report.events
  synced : f.parser.synced = true
  scan : f.parser.headerScanFrom = 0
  mode : f.mode = .http

theorem satAdd_ite (b : Bool) {n : ℕ} (h : n + 1 ≤ u64Max) :
    (if b then satAdd n 1 else n) = n + if b then 1 else 0 := by
  cases b with
  | true => exact satAdd_of_le h
  | false => rfl

theorem Sim.note (h : Sim cfg d tokens errors f r) {finish : ℕ} {parsed : ParsedHeader}
    (hle : finish + 4 ≤ f.parser.buffer.length)
    (hparsed : cfg.parseHeader (f.parser.buffer.take (finish + 4)) = some parsed) :
    Noted cfg d tokens errors
      (Feed.noteHeader c f.parser.streamOffset (f.parser.buffer.take (finish + 4)) parsed
        { f with parser := { f.parser.advance (finish + 4) with headerScanFrom := 0 } })
      (Reader.onHeader cfg { r with offset := r.offset + (finish + 4) }
        (f.parser.buffer.take (finish + 4))) := by
  have hbound := h.bound
  have hfew := h.few
  have hstream : satAdd f.parser.streamOffset (finish + 4) =
      f.parser.streamOffset + (finish + 4) := satAdd_of_le (by omega)
  have hone : ∀ b : Bool, (if b then 1 else 0) ≤ 1 := by decide
  have hambiguous := hone parsed.ambiguousFraming
  have hoverflow := hone (Feed.pair parsed f.pendingRequests).2
  have hfirst := satAdd_ite parsed.ambiguousFraming
    (show f.report.parseErrors + 1 ≤ u64Max by omega)
  have hsecond := satAdd_ite (Feed.pair parsed f.pendingRequests).2
    (show f.report.parseErrors + (if parsed.ambiguousFraming then 1 else 0) + 1 ≤ u64Max by omega)
  have hlen : (f.parser.buffer.take (finish + 4)).length = finish + 4 := by
    rw [List.length_take]
    omega
  simp only [Reader.onHeader, hparsed]
  refine ⟨?_, ?_, ?_, ?_, ?_, ?_, h.synced, rfl, h.mode⟩
  · simp only [Feed.noteHeader, HttpStreamParser.advance, hstream, h.offset]
  · simp only [Feed.noteHeader, HttpStreamParser.advance, hstream, List.length_drop]
    omega
  · simp only [Feed.noteHeader, h.pending]
  · simp only [Feed.noteHeader, h.pending, h.errors, hfirst, hsecond]
    omega
  · simp only [Feed.noteHeader, hfirst, hsecond, HttpStreamParser.advance, hstream]
    omega
  · simp only [Feed.noteHeader, tokensOf_append, ← List.append_assoc, ← h.tokens, hlen,
      Nat.add_sub_cancel, h.offset]
    rfl

theorem Noted.sim (h : Noted cfg d tokens errors f r) {state : BodyState}
    (hphase : r.phase = phaseOf cfg state) (hof : state.Of d)
    (hready : HttpStreamParser.Ready cfg { f.parser with state := state }) :
    Sim cfg d tokens errors { f with parser.state := state } r :=
  ⟨hphase, h.offset, h.bound, h.pending, h.errors, h.few, h.tokens, h.synced, hready, hof, h.mode⟩

theorem simTurns_onHeader (h : Sim cfg d tokens errors f r) (hd : c.direction = d) {finish : ℕ}
    {parsed : ParsedHeader} (hle : finish + 4 ≤ f.parser.buffer.length)
    (hparsed : cfg.parseHeader (f.parser.buffer.take (finish + 4)) = some parsed)
    (hgood : (Reader.onHeader cfg { r with offset := r.offset + (finish + 4) }
      (f.parser.buffer.take (finish + 4))).phase ≠ .failed)
    (hrun : runFrom (Reader.step cfg) (Reader.onHeader cfg
      { r with offset := r.offset + (finish + 4) } (f.parser.buffer.take (finish + 4)))
      (f.parser.buffer.drop (finish + 4)) = e) :
    SimTurns cfg d tokens errors e (Feed.onHeader cfg c f.parser.streamOffset
      (f.parser.buffer.take (finish + 4)) parsed
      { f with parser := { f.parser.advance (finish + 4) with headerScanFrom := 0 } }) := by
  have hnoted := h.note (c := c) hle hparsed
  generalize hnext : Reader.onHeader cfg { r with offset := r.offset + (finish + 4) }
    (f.parser.buffer.take (finish + 4)) = r' at hgood hrun hnoted
  have hphase : r'.phase = Reader.framed cfg parsed
      (Feed.responseKind parsed f.pendingRequests) := by
    simp only [← hnext, Reader.onHeader, hparsed, h.pending]
  unfold Feed.onHeader
  dsimp only
  unfold Reader.framed at hphase
  split_ifs with htunnel
  · rw [if_pos htunnel] at hphase
    rw [Reader.run_tunnel hphase] at hrun
    subst hrun
    exact ⟨fun hm ↦ (by cases hm), fun _ ↦ ⟨hphase, hnoted.pending, hnoted.errors, hnoted.tokens⟩⟩
  · rw [if_neg htunnel] at hphase
    have hsame := phaseOf_framing cfg parsed (Feed.responseKind parsed f.pendingRequests)
      (show (Feed.messageInfo blankChunk parsed .aToB).bodyView =
        (Feed.messageInfo c parsed (Feed.messageDirection c parsed { f with
          parser := { f.parser.advance (finish + 4) with headerScanFrom := 0 } })).bodyView from rfl)
    split
    next state hstate =>
      rw [hstate, Option.map_some] at hsame
      obtain ⟨state', hstate', hphase'⟩ := Option.map_eq_some_iff.mp hsame
      rw [hstate'] at hphase
      refine ⟨r', hnoted.sim (hphase.trans hphase') ?_ (ready_framing hstate rfl rfl), hrun⟩
      exact of_framing (hd ▸ of_messageInfo c parsed _) hstate
    next hnone =>
      rw [hnone, Option.map_none, Option.map_eq_none_iff] at hsame
      rw [hsame] at hphase
      exact absurd hphase hgood

theorem simTurns_headers (h : Sim cfg d tokens errors f r) (hd : c.direction = d)
    (hstate : f.parser.state = .headers)
    (hrun : runFrom (Reader.step cfg) r f.parser.buffer = e) (hok : e.phase ≠ .failed) :
    SimTurns cfg d tokens errors e (Feed.turnHeaders cfg c f) := by
  have hscan : ScannedTo doubleCrlf f.parser.buffer f.parser.headerScanFrom := by
    have hready := h.ready
    rwa [HttpStreamParser.Ready, hstate] at hready
  have hphase : r.phase = .scan .header [] := by
    rw [h.phase, hstate]
    rfl
  have hready : f.parser.ready = (f.parser, true) := by
    rw [HttpStreamParser.ready, if_pos h.synced]
  unfold Feed.turnHeaders
  simp only [hready, Bool.true_eq_false, if_false]
  rw [← hrun] at hok
  split
  next hnone =>
    have habsent := findFrom_eq_none hscan hnone (by decide)
    obtain ⟨hopen, hbelow⟩ := Reader.run_open hphase
      (fun w hw _ ↦ Reader.not_suffix_of_absent habsent hw) hok
    split
    next hlong =>
      exact absurd hlong (hbelow (List.ne_nil_of_length_pos (by omega)))
    next =>
      have hnext : Sim cfg d tokens errors
          { f with parser.headerScanFrom := f.parser.buffer.length - 3 } r := by
        refine ⟨h.phase, h.offset, h.bound, h.pending, h.errors, h.few, h.tokens, h.synced, ?_,
          h.state, h.mode⟩
        rw [HttpStreamParser.Ready, hstate]
        exact scannedTo_of_absent habsent (by decide)
      exact hnext.waits (.inr ⟨.header, hphase, hopen⟩) hrun
  next finish hfinish =>
    have hle := findDoubleCrlfFrom_le hfinish
    obtain ⟨hoccurs, hfirst⟩ := findFrom_eq_some hscan hfinish
    obtain ⟨hcomplete, hshort⟩ := Reader.shortest_of_first hoccurs hle hfirst
    obtain ⟨hgood, hnext⟩ := Reader.run_close hphase (Nat.succ_pos _) hle hcomplete
      (fun q hq hne _ ↦ hshort q hq hne) hok
    split
    next hbad =>
      refine absurd ?_ hgood
      simp only [Reader.complete, Reader.onHeader]
      rw [hbad]
      rfl
    next parsed hparsed =>
      exact simTurns_onHeader h hd hle hparsed hgood (hnext.trans hrun)

theorem simTurns_turn (h : Sim cfg d tokens errors f r) (hd : c.direction = d)
    (hrun : runFrom (Reader.step cfg) r f.parser.buffer = e) (hok : e.phase ≠ .failed) :
    SimTurns cfg d tokens errors e (Feed.turn cfg c f) := by
  unfold Feed.turn
  split
  next hstate => exact simTurns_headers h hd hstate hrun hok
  next hstate => exact simTurns_fixed h hstate hrun
  next hstate => exact simTurns_skipFixed h hstate hrun
  next hstate => exact simTurns_chunked h hstate hrun hok
  next hstate => exact simTurns_untilClose h hstate hrun

/-- A call of `feed` on bytes that are well formed. -/
theorem simEnd_feed {p : HttpStreamParser} {pending : List RequestKind}
    {requestDirection : Option Direction} (hd : c.direction = d)
    (h : ∃ r, Sim cfg d tokens errors { parser := (p.accept c pending).1
                                        pendingRequests := (p.accept c pending).2
                                        requestDirection := requestDirection } r ∧
      runFrom (Reader.step cfg) r (p.accept c pending).1.buffer = e) (hok : e.phase ≠ .failed) :
    SimEnd cfg d tokens errors e (p.feed cfg c pending requestDirection) := by
  have hleaves : Leaves (Feed.turn cfg c) _ (p.feed cfg c pending requestDirection) :=
    leaves_loop (fun _ _ ↦ Feed.measure_turn) (Nat.lt_succ_self _)
  refine hleaves.rule (I := fun f ↦ ∃ r, Sim cfg d tokens errors f r ∧
    runFrom (Reader.step cfg) r f.parser.buffer = e) ?_ ?_ h
  · rintro f f' ⟨r, hsim, hrun⟩ hagain
    have hnext := simTurns_turn hsim hd hrun hok
    rwa [hagain] at hnext
  · rintro f f' ⟨r, hsim, hrun⟩ hstop
    have hnext := simTurns_turn hsim hd hrun hok
    rwa [hstop] at hnext

theorem accept_of_next {p : HttpStreamParser}
    (hnext : p.nextInputOffset = some c.offset ∨ p = {} ∧ c.offset = 0)
    (pending : List RequestKind) : p.accept c pending = ({ p with
      nextInputOffset := some (satAdd c.offset c.data.length)
      buffer := p.buffer ++ c.data }, pending) := by
  rcases hnext with hnext | ⟨hnew, hzero⟩
  · simp [HttpStreamParser.accept, hnext]
  · simp [HttpStreamParser.accept, hnew, hzero]

/-- Bytes that come next join the buffer. -/
theorem Sim.accept (h : Sim cfg d tokens errors f r)
    (hrun : runFrom (Reader.step cfg) r f.parser.buffer = e)
    (hbound : f.parser.streamOffset + (f.parser.buffer ++ c.data).length ≤ u64Max)
    (hnext : f.parser.nextInputOffset = some c.offset ∨ f.parser = {} ∧ c.offset = 0) :
    ∃ r, Sim cfg d tokens errors { f with
        parser := (f.parser.accept c f.pendingRequests).1
        pendingRequests := (f.parser.accept c f.pendingRequests).2 } r ∧
      runFrom (Reader.step cfg) r (f.parser.accept c f.pendingRequests).1.buffer =
        runFrom (Reader.step cfg) e c.data := by
  have hready : HttpStreamParser.Ready cfg { f.parser with
      nextInputOffset := some (satAdd c.offset c.data.length)
      buffer := f.parser.buffer ++ c.data } := by
    have hold := h.ready
    unfold HttpStreamParser.Ready at hold ⊢
    dsimp only
    split at hold
    · exact ScannedTo.append hold c.data
    · exact hold
    · exact hold
    · exact ⟨hold.1.append c.data, hold.2⟩
    · exact hold
  rw [accept_of_next hnext]
  refine ⟨r, ⟨h.phase, h.offset, hbound, h.pending, h.errors, h.few, h.tokens, h.synced, hready,
    h.state, h.mode⟩, ?_⟩
  rw [runFrom_append, hrun]

/-- The end of the stream adds no token: what is left in the buffer is part of something that
is not complete. -/
theorem Sim.finish (h : Sim cfg d tokens errors f r) (hw : Waiting cfg r f.parser.buffer)
    (hok : (runFrom (Reader.step cfg) r f.parser.buffer).phase ≠ .failed) :
    tokensOf (f.parser.finish cfg) = [] := by
  have hphase := h.phase
  have hof := h.state
  have hready := h.ready
  have hempty : (∀ what, r.phase ≠ .scan what []) → f.parser.buffer = [] := by
    intro hno
    rcases hw with hnil | ⟨what, hscan, -⟩
    · exact hnil
    · exact absurd hscan (hno what)
  unfold HttpStreamParser.Ready at hready
  unfold HttpStreamParser.finish
  split
  next => rfl
  next hstate =>
    rw [hstate] at hphase hof
    rw [hempty (by simp [hphase, phaseOf])]
    simp only [List.length_nil, Nat.min_zero, if_true, List.nil_append]
    exact ((hidden_decodedRecord hof.2 cfg _ _).ite _).tokensOf _
  next hstate =>
    rw [hstate] at hphase
    rw [hempty (by simp [hphase, phaseOf])]
    simp [tokensOf]
  next info decoder compressed bodySeen captureBody hstate =>
    rw [hstate] at hphase hof hready
    obtain ⟨hdecoder, -, hseen, hcapture⟩ := hready
    have hbound := h.bound
    obtain ⟨p, hend, hp⟩ := chunkEnd_consume hdecoder hphase (by omega) hok
    obtain ⟨k, hk, -, hplaced⟩ := decoder.placed_consume f.parser.buffer cfg.httpMaxHeaderBytes
      (cfg.httpMaxBodyBytes - bodySeen)
    rw [hp] at hplaced
    simp only [ChunkPass.outcome, hend.failed, Bool.false_eq_true, if_false] at hplaced
    have hwithin : ∀ q ∈ p.chunks, f.parser.streamOffset + q.relativeOffset ≤ u64Max := by
      intro q hq
      have hle := (hplaced _ rfl).2.within _ (List.mem_map_of_mem hq)
      dsimp only at hle
      omega
    rw [collectRemaining_eq hcapture, hp]
    simp only [ChunkPass.outcome, hend.failed, Bool.false_eq_true, if_false]
    rw [tokensOf_append, tokensOf_chunkEvents hof hwithin,
      ((hidden_decodedRecord hof cfg _ _).ite _).tokensOf, List.append_nil, ← h.offset]
    exact hend.no_tokens hw
  next hstate =>
    rw [hstate] at hphase hof
    rw [hempty (by simp [hphase, phaseOf])]
    simp only [List.length_nil, Nat.zero_min, if_true, List.nil_append]
    exact ((hidden_decodedRecord hof cfg _ _).ite _).tokensOf _

end Parser

section Session

/-- A connection with everything that its calls have reported. -/
structure Session where
  connection : HttpConnection
  report : HttpFeedReport := {}
  deriving DecidableEq, Repr

def Session.feed (cfg : HttpConfig) (s : Session) (c : StreamChunk) : Session :=
  let (connection, report) := s.connection.feed cfg c
  { connection := connection
    report := { events := s.report.events ++ report.events
                parseErrors := s.report.parseErrors + report.parseErrors } }

/-- The parser of a direction between two chunks. -/
def Session.idle (s : Session) (d : Direction) : Feed where
  parser := s.connection.parser d
  pendingRequests := s.connection.pendingRequests
  requestDirection := s.connection.requestDirection
  mode := s.connection.mode

/-- The chunks of one direction that carry the bytes `bs` from offset `n` on. -/
def Cuts (d : Direction) : ℕ → Bytes → List StreamChunk → Prop
  | _, bs, [] => bs = []
  | n, bs, c :: cs => c.direction = d ∧ c.offset = n ∧ c.data ≠ [] ∧ c.data <+: bs ∧
      Cuts d (n + c.data.length) (bs.drop c.data.length) cs

instance decidableCuts (d : Direction) : ∀ n bs cs, Decidable (Cuts d n bs cs)
  | _, bs, [] => inferInstanceAs (Decidable (bs = []))
  | n, bs, c :: cs =>
      haveI := decidableCuts d (n + c.data.length) (bs.drop c.data.length) cs
      inferInstanceAs (Decidable (_ ∧ _ ∧ _ ∧ _ ∧ _))

variable {cfg : HttpConfig} {c : StreamChunk} {d : Direction} {tokens : List Token} {errors : ℕ}
  {f : Feed} {e r₀ : Reader} {s : Session} {bs read : Bytes}

/-- The reports of a call become part of what was there before. -/
theorem SimEnd.rebase (h : SimEnd cfg d tokens errors e f) :
    SimEnd cfg d (tokens ++ tokensOf f.report.events) (errors + f.report.parseErrors) e
      { f with report := {} } := by
  refine ⟨fun hm ↦ ?_, fun hm ↦ ?_⟩
  · obtain ⟨r, hsim, hw, hrun⟩ := h.http hm
    refine ⟨r, ⟨hsim.phase, hsim.offset, hsim.bound, hsim.pending, hsim.errors, Nat.zero_le _, ?_,
      hsim.synced, hsim.ready, hsim.state, hsim.mode⟩, hw, hrun⟩
    rw [hsim.tokens]
    exact (List.append_nil _).symm
  · obtain ⟨hphase, hpending, herrors, htokens⟩ := h.tunnel hm
    exact ⟨hphase, hpending, herrors, htokens.trans (List.append_nil _).symm⟩

theorem Session.feed_of_http (cfg : HttpConfig) (c : StreamChunk)
    (hmode : s.connection.mode = .http) :
    let f := (s.connection.parser c.direction).feed cfg c s.connection.pendingRequests
      s.connection.requestDirection
    (s.feed cfg c).idle c.direction = { f with report := {} } ∧
      (s.feed cfg c).report.events = s.report.events ++ f.report.events ∧
      (s.feed cfg c).report.parseErrors = s.report.parseErrors + f.report.parseErrors ∧
      ∀ d ≠ c.direction, (s.feed cfg c).connection.parser d = s.connection.parser d := by
  have hne : s.connection.mode ≠ .tunnel := by simp [hmode]
  simp only [Session.feed, HttpConnection.feed, if_neg hne]
  refine ⟨?_, trivial, trivial, fun d hd ↦ ?_⟩
  · cases c.direction <;> rfl
  · rw [HttpConnection.parser_setParser_of_ne _ _ hd]
    cases d <;> rfl

theorem Session.feed_of_tunnel (hmode : s.connection.mode = .tunnel) : s.feed cfg c = s := by
  simp [Session.feed, HttpConnection.feed, hmode]

/-- After the bytes `read` of the stream `bs`, a session is where the reader is. -/
structure Follows (cfg : HttpConfig) (d : Direction) (bs : Bytes) (r₀ : Reader) (s : Session)
    (read : Bytes) : Prop where
  sim : SimEnd cfg d (tokensOf s.report.events) s.report.parseErrors
    (runFrom (Reader.step cfg) r₀ read) (s.idle d)
  faithful : s.connection.mode = .http →
    ∃ rs, Faithful (fun k ↦ bs[k]?) d (s.connection.parser d) rs
  next : s.connection.mode = .http → read = [] ∧ s.connection.parser d = {} ∨
    (s.connection.parser d).nextInputOffset = some read.length

/-- The next chunk comes without a gap. -/
theorem Follows.contiguous (h : Follows cfg d bs r₀ s read) (hmode : s.connection.mode = .http)
    (hoffset : c.offset = read.length) :
    (s.connection.parser d).nextInputOffset = some c.offset ∨
      s.connection.parser d = {} ∧ c.offset = 0 := by
  rcases h.next hmode with ⟨hnil, hnew⟩ | hsome
  · exact .inr ⟨hnew, by rw [hoffset, hnil]; rfl⟩
  · exact .inl (by rw [hsome, hoffset])

theorem Follows.feed (h : Follows cfg d bs r₀ s read) (hd : c.direction = d)
    (hoffset : c.offset = read.length) (hdata : read ++ c.data <+: bs)
    (hbound : bs.length ≤ u64Max)
    (hok : (runFrom (Reader.step cfg) r₀ (read ++ c.data)).phase ≠ .failed) :
    Follows cfg d bs r₀ (s.feed cfg c) (read ++ c.data) := by
  cases hmode : s.connection.mode with
  | tunnel =>
      have hsim := h.sim
      obtain ⟨hphase, -⟩ := hsim.tunnel hmode
      rw [Session.feed_of_tunnel hmode]
      have hhttp : s.connection.mode ≠ .http := by simp [hmode]
      refine ⟨?_, fun hm ↦ absurd hm hhttp, fun hm ↦ absurd hm hhttp⟩
      rwa [runFrom_append, Reader.run_tunnel hphase]
  | http =>
      subst hd
      obtain ⟨r, hsim, -, hrun⟩ := h.sim.http hmode
      obtain ⟨rs, hfaithful⟩ := h.faithful hmode
      have hbefore : s.idle c.direction = { parser := s.connection.parser c.direction
                                            pendingRequests := s.connection.pendingRequests
                                            requestDirection := s.connection.requestDirection } := by
        rw [Session.idle, hmode]
      rw [hbefore] at hsim hrun
      have hlen : read.length + c.data.length ≤ bs.length := by
        rw [← List.length_append]
        exact hdata.length_le
      have hreads : ReadsAt (fun k ↦ bs[k]?) c.offset c.data := by
        intro i hi
        obtain ⟨later, rfl⟩ := hdata
        simp [hoffset, hi, List.getElem?_append]
      have hnext := h.contiguous hmode hoffset
      have hahead : ∀ n ∈ (s.connection.parser c.direction).nextInputOffset, n ≤ c.offset := by
        intro n hn
        rcases hnext with hsome | ⟨hnew, -⟩
        · rw [hsome, Option.mem_some_iff] at hn
          omega
        · rw [hnew] at hn
          cases hn
      have hroom : (s.connection.parser c.direction).streamOffset +
          ((s.connection.parser c.direction).buffer ++ c.data).length ≤ u64Max := by
        rw [List.length_append]
        rcases hnext with hsome | ⟨hnew, -⟩
        · have hposition := hfaithful.next _ hsome
          omega
        · rw [hnew]
          simp only [List.length_nil]
          omega
      have hend : FaithfulEnd _ _ rs (c.offset + c.data.length)
          ((s.connection.parser c.direction).feed cfg c s.connection.pendingRequests
            s.connection.requestDirection) :=
        faithfulEnd_feed rfl hfaithful hreads (by omega) hahead _ _
      have hjoin := hsim.accept hrun hroom hnext
      rw [← runFrom_append] at hjoin
      have hsim' := simEnd_feed rfl hjoin hok
      obtain ⟨hidle, hevents, herrors, -⟩ := Session.feed_of_http cfg c hmode
      have hparser := congrArg Feed.parser hidle
      have hmode' := congrArg Feed.mode hidle
      simp only [Session.idle] at hparser hmode'
      refine ⟨?_, fun hm ↦ ?_, fun hm ↦ .inr ?_⟩
      · rw [hidle, hevents, herrors, tokensOf_append]
        exact hsim'.rebase
      · rw [hparser]
        exact ⟨_, (hend.http (hmode' ▸ hm)).parser⟩
      · rw [hparser, (hend.http (hmode' ▸ hm)).next, List.length_append, hoffset]

/-- The run lemma: chunk by chunk, a session follows the reader. -/
theorem Follows.run {cs : List StreamChunk} {rest : Bytes} (h : Follows cfg d bs r₀ s read)
    (hcs : Cuts d read.length rest cs) (hbs : bs = read ++ rest) (hbound : bs.length ≤ u64Max)
    (hok : (runFrom (Reader.step cfg) r₀ bs).phase ≠ .failed) :
    Follows cfg d bs r₀ (runFrom (Session.feed cfg) s cs) bs := by
  induction cs generalizing s read rest with
  | nil =>
      obtain rfl : rest = [] := hcs
      rw [List.append_nil] at hbs
      subst hbs
      exact h
  | cons c cs ih =>
      obtain ⟨hd, hoffset, -, ⟨later, rfl⟩, hrest⟩ := hcs
      rw [List.drop_left] at hrest
      rw [← List.append_assoc] at hbs
      have hnext := h.feed hd hoffset ⟨later, hbs.symm⟩ hbound
        (Reader.not_failed_of_append (hbs ▸ hok))
      refine ih hnext ?_ hbs
      rwa [List.length_append]

theorem follows_new {h : HttpConnection} (hmode : h.mode = .http) (hnew : h.parser d = {}) :
    Follows cfg d bs { pending := h.pendingRequests } { connection := h } [] := by
  refine ⟨⟨fun _ ↦ ⟨{ pending := h.pendingRequests }, ?_, .inl ?_, ?_⟩, fun hm ↦ ?_⟩,
    fun _ ↦ ⟨[], ?_⟩, fun _ ↦ .inl ⟨rfl, hnew⟩⟩
  · constructor <;> simp [Session.idle, hnew, hmode, phaseOf, tokensOf, HttpStreamParser.Ready,
      BodyState.Of, scannedTo_zero]
  · simp [Session.idle, hnew]
  · simp [Session.idle, hnew]
  · rw [Session.idle, hmode] at hm
    cases hm
  · show Faithful _ d (h.parser d) []
    rw [hnew]
    exact faithful_new _ d

theorem phaseOf_ne_tunnel (state : BodyState) : phaseOf cfg state ≠ .tunnel := by
  cases state with
  | headers => exact Phase.noConfusion
  | fixed remaining info compressed => exact Phase.noConfusion
  | skipFixed remaining captureRemaining info => exact Phase.noConfusion
  | chunked info decoder compressed bodySeen captureBody =>
      rw [phaseOf]
      cases decoder.state <;> exact Phase.noConfusion
  | untilClose info compressed bodySeen captureBody => exact Phase.noConfusion

/-- What can be seen of a call is what the reader says. -/
theorem SimEnd.result (h : SimEnd cfg d tokens errors e f) :
    (f.mode = .tunnel ↔ e.phase = .tunnel) ∧ e.pending = f.pendingRequests ∧
      e.errors = errors + f.report.parseErrors ∧ e.tokens = tokens ++ tokensOf f.report.events := by
  cases hmode : f.mode with
  | tunnel =>
      obtain ⟨hphase, hrest⟩ := h.tunnel hmode
      exact ⟨by simp [hphase], hrest⟩
  | http =>
      obtain ⟨r, hsim, hw, rfl⟩ := h.http hmode
      have hne : r.phase ≠ .tunnel := hsim.phase ▸ phaseOf_ne_tunnel _
      rcases hw with hnil | ⟨what, -, hrun⟩
      · rw [hnil, runFrom_nil]
        exact ⟨by simp [hne], hsim.pending, hsim.errors, hsim.tokens⟩
      · rw [hrun]
        exact ⟨by simp, hsim.pending, hsim.errors, hsim.tokens⟩

/-- The end of a stream that is well formed adds nothing of its own direction. -/
theorem Follows.finish (h : Follows cfg d bs r₀ s read)
    (hok : (runFrom (Reader.step cfg) r₀ read).phase ≠ .failed)
    (hmode : s.connection.mode = .http) :
    tokensOf ((s.connection.parser d).finish cfg) = [] := by
  obtain ⟨r, hsim, hw, hrun⟩ := h.sim.http hmode
  rw [← hrun] at hok
  exact hsim.finish hw hok

/-- Whether the bytes that a direction carries are messages: header blocks that parse, bodies
of the length they announce, chunks and trailers, each within its limit, up to a last one that
may be cut off.  Whether a response has a body depends on the request that it answers. -/
def WellFormed (cfg : HttpConfig) (pending : List RequestKind) (bs : Bytes) : Prop :=
  (runFrom (Reader.step cfg) { pending := pending } bs).phase ≠ .failed

/-- Two sessions have read the same: header blocks with their metadata, bytes of bodies, the
requests that wait, the mode and the number of errors. -/
structure Alike (cfg : HttpConfig) (s s' : Session) : Prop where
  tokens : tokensOf (s.report.events ++ s.connection.finish cfg) =
    tokensOf (s'.report.events ++ s'.connection.finish cfg)
  pending : s.connection.pendingRequests = s'.connection.pendingRequests
  mode : s.connection.mode = s'.connection.mode
  errors : s.report.parseErrors = s'.report.parseErrors

theorem run_of_tunnel {cs : List StreamChunk} (hmode : s.connection.mode = .tunnel) :
    runFrom (Session.feed cfg) s cs = s := by
  induction cs with
  | nil => rfl
  | cons c cs ih => rw [runFrom_cons, Session.feed_of_tunnel hmode, ih]

/-- The other direction is left alone. -/
theorem other_run {cs : List StreamChunk} {n : ℕ} (hcs : Cuts d n bs cs) :
    (runFrom (Session.feed cfg) s cs).connection.parser d.opposite =
      s.connection.parser d.opposite := by
  induction cs generalizing s n bs with
  | nil => rfl
  | cons c cs ih =>
      obtain ⟨rfl, -, -, -, hrest⟩ := hcs
      rw [runFrom_cons, ih hrest]
      cases hmode : s.connection.mode with
      | tunnel => rw [Session.feed_of_tunnel hmode]
      | http =>
          obtain ⟨-, -, -, hother⟩ := Session.feed_of_http cfg c hmode
          exact hother _ (by cases c.direction <;> exact Direction.noConfusion)

theorem tokensOf_finish (h : HttpConnection) (hmode : h.mode = .http)
    (hown : tokensOf ((h.parser d).finish cfg) = []) :
    tokensOf (h.finish cfg) = tokensOf ((h.parser d.opposite).finish cfg) := by
  have hne : h.mode ≠ .tunnel := by simp [hmode]
  rw [HttpConnection.finish, if_neg hne, tokensOf_append]
  cases d with
  | aToB =>
      rw [show tokensOf (h.aToB.finish cfg) = [] from hown]
      rfl
  | bToA =>
      rw [show tokensOf (h.bToA.finish cfg) = [] from hown, List.append_nil]
      rfl

/-- However a stream that is well formed is cut into chunks, the same is read. -/
theorem alike_of_cuts (cfg : HttpConfig) (h : HttpConnection) (d : Direction)
    (hnew : h.parser d = {}) (bs : Bytes) (hbound : bs.length ≤ u64Max)
    (hwell : WellFormed cfg h.pendingRequests bs) (cs cs' : List StreamChunk)
    (hcs : Cuts d 0 bs cs) (hcs' : Cuts d 0 bs cs') :
    Alike cfg (runFrom (Session.feed cfg) { connection := h } cs)
      (runFrom (Session.feed cfg) { connection := h } cs') := by
  cases hmode : h.mode with
  | tunnel =>
      rw [run_of_tunnel hmode, run_of_tunnel hmode]
      exact ⟨rfl, rfl, rfl, rfl⟩
  | http =>
      have hstart : Follows cfg d bs { pending := h.pendingRequests } { connection := h } [] :=
        follows_new hmode hnew
      have hrun := hstart.run hcs rfl hbound hwell
      have hrun' := hstart.run hcs' rfl hbound hwell
      have hother : (runFrom (Session.feed cfg) { connection := h } cs).connection.parser
          d.opposite = h.parser d.opposite := other_run hcs
      have hother' : (runFrom (Session.feed cfg) { connection := h } cs').connection.parser
          d.opposite = h.parser d.opposite := other_run hcs'
      revert hrun hrun' hother hother'
      generalize runFrom (Session.feed cfg) { connection := h } cs = s
      generalize runFrom (Session.feed cfg) { connection := h } cs' = s'
      intro hrun hrun' hother hother'
      obtain ⟨hphase, hpending, herrors, htokens⟩ := hrun.sim.result
      obtain ⟨hphase', hpending', herrors', htokens'⟩ := hrun'.sim.result
      have hsame : s.connection.mode = .tunnel ↔ s'.connection.mode = .tunnel :=
        hphase.trans hphase'.symm
      have hread : tokensOf s.report.events = tokensOf s'.report.events := by
        have hboth := htokens.symm.trans htokens'
        rwa [show tokensOf (s.idle d).report.events = [] from rfl,
          show tokensOf (s'.idle d).report.events = [] from rfl, List.append_nil,
          List.append_nil] at hboth
      refine ⟨?_, hpending.symm.trans hpending', ?_, herrors.symm.trans herrors'⟩
      · rw [tokensOf_append, tokensOf_append, hread]
        congr 1
        cases hm : s.connection.mode with
        | tunnel =>
            rw [HttpConnection.finish, if_pos hm, HttpConnection.finish, if_pos (hsame.mp hm)]
        | http =>
            have hm' : s'.connection.mode = .http := by
              cases hmode' : s'.connection.mode with
              | http => rfl
              | tunnel =>
                  rw [hsame.mpr hmode'] at hm
                  cases hm
            rw [tokensOf_finish _ hm (hrun.finish hwell hm), tokensOf_finish _ hm'
              (hrun'.finish hwell hm'), hother, hother']
      · cases hm : s.connection.mode <;> cases hm' : s'.connection.mode <;> simp_all

def postStream : Bytes := postHeader ++ ascii "hello"

/-- The request as one chunk. -/
def wholeCut : List StreamChunk :=
  [{ flowId := 0, tsNs := 1, direction := .aToB, offset := 0, data := postStream }]

/-- The request with a cut in the end of its header block and one in its body. -/
def threeCut : List StreamChunk :=
  [{ flowId := 0, tsNs := 1, direction := .aToB, offset := 0, data := postStream.take 36 },
    { flowId := 0, tsNs := 2, direction := .aToB, offset := 36
      data := (postStream.take 40).drop 36 },
    { flowId := 0, tsNs := 3, direction := .aToB, offset := 40, data := postStream.drop 40 }]

theorem alike_postStream : WellFormed postConfig [] postStream ∧ Cuts .aToB 0 postStream wholeCut ∧
    Cuts .aToB 0 postStream threeCut ∧
    Alike postConfig (runFrom (Session.feed postConfig) { connection := {} } wholeCut)
      (runFrom (Session.feed postConfig) { connection := {} } threeCut) := by
  have hwell : WellFormed postConfig [] postStream := by
    unfold WellFormed
    decide +kernel
  have hwhole : Cuts .aToB 0 postStream wholeCut := by decide +kernel
  have hthree : Cuts .aToB 0 postStream threeCut := by decide +kernel
  exact ⟨hwell, hwhole, hthree, alike_of_cuts postConfig {} .aToB rfl postStream
    (by decide +kernel) hwell wholeCut threeCut hwhole hthree⟩

end Session

end Bazalt.Http
