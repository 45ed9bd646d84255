import Bazalt.Http.Parser
import Bazalt.Lib.Run

/-!
# Records are what was on the wire

A parser passes over the bytes of its direction.  Every header block and every piece of a
body that it emits is a stretch of these bytes, at its offset, and the records follow each
other in the order of the stream.
-/

namespace Bazalt.Http

open Lib

section Records

/-- The views of header blocks and of bodies as they were sent. -/
def IsWire (view : ContentView) : Prop :=
  view = .httpRequestHeaders ∨ view = .httpRequestBody ∨ view = .httpResponseHeaders ∨
    view = .httpResponseBody

instance : DecidablePred IsWire := fun _ ↦ inferInstanceAs (Decidable (_ ∨ _))

/-- The header and wire-body records of one direction. -/
def wireRecords (d : Direction) (es : List HttpEmission) : List HttpContent :=
  (es.flatMap HttpEmission.content).filter fun r ↦ decide (r.direction = d ∧ IsWire r.view)

def pieces (rs : List HttpContent) : List (ℕ × Bytes) := rs.map fun r ↦ (r.streamOffset, r.data)

/-- The events are all about one direction. -/
def Own (d : Direction) (es : List HttpEmission) : Prop :=
  ∀ e ∈ es, ∀ r ∈ e.content, r.direction = d

theorem wireRecords_append (d : Direction) (es es' : List HttpEmission) :
    wireRecords d (es ++ es') = wireRecords d es ++ wireRecords d es' := by
  simp [wireRecords]

theorem Own.append {d : Direction} {es es' : List HttpEmission} (h : Own d es) (h' : Own d es') :
    Own d (es ++ es') := by
  intro e he
  rcases List.mem_append.mp he with he | he
  · exact h e he
  · exact h' e he

theorem wireRecords_of_own {d d' : Direction} {es : List HttpEmission} (h : Own d es)
    (hd : d' ≠ d) : wireRecords d' es = [] := by
  rw [wireRecords, List.filter_eq_nil_iff]
  intro r hr
  obtain ⟨e, he, hre⟩ := List.mem_flatMap.mp hr
  simp [h e he r hre, hd.symm]

/-- What a message knows of itself in the parser of a direction. -/
structure MessageInfo.Of (d : Direction) (info : MessageInfo) : Prop where
  direction : info.direction = d
  body : IsWire info.bodyView
  decoded : ¬IsWire info.decodedView

theorem of_messageInfo (c : StreamChunk) (parsed : ParsedHeader) (reqDir : Direction) :
    (Feed.messageInfo c parsed reqDir).Of c.direction := by
  refine ⟨rfl, ?_, ?_⟩
  · cases hrequest : parsed.request <;> simp [Feed.messageInfo, hrequest, IsWire]
  · cases hrequest : parsed.request <;> simp [Feed.messageInfo, hrequest, IsWire]

def BodyState.Of (d : Direction) : BodyState → Prop
  | .headers => True
  | .fixed remaining info _ => 0 < remaining ∧ info.Of d
  | .skipFixed _ _ info => info.Of d
  | .chunked info _ _ _ _ => info.Of d
  | .untilClose info _ _ _ => info.Of d

theorem of_framing {cfg : HttpConfig} {parsed : ParsedHeader} {kind : Option RequestKind}
    {d : Direction} {info : MessageInfo} {state : BodyState} (hinfo : info.Of d)
    (h : Feed.framing cfg parsed kind info = some state) : state.Of d := by
  unfold Feed.framing at h
  split at h
  · obtain rfl := Option.some.inj h
    trivial
  split at h
  · split_ifs at h
    all_goals
      obtain rfl := Option.some.inj h
      exact hinfo
  split at h
  next len hlen =>
    split_ifs at h with hzero
    · obtain rfl := Option.some.inj h
      trivial
    · obtain rfl := Option.some.inj h
      exact hinfo
    · obtain rfl := Option.some.inj h
      exact ⟨Nat.pos_of_ne_zero hzero, hinfo⟩
  next =>
    obtain rfl := Option.some.inj h
    exact hinfo

/-- A decoded body is not on the wire. -/
def Hidden (d : Direction) (record : Option HttpContent) : Prop :=
  ∀ r ∈ record, r.direction = d ∧ ¬IsWire r.view

theorem Hidden.ite {d : Direction} {record : Option HttpContent} (h : Hidden d record) (p : Prop)
    [Decidable p] : Hidden d (if p then record else none) := by
  split_ifs
  · exact h
  · intro r hr
    cases hr

theorem Hidden.own {d : Direction} {record : Option HttpContent} (h : Hidden d record)
    (info : MessageInfo) : Own d (record.toList.map (contentEvent info)) := by
  intro e he r hr
  obtain ⟨decoded, hdecoded, rfl⟩ := List.mem_map.mp he
  obtain rfl := List.mem_singleton.mp hr
  exact (h _ (Option.mem_toList.mp hdecoded)).1

theorem Hidden.wireRecords {d : Direction} {record : Option HttpContent} (h : Hidden d record)
    (info : MessageInfo) : wireRecords d (record.toList.map (contentEvent info)) = [] := by
  rw [Http.wireRecords, List.filter_eq_nil_iff]
  intro r hr
  obtain ⟨e, he, hre⟩ := List.mem_flatMap.mp hr
  obtain ⟨decoded, hdecoded, rfl⟩ := List.mem_map.mp he
  obtain rfl := List.mem_singleton.mp hre
  simp [(h r (Option.mem_toList.mp hdecoded)).2]

section Events

variable {d : Direction} {info : MessageInfo} (hinfo : info.Of d)

include hinfo

theorem own_bodyEvent (offset : ℕ) (data : Bytes) :
    Own d [contentEvent info (bodyRecord info offset data)] := by
  intro e he r hr
  obtain rfl := List.mem_singleton.mp he
  obtain rfl := List.mem_singleton.mp hr
  exact hinfo.direction

theorem wireRecords_bodyEvent (offset : ℕ) (data : Bytes) :
    wireRecords d [contentEvent info (bodyRecord info offset data)] =
      [bodyRecord info offset data] := by
  simp [wireRecords, contentEvent, bodyRecord, hinfo.direction, hinfo.body]

theorem hidden_decodedRecord (cfg : HttpConfig) (offset : ℕ) (compressed : Bytes) :
    Hidden d (decodedRecord cfg info offset compressed) := by
  intro r h
  unfold decodedRecord at h
  dsimp only at h
  split_ifs at h
  · cases h
  · cases h
  · obtain ⟨decoded, -, rfl⟩ := Option.map_eq_some_iff.mp h
    exact ⟨hinfo.direction, hinfo.decoded⟩

theorem own_chunkEvents (base : ℕ) (chunks : List ChunkData) :
    Own d (Feed.chunkEvents info base chunks) := by
  intro e he r hr
  obtain ⟨chunk, -, rfl⟩ := List.mem_map.mp he
  obtain rfl := List.mem_singleton.mp hr
  exact hinfo.direction

theorem pieces_chunkEvents {base : ℕ} {chunks : List ChunkData}
    (hbound : ∀ chunk ∈ chunks, base + chunk.relativeOffset ≤ u64Max) :
    pieces (wireRecords d (Feed.chunkEvents info base chunks)) =
      (chunks.map fun q ↦ (q.relativeOffset, q.data)).map fun q ↦ (base + q.1, q.2) := by
  induction chunks with
  | nil => rfl
  | cons chunk chunks ih =>
      have hfirst := hbound chunk List.mem_cons_self
      have hrest := ih fun q hq ↦ hbound q (List.mem_cons_of_mem chunk hq)
      have hcons : Feed.chunkEvents info base (chunk :: chunks) =
          [contentEvent info (bodyRecord info (satAdd base chunk.relativeOffset) chunk.data)] ++
            Feed.chunkEvents info base chunks := rfl
      rw [hcons, wireRecords_append, wireRecords_bodyEvent hinfo, satAdd_of_le hfirst, pieces,
        List.map_append, ← pieces, ← pieces, hrest]
      rfl

end Events

end Records

section Moves

/-- From `f` to `f'` the parser passes over `k` bytes and emits stretches of them. -/
structure Moves (d : Direction) (f f' : Feed) (k : ℕ) (es : List HttpEmission) : Prop where
  passes : f.parser.Passes f'.parser k
  events : f'.report.events = f.report.events ++ es
  placed : f.parser.streamOffset + f.parser.buffer.length ≤ u64Max →
    ∃ qs, PlacedIn f.parser.buffer k qs ∧
      pieces (wireRecords d es) = qs.map fun q ↦ (f.parser.streamOffset + q.1, q.2)
  own : Own d es
  state : f'.parser.state.Of d
  mode : f'.mode = f.mode

variable {cfg : HttpConfig} {c : StreamChunk} {d : Direction} {f f' : Feed} {k : ℕ}

/-- A move that emits nothing. -/
theorem Moves.silent (hpasses : f.parser.Passes f'.parser k)
    (hevents : f'.report.events = f.report.events) (hstate : f'.parser.state.Of d)
    (hmode : f'.mode = f.mode) : Moves d f f' k [] where
  passes := hpasses
  events := by simp [hevents]
  placed _ := ⟨[], .nil _ _, rfl⟩
  own := by simp [Own]
  state := hstate
  mode := hmode

/-- A move over `k` bytes of a body, of which the first `n` are captured, with a decoded
body at the end. -/
theorem Moves.body {info : MessageInfo} (n : ℕ) (decoded : Option HttpContent)
    (hinfo : info.Of d) (hpasses : f.parser.Passes f'.parser k) (hn : n ≠ 0) (hle : n ≤ k)
    (hdecoded : Hidden d decoded)
    (hevents : f'.report.events = f.report.events ++
      [contentEvent info (bodyRecord info f.parser.streamOffset (f.parser.buffer.take n))] ++
        decoded.toList.map (contentEvent info))
    (hstate : f'.parser.state.Of d) (hmode : f'.mode = f.mode) : ∃ es, Moves d f f' k es := by
  refine ⟨_, hpasses, hevents.trans (List.append_assoc _ _ _), fun _ ↦ ?_, ?_, hstate, hmode⟩
  · refine ⟨_, placedIn_singleton hn hle (hle.trans hpasses.le), ?_⟩
    rw [wireRecords_append, wireRecords_bodyEvent hinfo, hdecoded.wireRecords]
    rfl
  · exact (own_bodyEvent hinfo _ _).append (hdecoded.own info)

theorem hidden_none : Hidden d none := by
  intro r hr
  cases hr

theorem moves_turnFixed {remaining : ℕ} {info : MessageInfo} {compressed : Bytes}
    (hpos : 0 < remaining) (hinfo : info.Of d)
    (hstate : f.parser.state = .fixed remaining info compressed) :
    ∃ k es, Moves d f (Feed.turnFixed cfg f remaining info compressed).state k es := by
  have hold : f.parser.state.Of d := by
    rw [hstate]
    exact ⟨hpos, hinfo⟩
  unfold Feed.turnFixed
  split_ifs with hempty
  · exact ⟨0, [], .silent .refl rfl hold rfl⟩
  · have hlen : 0 < f.parser.buffer.length := List.length_pos_of_ne_nil hempty
    have htake : min remaining f.parser.buffer.length ≠ 0 := by omega
    have hpasses := HttpStreamParser.passes_advance (min_le_right remaining f.parser.buffer.length)
    have hdecoded := hidden_decodedRecord hinfo cfg
      (f.parser.advance (min remaining f.parser.buffer.length)).streamOffset
      (collectCompressed cfg info compressed
        (f.parser.buffer.take (min remaining f.parser.buffer.length)))
    dsimp only
    split_ifs with hdone
    · exact ⟨_, Moves.body _ _ hinfo
        ⟨hpasses.le, hpasses.buffer, hpasses.offset, hpasses.next⟩ htake le_rfl hdecoded rfl
        trivial rfl⟩
    · exact ⟨_, Moves.body _ none hinfo
        ⟨hpasses.le, hpasses.buffer, hpasses.offset, hpasses.next⟩ htake le_rfl hidden_none
        (List.append_nil _).symm ⟨by omega, hinfo⟩ rfl⟩

theorem moves_turnSkipFixed {remaining captureRemaining : ℕ} {info : MessageInfo}
    (hinfo : info.Of d) (hstate : f.parser.state = .skipFixed remaining captureRemaining info) :
    ∃ k es, Moves d f (Feed.turnSkipFixed f remaining captureRemaining info).state k es := by
  have hold : f.parser.state.Of d := by
    rw [hstate]
    exact hinfo
  have hpasses := HttpStreamParser.passes_advance (min_le_right remaining f.parser.buffer.length)
  unfold Feed.turnSkipFixed
  split_ifs with hempty
  · exact ⟨0, [], .silent .refl rfl hold rfl⟩
  · dsimp only
    by_cases hcollect : min (min remaining f.parser.buffer.length) captureRemaining = 0
    · simp only [hcollect, if_true]
      split_ifs
      · exact ⟨_, [], .silent ⟨hpasses.le, hpasses.buffer, hpasses.offset, hpasses.next⟩
          (List.append_nil _) trivial rfl⟩
      · exact ⟨_, [], .silent ⟨hpasses.le, hpasses.buffer, hpasses.offset, hpasses.next⟩
          (List.append_nil _) hinfo rfl⟩
    · simp only [hcollect, if_false]
      split_ifs
      · exact ⟨_, Moves.body _ none hinfo
          ⟨hpasses.le, hpasses.buffer, hpasses.offset, hpasses.next⟩ hcollect (min_le_left _ _)
          hidden_none (List.append_nil _).symm trivial rfl⟩
      · exact ⟨_, Moves.body _ none hinfo
          ⟨hpasses.le, hpasses.buffer, hpasses.offset, hpasses.next⟩ hcollect (min_le_left _ _)
          hidden_none (List.append_nil _).symm hinfo rfl⟩

theorem moves_turnUntilClose {info : MessageInfo} {compressed : Bytes} {bodySeen : ℕ}
    {captureBody : Bool} (hinfo : info.Of d)
    (hstate : f.parser.state = .untilClose info compressed bodySeen captureBody) :
    ∃ k es, Moves d f
      (Feed.turnUntilClose cfg f info compressed bodySeen captureBody).state k es := by
  have hold : f.parser.state.Of d := by
    rw [hstate]
    exact hinfo
  have hpasses := HttpStreamParser.passes_advance (le_refl f.parser.buffer.length)
  unfold Feed.turnUntilClose
  split_ifs with hempty
  · exact ⟨0, [], .silent .refl rfl hold rfl⟩
  · dsimp only
    by_cases hcollect : min f.parser.buffer.length
        (Feed.collectRemaining cfg bodySeen captureBody) = 0
    · simp only [hcollect, if_true]
      exact ⟨_, [], .silent ⟨hpasses.le, hpasses.buffer, hpasses.offset, hpasses.next⟩
        (List.append_nil _) hinfo rfl⟩
    · simp only [hcollect, if_false]
      exact ⟨_, Moves.body _ none hinfo
        ⟨hpasses.le, hpasses.buffer, hpasses.offset, hpasses.next⟩ hcollect (min_le_left _ _)
        hidden_none (List.append_nil _).symm hinfo rfl⟩

/-- A move that emits the data of chunks, with a decoded body at the end. -/
theorem Moves.chunks {info : MessageInfo} {chunks : List ChunkData} (decoded : Option HttpContent)
    (hinfo : info.Of d) (hpasses : f.parser.Passes f'.parser k)
    (hplaced : PlacedIn f.parser.buffer k (chunks.map fun q ↦ (q.relativeOffset, q.data)))
    (hdecoded : Hidden d decoded)
    (hevents : f'.report.events = f.report.events ++
      Feed.chunkEvents info f.parser.streamOffset chunks ++
        decoded.toList.map (contentEvent info))
    (hstate : f'.parser.state.Of d) (hmode : f'.mode = f.mode) : ∃ es, Moves d f f' k es := by
  refine ⟨_, hpasses, hevents.trans (List.append_assoc _ _ _), fun hbound ↦ ?_, ?_, hstate, hmode⟩
  · refine ⟨_, hplaced, ?_⟩
    rw [wireRecords_append, hdecoded.wireRecords, List.append_nil]
    refine pieces_chunkEvents hinfo fun chunk hchunk ↦ ?_
    have hwithin := hplaced.within _ (List.mem_map_of_mem hchunk)
    have hle := hpasses.le
    dsimp only at hwithin
    omega
  · exact (own_chunkEvents hinfo _ _).append (hdecoded.own info)

theorem moves_turnChunked {info : MessageInfo} {decoder : ChunkedDecoder} {compressed : Bytes}
    {bodySeen : ℕ} {captureBody : Bool} (hinfo : info.Of d)
    (hstate : f.parser.state = .chunked info decoder compressed bodySeen captureBody) :
    ∃ k es, Moves d f
      (Feed.turnChunked cfg f info decoder compressed bodySeen captureBody).state k es := by
  have hold : f.parser.state.Of d := by
    rw [hstate]
    exact hinfo
  obtain ⟨k, hk, hbuf, hplaced⟩ := decoder.placed_consume f.parser.buffer cfg.httpMaxHeaderBytes
    (Feed.collectRemaining cfg bodySeen captureBody)
  unfold Feed.turnChunked
  split
  · exact ⟨0, [], .silent .refl rfl hold rfl⟩
  · dsimp only
    split
    next result hresult =>
      obtain ⟨hwire, hchunks⟩ := hplaced result hresult
      have hoffset : f.parser.streamOffset + k ≤ u64Max →
          satAdd f.parser.streamOffset result.wireConsumed = f.parser.streamOffset + k := by
        rw [hwire]
        exact satAdd_of_le
      split
      · exact ⟨k, Moves.chunks _ hinfo ⟨hk, hbuf, hoffset, rfl⟩ hchunks
          ((hidden_decodedRecord hinfo cfg _ _).ite _) rfl trivial rfl⟩
      · split
        all_goals
          exact ⟨k, Moves.chunks none hinfo ⟨hk, hbuf, hoffset, rfl⟩ hchunks hidden_none
            (List.append_nil _).symm hinfo rfl⟩
    next =>
      refine ⟨k, [], .silent ⟨hk, hbuf, fun hbound ↦ ?_, rfl⟩ rfl trivial rfl⟩
      have htaken : f.parser.buffer.length - (decoder.consume f.parser.buffer
          cfg.httpMaxHeaderBytes (Feed.collectRemaining cfg bodySeen captureBody)).buf.length =
          k := by
        rw [hbuf, List.length_drop]
        omega
      exact (congrArg (satAdd f.parser.streamOffset) htaken).trans (satAdd_of_le hbound)

/-- A header block is emitted where it was found. -/
theorem Moves.header {p : HttpStreamParser} {n : ℕ} {parsed : ParsedHeader}
    {info : Option HttpRecord} {reqDir : Option Direction} (hd : c.direction = d)
    (hready : f.parser.Passes p k) (hn : n ≠ 0) (hle : n ≤ p.buffer.length)
    (hpasses : p.Passes f'.parser n)
    (hevents : f'.report.events = f.report.events ++
      [⟨[Feed.headerRecord c parsed p.streamOffset (p.buffer.take n)], info, reqDir⟩])
    (hstate : f'.parser.state.Of d) (hmode : f'.mode = f.mode) :
    ∃ es, Moves d f f' (k + n) es := by
  have hview : IsWire (Feed.headerRecord c parsed p.streamOffset (p.buffer.take n)).view := by
    cases hrequest : parsed.request <;> simp [Feed.headerRecord, hrequest, IsWire]
  refine ⟨_, hready.trans hpasses, hevents, fun hbound ↦ ?_, ?_, hstate, hmode⟩
  · have hlen : (p.buffer.take n).length = n := by
      rw [List.length_take]
      omega
    refine ⟨[(k, p.buffer.take n)], (PlacedIn.nil _ 0).concat (Nat.zero_le k) ?_ ?_ ?_, ?_⟩
    · exact fun hnil ↦ hn (hlen.symm.trans (congrArg List.length hnil))
    · rw [hready.buffer]
      exact List.take_prefix _ _
    · rw [hlen]
    · have hk := hready.le
      have hrecords : wireRecords d
          [⟨[Feed.headerRecord c parsed p.streamOffset (p.buffer.take n)], info, reqDir⟩] =
          [Feed.headerRecord c parsed p.streamOffset (p.buffer.take n)] := by
        have hdirection : (Feed.headerRecord c parsed p.streamOffset
          (p.buffer.take n)).direction = d := hd
        simp [wireRecords, hdirection, hview]
      rw [hrecords, List.map_singleton, ← hready.offset (by omega)]
      rfl
  · intro e he r hr
    obtain rfl := List.mem_singleton.mp he
    obtain rfl := List.mem_singleton.mp hr
    exact hd

/-- A turn moves the parser on, or leaves it behind at the start of a tunnel. -/
def MovesOrTunnels (d : Direction) (f : Feed) (t : Turn Feed) : Prop :=
  (∃ k es, Moves d f t.state k es) ∨
    ∃ f' k es, Moves d f f' k es ∧ t = .stop { f' with mode := .tunnel, parser.buffer := [] }

theorem moves_onHeader {p : HttpStreamParser} {n : ℕ} {parsed : ParsedHeader}
    (hd : c.direction = d) (hready : f.parser.Passes p k) (hn : n ≠ 0)
    (hle : n ≤ p.buffer.length) :
    MovesOrTunnels d f (Feed.onHeader cfg c p.streamOffset (p.buffer.take n) parsed
      { f with parser := { p.advance n with headerScanFrom := 0 } }) := by
  have hpasses := HttpStreamParser.passes_advance hle
  unfold Feed.onHeader
  dsimp only
  split
  · obtain ⟨es, hmoves⟩ : ∃ es, Moves d f
        { Feed.noteHeader c p.streamOffset (p.buffer.take n) parsed
            { f with parser := { p.advance n with headerScanFrom := 0 } } with
          parser.state := .headers } (k + n) es :=
      Moves.header hd hready hn hle
        ⟨hpasses.le, hpasses.buffer, hpasses.offset, hpasses.next⟩ rfl trivial rfl
    exact .inr ⟨_, _, es, hmoves, rfl⟩
  · split
    next state hstate =>
      have hof := of_framing (hd ▸ of_messageInfo c parsed _) hstate
      exact .inl ⟨_, Moves.header hd hready hn hle
        ⟨hpasses.le, hpasses.buffer, hpasses.offset, hpasses.next⟩ rfl hof rfl⟩
    next =>
      exact .inl ⟨_, Moves.header hd hready hn hle
        ⟨hpasses.le, hpasses.buffer, hpasses.offset, hpasses.next⟩ rfl trivial rfl⟩

theorem moves_turnHeaders (hd : c.direction = d) (hstate : f.parser.state = .headers) :
    MovesOrTunnels d f (Feed.turnHeaders cfg c f) := by
  obtain ⟨k, hready⟩ : ∃ k, f.parser.Passes f.parser.ready.1 k := HttpStreamParser.passes_ready
  have hheaders : f.parser.ready.1.state.Of d := by
    rw [HttpStreamParser.state_ready, hstate]
    trivial
  unfold Feed.turnHeaders
  dsimp only
  split
  · exact .inl ⟨k, [], .silent hready rfl hheaders rfl⟩
  · split
    · split
      · let q : HttpStreamParser := { f.parser.ready.1 with synced := false, headerScanFrom := 0 }
        have hq : f.parser.Passes q k := ⟨hready.le, hready.buffer, hready.offset, hready.next⟩
        obtain ⟨l, htrim⟩ : ∃ l, q.Passes q.trimDesyncedSuffix l :=
          HttpStreamParser.passes_trimDesyncedSuffix
        refine .inl ⟨k + l, [], .silent (hq.trans htrim) rfl ?_ rfl⟩
        · simp only [Turn.state, HttpStreamParser.state_trimDesyncedSuffix]
          exact hheaders
      · exact .inl ⟨k, [], .silent ⟨hready.le, hready.buffer, hready.offset, hready.next⟩ rfl
          hheaders rfl⟩
    next finish hfinish =>
      have hle := findDoubleCrlfFrom_le hfinish
      split
      · have hpasses := hready.trans (HttpStreamParser.passes_advance hle)
        exact .inl ⟨_, [], .silent ⟨hpasses.le, hpasses.buffer, hpasses.offset, hpasses.next⟩ rfl
          hheaders rfl⟩
      · exact moves_onHeader hd hready (by omega) hle

theorem moves_turn (hd : c.direction = d) (hstate : f.parser.state.Of d) :
    MovesOrTunnels d f (Feed.turn cfg c f) := by
  unfold Feed.turn
  split
  next h => exact moves_turnHeaders hd h
  next h =>
    rw [h] at hstate
    exact .inl (moves_turnFixed hstate.1 hstate.2 h)
  next h =>
    rw [h] at hstate
    exact .inl (moves_turnSkipFixed hstate h)
  next h =>
    rw [h] at hstate
    exact .inl (moves_turnChunked hstate h)
  next h =>
    rw [h] at hstate
    exact .inl (moves_turnUntilClose hstate h)

end Moves

section Parser

variable {cfg : HttpConfig} {c : StreamChunk} {d : Direction} {known : ℕ → Option UInt8}
  {p : HttpStreamParser} {rs : List (ℕ × Bytes)} {f : Feed}

/-- The buffer is what comes next of the stream, and the records `rs` are what was before. -/
structure Faithful (known : ℕ → Option UInt8) (d : Direction) (p : HttpStreamParser)
    (rs : List (ℕ × Bytes)) : Prop where
  ledger : Ledger known p.streamOffset rs
  reads : ReadsAt known p.streamOffset p.buffer
  bound : p.streamOffset + p.buffer.length ≤ u64Max
  state : p.state.Of d
  next : ∀ n ∈ p.nextInputOffset, p.streamOffset + p.buffer.length = n
  fresh : p.nextInputOffset = none → p.buffer = [] ∧ rs = []

theorem faithful_new (known : ℕ → Option UInt8) (d : Direction) : Faithful known d {} [] where
  ledger := .nil _ _
  reads := readsAt_nil _ _
  bound := Nat.zero_le _
  state := trivial
  next := by simp
  fresh _ := ⟨rfl, rfl⟩

theorem Faithful.accept (h : Faithful known d p rs) (hreads : ReadsAt known c.offset c.data)
    (hbound : c.offset + c.data.length ≤ u64Max) (hahead : ∀ n ∈ p.nextInputOffset, n ≤ c.offset)
    (pending : List RequestKind) :
    Faithful known d (p.accept c pending).1 rs ∧
      (p.accept c pending).1.nextInputOffset = some (c.offset + c.data.length) := by
  have hnext : satAdd c.offset c.data.length = c.offset + c.data.length := satAdd_of_le hbound
  unfold HttpStreamParser.accept
  dsimp only
  rw [hnext]
  split
  next expected hexpected =>
    have hend := h.next expected hexpected
    have hle := hahead expected hexpected
    split
    · refine ⟨⟨h.ledger.mono ?_, hreads, hbound, trivial, by simp, by simp⟩, rfl⟩
      dsimp only
      omega
    next hsame =>
      obtain rfl := not_not.mp hsame
      refine ⟨⟨h.ledger, ?_, ?_, h.state, ?_, by simp⟩, rfl⟩
      · refine h.reads.append ?_
        rwa [hend]
      · simp only [List.length_append]
        omega
      · simp only [List.length_append, Option.mem_some_iff]
        omega
  next hnone =>
    obtain ⟨hempty, rfl⟩ := h.fresh hnone
    refine ⟨⟨.nil _ _, ?_, ?_, h.state, ?_, by simp⟩, rfl⟩
    · rw [hempty]
      exact hreads
    · rw [hempty]
      exact hbound
    · rw [hempty]
      simp

/-- A parser inside of `feed`, after the records `rs` of the calls before. -/
structure FaithfulFeed (known : ℕ → Option UInt8) (d : Direction) (rs : List (ℕ × Bytes))
    (next : ℕ) (f : Feed) : Prop where
  parser : Faithful known d f.parser (rs ++ pieces (wireRecords d f.report.events))
  next : f.parser.nextInputOffset = some next
  own : Own d f.report.events
  mode : f.mode = .http

/-- What `feed` leaves: the parser goes on, or its records are all there is before a tunnel. -/
structure FaithfulEnd (known : ℕ → Option UInt8) (d : Direction) (rs : List (ℕ × Bytes))
    (next : ℕ) (f : Feed) : Prop where
  http : f.mode = .http → FaithfulFeed known d rs next f
  ledger : ∃ bound, Ledger known bound (rs ++ pieces (wireRecords d f.report.events))
  own : Own d f.report.events

theorem FaithfulFeed.of_moves {next k : ℕ} {f' : Feed} {es : List HttpEmission}
    (h : FaithfulFeed known d rs next f) (hmoves : Moves d f f' k es) :
    FaithfulFeed known d rs next f' := by
  have hle := hmoves.passes.le
  have hbound := h.parser.bound
  have hoffset := hmoves.passes.offset (by omega)
  have hlen := hmoves.passes.length_le
  have hend := h.parser.next next h.next
  obtain ⟨qs, hplaced, hpieces⟩ := hmoves.placed hbound
  have hnext : f'.parser.nextInputOffset = some next := hmoves.passes.next.trans h.next
  have hall : rs ++ pieces (wireRecords d f'.report.events) =
      (rs ++ pieces (wireRecords d f.report.events)) ++
        qs.map fun q ↦ (f.parser.streamOffset + q.1, q.2) := by
    rw [hmoves.events, wireRecords_append, ← hpieces, List.append_assoc, pieces, List.map_append]
    rfl
  refine ⟨⟨?_, ?_, ?_, hmoves.state, ?_, ?_⟩, hnext, ?_, hmoves.mode.trans h.mode⟩
  · rw [hall, hoffset]
    exact h.parser.ledger.append_placed h.parser.reads hplaced
  · rw [hoffset, hmoves.passes.buffer]
    exact h.parser.reads.of_prefix_drop (List.prefix_refl _)
  · omega
  · rw [hnext]
    simp only [Option.mem_some_iff]
    omega
  · rw [hnext]
    simp
  · rw [hmoves.events]
    exact h.own.append hmoves.own

theorem FaithfulFeed.end {next : ℕ} (h : FaithfulFeed known d rs next f) :
    FaithfulEnd known d rs next f :=
  ⟨fun _ ↦ h, ⟨_, h.parser.ledger⟩, h.own⟩

theorem faithfulEnd_feed {p : HttpStreamParser} (hd : c.direction = d)
    (h : Faithful known d p rs) (hreads : ReadsAt known c.offset c.data)
    (hbound : c.offset + c.data.length ≤ u64Max) (hahead : ∀ n ∈ p.nextInputOffset, n ≤ c.offset)
    (pending : List RequestKind) (requestDirection : Option Direction) :
    FaithfulEnd known d rs (c.offset + c.data.length)
      (p.feed cfg c pending requestDirection) := by
  obtain ⟨haccept, hnext⟩ := h.accept hreads hbound hahead pending
  have hleaves : Leaves (Feed.turn cfg c) _ (p.feed cfg c pending requestDirection) :=
    leaves_loop (fun _ _ ↦ Feed.measure_turn) (Nat.lt_succ_self _)
  have hmove : ∀ f, FaithfulFeed known d rs (c.offset + c.data.length) f →
      MovesOrTunnels d f (Feed.turn cfg c f) := fun f hf ↦ moves_turn hd hf.parser.state
  refine hleaves.rule (I := FaithfulFeed known d rs (c.offset + c.data.length))
    (fun f f' hf hturn ↦ ?_) (fun f f' hf hturn ↦ ?_) ?_
  · rcases hmove f hf with ⟨k, es, hmoves⟩ | ⟨g, k, es, -, hstop⟩
    · rw [hturn] at hmoves
      exact hf.of_moves hmoves
    · rw [hturn] at hstop
      cases hstop
  · rcases hmove f hf with ⟨k, es, hmoves⟩ | ⟨g, k, es, hmoves, hstop⟩
    · rw [hturn] at hmoves
      exact (hf.of_moves hmoves).end
    · rw [hturn] at hstop
      obtain rfl := Turn.stop.inj hstop
      have hg := hf.of_moves hmoves
      exact ⟨fun hmode ↦ (by cases hmode), ⟨_, hg.parser.ledger⟩, hg.own⟩
  · refine ⟨?_, hnext, by simp [Own], rfl⟩
    show Faithful known d (p.accept c pending).1 (rs ++ [])
    rwa [List.append_nil]

/-- The events are about stretches of the buffer, in order. -/
def Emits (d : Direction) (p : HttpStreamParser) (es : List HttpEmission) : Prop :=
  Own d es ∧ ∃ k qs, PlacedIn p.buffer k qs ∧
    pieces (wireRecords d es) = qs.map fun q ↦ (p.streamOffset + q.1, q.2)

theorem emits_nil : Emits d p [] := ⟨by simp [Own], 0, [], .nil _ _, rfl⟩

theorem emits_body {info : MessageInfo} {n : ℕ} (hinfo : info.Of d) (hn : n ≠ 0)
    (hle : n ≤ p.buffer.length) :
    Emits d p [contentEvent info (bodyRecord info p.streamOffset (p.buffer.take n))] := by
  refine ⟨own_bodyEvent hinfo _ _, n, _, placedIn_singleton hn le_rfl hle, ?_⟩
  rw [wireRecords_bodyEvent hinfo]
  rfl

theorem Emits.append_decoded {es : List HttpEmission} {decoded : Option HttpContent}
    (h : Emits d p es) (hdecoded : Hidden d decoded) (info : MessageInfo) :
    Emits d p (es ++ decoded.toList.map (contentEvent info)) := by
  obtain ⟨hown, k, qs, hqs, hpieces⟩ := h
  refine ⟨hown.append (hdecoded.own info), k, qs, hqs, ?_⟩
  rw [wireRecords_append, hdecoded.wireRecords, List.append_nil, hpieces]

theorem emits_finish (hstate : p.state.Of d) (hbound : p.streamOffset + p.buffer.length ≤ u64Max)
    (cfg : HttpConfig) : Emits d p (p.finish cfg) := by
  unfold HttpStreamParser.finish
  split
  · exact emits_nil
  next remaining info compressed hs =>
    rw [hs] at hstate
    dsimp only
    refine Emits.append_decoded ?_ ((hidden_decodedRecord hstate.2 cfg _ _).ite _) info
    split_ifs with htake
    · exact emits_nil
    · exact emits_body hstate.2 htake (min_le_right _ _)
  next remaining captureRemaining info hs =>
    rw [hs] at hstate
    dsimp only
    split_ifs with hcollect
    · exact emits_nil
    · exact emits_body hstate hcollect ((min_le_left _ _).trans (min_le_right _ _))
  next info decoder compressed bodySeen captureBody hs =>
    rw [hs] at hstate
    obtain ⟨k, hk, -, hplaced⟩ := decoder.placed_consume p.buffer cfg.httpMaxHeaderBytes
      (Feed.collectRemaining cfg bodySeen captureBody)
    dsimp only
    split
    · exact emits_nil
    next result hresult =>
      obtain ⟨-, hchunks⟩ := hplaced result hresult
      refine Emits.append_decoded ⟨own_chunkEvents hstate _ _, k, _, hchunks, ?_⟩
        ((hidden_decodedRecord hstate cfg _ _).ite _) info
      refine pieces_chunkEvents hstate fun chunk hchunk ↦ ?_
      have hwithin := hchunks.within _ (List.mem_map_of_mem hchunk)
      dsimp only at hwithin
      omega
  next info compressed bodySeen captureBody hs =>
    rw [hs] at hstate
    dsimp only
    refine Emits.append_decoded ?_ ((hidden_decodedRecord hstate cfg _ _).ite _) info
    split_ifs with hcollect
    · exact emits_nil
    · exact emits_body hstate hcollect (min_le_left _ _)

/-- What is emitted at the end is taken from the buffer. -/
theorem Faithful.finish (h : Faithful known d p rs) (cfg : HttpConfig) :
    Own d (p.finish cfg) ∧
      ∃ bound, Ledger known bound (rs ++ pieces (wireRecords d (p.finish cfg))) := by
  obtain ⟨hown, k, qs, hqs, hpieces⟩ := emits_finish h.state h.bound cfg
  refine ⟨hown, p.streamOffset + k, ?_⟩
  rw [hpieces]
  exact h.ledger.append_placed h.reads hqs

end Parser

section Connection

/-- A connection with everything it has emitted. -/
structure Fed where
  connection : HttpConnection := {}
  events : List HttpEmission := []
  deriving DecidableEq, Repr

def Fed.feed (cfg : HttpConfig) (s : Fed) (c : StreamChunk) : Fed :=
  let (connection, report) := s.connection.feed cfg c
  { connection := connection, events := s.events ++ report.events }

def feedAll (cfg : HttpConfig) (cs : List StreamChunk) : Fed := runFrom (Fed.feed cfg) {} cs

/-- The events of a whole connection, up to its end. -/
def allEvents (cfg : HttpConfig) (cs : List StreamChunk) : List HttpEmission :=
  (feedAll cfg cs).events ++ (feedAll cfg cs).connection.finish cfg

/-- The bytes of a direction, where a chunk has them. -/
def rawAt (cs : List StreamChunk) (d : Direction) (k : ℕ) : Option UInt8 :=
  (cs.find? fun c ↦ decide (c.direction = d ∧ c.offset ≤ k ∧ k < c.offset + c.data.length)).bind
    fun c ↦ c.data[k - c.offset]?

/-- Chunks as reassembly produces them: not empty, and one after the other within a
direction. -/
structure Admissible (cs : List StreamChunk) : Prop where
  nonempty : ∀ c ∈ cs, c.data ≠ []
  bounded : ∀ c ∈ cs, c.offset + c.data.length ≤ u64Max
  apart : cs.Pairwise fun c c' ↦
    c.direction = c'.direction → c.offset + c.data.length ≤ c'.offset

theorem readsAt_rawAt {cs : List StreamChunk} (h : Admissible cs) {c : StreamChunk} (hc : c ∈ cs) :
    ReadsAt (rawAt cs c.direction) c.offset c.data := by
  intro i hi
  have hsome : (cs.find? fun c' ↦ decide (c'.direction = c.direction ∧ c'.offset ≤ c.offset + i ∧
      c.offset + i < c'.offset + c'.data.length)).isSome := by
    rw [List.find?_isSome]
    exact ⟨c, hc, by simp [hi]⟩
  obtain ⟨c', hc'⟩ := Option.isSome_iff_exists.mp hsome
  have hcovers := List.find?_some hc'
  rw [decide_eq_true_eq] at hcovers
  obtain ⟨hdirection, hstart, hend⟩ := hcovers
  -- two chunks of one direction that share a position are the same
  have hsame : c' = c := by
    by_contra hne
    obtain ⟨a, ha, rfl⟩ := List.getElem_of_mem hc
    obtain ⟨b, hb, rfl⟩ := List.getElem_of_mem (List.mem_of_find?_eq_some hc')
    rcases Nat.lt_trichotomy a b with hlt | rfl | hgt
    · have := List.pairwise_iff_getElem.mp h.apart a b ha hb hlt hdirection.symm
      omega
    · exact hne rfl
    · have := List.pairwise_iff_getElem.mp h.apart b a hb ha hgt hdirection
      omega
  rw [rawAt, hc', hsame, Option.bind_some, Nat.add_sub_cancel_left, List.getElem?_eq_getElem hi]

/-- The parsers of a connection before the chunks `rest`, with what has been emitted. -/
structure FedFaithful (known : Direction → ℕ → Option UInt8) (rest : List StreamChunk)
    (s : Fed) : Prop where
  http : s.connection.mode = .http → ∀ d,
    Faithful (known d) d (s.connection.parser d) (pieces (wireRecords d s.events))
  ledger : ∀ d, ∃ bound, Ledger (known d) bound (pieces (wireRecords d s.events))
  ahead : s.connection.mode = .http → ∀ c ∈ rest,
    ∀ n ∈ (s.connection.parser c.direction).nextInputOffset, n ≤ c.offset

variable {cfg : HttpConfig} {known : Direction → ℕ → Option UInt8} {c : StreamChunk}
  {cs : List StreamChunk} {s : Fed}

theorem pieces_wireRecords_append (d : Direction) (es es' : List HttpEmission) :
    pieces (wireRecords d (es ++ es')) = pieces (wireRecords d es) ++ pieces (wireRecords d es') := by
  rw [wireRecords_append, pieces, List.map_append]
  rfl

theorem pieces_of_own {d d' : Direction} {es es' : List HttpEmission} (h : Own d es')
    (hd : d' ≠ d) : pieces (wireRecords d' (es ++ es')) = pieces (wireRecords d' es) := by
  rw [wireRecords_append, wireRecords_of_own h hd, List.append_nil]

/-- The parser of a chunk after the chunk. -/
def Fed.next (cfg : HttpConfig) (s : Fed) (c : StreamChunk) : Feed :=
  (s.connection.parser c.direction).feed cfg c s.connection.pendingRequests
    s.connection.requestDirection

theorem Fed.feed_of_http (cfg : HttpConfig) (c : StreamChunk) (hmode : s.connection.mode = .http) :
    (s.feed cfg c).events = s.events ++ (s.next cfg c).report.events ∧
      (s.feed cfg c).connection.mode = (s.next cfg c).mode ∧
      (s.feed cfg c).connection.parser c.direction = (s.next cfg c).parser ∧
      ∀ d ≠ c.direction, (s.feed cfg c).connection.parser d = s.connection.parser d := by
  have hne : s.connection.mode ≠ .tunnel := by simp [hmode]
  simp only [Fed.feed, HttpConnection.feed, if_neg hne]
  refine ⟨rfl, HttpConnection.mode_setParser _ _ _, HttpConnection.parser_setParser_self _ _ _,
    fun d hd ↦ ?_⟩
  rw [HttpConnection.parser_setParser_of_ne _ _ hd]
  cases d <;> rfl

theorem Fed.feed_of_tunnel (hmode : s.connection.mode = .tunnel) : s.feed cfg c = s := by
  simp [Fed.feed, HttpConnection.feed, hmode]

theorem FedFaithful.next (cfg : HttpConfig) (h : FedFaithful known (c :: cs) s)
    (hmode : s.connection.mode = .http)
    (hreads : ReadsAt (known c.direction) c.offset c.data)
    (hbound : c.offset + c.data.length ≤ u64Max) :
    FaithfulEnd (known c.direction) c.direction (pieces (wireRecords c.direction s.events))
      (c.offset + c.data.length) (s.next cfg c) :=
  faithfulEnd_feed rfl (h.http hmode c.direction) hreads hbound
    (h.ahead hmode c List.mem_cons_self) _ _

theorem FedFaithful.feed (h : FedFaithful known (c :: cs) s)
    (hreads : ReadsAt (known c.direction) c.offset c.data)
    (hbound : c.offset + c.data.length ≤ u64Max)
    (hlater : ∀ c' ∈ cs, c.direction = c'.direction → c.offset + c.data.length ≤ c'.offset) :
    FedFaithful known cs (s.feed cfg c) := by
  cases hmode : s.connection.mode with
  | tunnel =>
      rw [Fed.feed_of_tunnel hmode]
      exact ⟨h.http, h.ledger, fun hm c' hc' ↦ h.ahead hm c' (List.mem_cons_of_mem c hc')⟩
  | http =>
      have hend := h.next cfg hmode hreads hbound
      obtain ⟨hevents, hmode', hself, hother⟩ := Fed.feed_of_http cfg c hmode
      refine ⟨fun hm d ↦ ?_, fun d ↦ ?_, fun hm c' hc' ↦ ?_⟩
      · rw [hevents]
        by_cases hd : d = c.direction
        · subst hd
          rw [hself, pieces_wireRecords_append]
          exact (hend.http (hmode' ▸ hm)).parser
        · rw [hother d hd, pieces_of_own hend.own hd]
          exact h.http hmode d
      · rw [hevents]
        by_cases hd : d = c.direction
        · subst hd
          rw [pieces_wireRecords_append]
          exact hend.ledger
        · rw [pieces_of_own hend.own hd]
          exact h.ledger d
      · by_cases hd : c'.direction = c.direction
        · rw [hd, hself, (hend.http (hmode' ▸ hm)).next]
          simpa using hlater c' hc' hd.symm
        · rw [hother _ hd]
          exact h.ahead hmode c' (List.mem_cons_of_mem c hc')

/-- The run lemma: after any part of the chunks the parsers are where the stream is. -/
theorem fedFaithful_runFrom {as bs : List StreamChunk} (h : Admissible (as ++ bs)) {s : Fed}
    (hs : FedFaithful known (as ++ bs) s)
    (hreads : ∀ c ∈ as, ReadsAt (known c.direction) c.offset c.data) :
    FedFaithful known bs (runFrom (Fed.feed cfg) s as) := by
  induction as generalizing s with
  | nil => exact hs
  | cons c as ih =>
      have hapart := List.pairwise_cons.mp h.apart
      have hnext : FedFaithful known (as ++ bs) (s.feed cfg c) :=
        hs.feed (hreads c List.mem_cons_self) (h.bounded c List.mem_cons_self) hapart.1
      refine ih ⟨fun c' hc' ↦ h.nonempty c' (List.mem_cons_of_mem c hc'),
        fun c' hc' ↦ h.bounded c' (List.mem_cons_of_mem c hc'), hapart.2⟩ hnext
        fun c' hc' ↦ hreads c' (List.mem_cons_of_mem c hc')

theorem fedFaithful_feedAll {as bs : List StreamChunk} (h : Admissible (as ++ bs)) :
    FedFaithful (rawAt (as ++ bs)) bs (feedAll cfg as) := by
  refine fedFaithful_runFrom h ⟨fun _ d ↦ ?_, fun d ↦ ⟨0, .nil _ _⟩, fun _ c _ n hn ↦ ?_⟩
    fun c hc ↦ readsAt_rawAt h (List.mem_append_left bs hc)
  · cases d <;> exact faithful_new _ _
  · cases hd : c.direction <;> rw [hd] at hn <;> cases hn

theorem ledger_allEvents (h : Admissible cs) (d : Direction) :
    ∃ bound, Ledger (rawAt cs d) bound (pieces (wireRecords d (allEvents cfg cs))) := by
  have hfed : FedFaithful (rawAt cs) [] (feedAll cfg cs) := by
    have hall : FedFaithful (rawAt (cs ++ [])) [] (feedAll cfg cs) :=
      fedFaithful_feedAll (by rwa [List.append_nil])
    rwa [List.append_nil] at hall
  unfold allEvents HttpConnection.finish
  split_ifs with hmode
  · rw [List.append_nil]
    exact hfed.ledger d
  · have hhttp : (feedAll cfg cs).connection.mode = .http := by
      cases hm : (feedAll cfg cs).connection.mode with
      | http => rfl
      | tunnel => exact absurd hm hmode
    have hab := (hfed.http hhttp .aToB).finish cfg
    have hba := (hfed.http hhttp .bToA).finish cfg
    simp only [HttpConnection.parser] at hab hba
    cases d with
    | aToB =>
        rw [← List.append_assoc, pieces_of_own hba.1 (by simp), pieces_wireRecords_append]
        exact hab.2
    | bToA =>
        rw [← List.append_assoc, pieces_wireRecords_append, pieces_of_own hab.1 (by simp)]
        exact hba.2

/-- Records are stretches of the raw bytes, they follow each other within a direction, and
the parser of a direction knows where it is in the stream. -/
structure WireFaithful (cfg : HttpConfig) (cs : List StreamChunk) : Prop where
  raw : ∀ d, ∀ r ∈ wireRecords d (allEvents cfg cs), ∀ i (h : i < r.data.length),
    rawAt cs d (r.streamOffset + i) = some r.data[i]
  increasing : ∀ d, (wireRecords d (allEvents cfg cs)).Pairwise fun r r' ↦
    r.streamOffset < r'.streamOffset ∧ r.streamOffset + r.data.length ≤ r'.streamOffset
  accounted : ∀ as c bs, cs = as ++ c :: bs →
    (feedAll cfg (as ++ [c])).connection.mode = .http →
    let p := (feedAll cfg (as ++ [c])).connection.parser c.direction
    p.nextInputOffset = some (p.streamOffset + p.buffer.length)

theorem accounted_feedAll {as bs : List StreamChunk} (h : Admissible (as ++ c :: bs))
    (hmode : (feedAll cfg (as ++ [c])).connection.mode = .http) :
    ((feedAll cfg (as ++ [c])).connection.parser c.direction).nextInputOffset =
      some (((feedAll cfg (as ++ [c])).connection.parser c.direction).streamOffset +
        ((feedAll cfg (as ++ [c])).connection.parser c.direction).buffer.length) := by
  have hbefore : FedFaithful (rawAt (as ++ c :: bs)) (c :: bs) (feedAll cfg as) :=
    fedFaithful_feedAll h
  have hmem : c ∈ as ++ c :: bs := List.mem_append_right as List.mem_cons_self
  have hstep : feedAll cfg (as ++ [c]) = (feedAll cfg as).feed cfg c := by
    rw [feedAll, runFrom_append]
    rfl
  rw [hstep] at hmode ⊢
  cases hm : (feedAll cfg as).connection.mode with
  | tunnel =>
      rw [Fed.feed_of_tunnel hm, hm] at hmode
      cases hmode
  | http =>
      obtain ⟨-, hmode', hself, -⟩ := Fed.feed_of_http cfg c hm
      have hend := (hbefore.next cfg hm (readsAt_rawAt h hmem) (h.bounded c hmem)).http
        (hmode' ▸ hmode)
      rw [hself, hend.next, hend.parser.next _ hend.next]

theorem wireFaithful_of_admissible (cfg : HttpConfig) (cs : List StreamChunk)
    (h : Admissible cs) : WireFaithful cfg cs := by
  refine ⟨fun d r hr ↦ ?_, fun d ↦ ?_, ?_⟩
  · obtain ⟨bound, hledger⟩ : ∃ bound, Ledger (rawAt cs d) bound _ := ledger_allEvents h d
    exact hledger.reads _ (List.mem_map_of_mem hr)
  · obtain ⟨bound, hledger⟩ : ∃ bound, Ledger (rawAt cs d) bound _ := ledger_allEvents h d
    have hpairs := List.pairwise_map.mp hledger.apart
    refine hpairs.imp_of_mem fun {r r'} hr _ (hle : r.streamOffset + r.data.length ≤ _) ↦ ?_
    have hne := hledger.nonempty _ (List.mem_map_of_mem hr)
    have hpos : 0 < r.data.length := List.length_pos_of_ne_nil hne
    exact ⟨by omega, hle⟩
  · rintro as c bs rfl hmode
    exact accounted_feedAll h hmode

def postHeader : Bytes := ascii "POST / HTTP/1.1\r\nContent-Length: 5\r\n\r\n"

def postConfig : HttpConfig where
  httpMaxHeaderBytes := 131072
  httpMaxBodyBytes := 67108864
  httpMaxDecodeBytes := 16777216
  httpMaxDecodeRatio := 32
  parseHeader header := if header = postHeader then
      some { request := true, method := some "POST", path := some "/", contentLength := some 5 }
    else none
  inflate _ _ := none

/-- A request whose header block and body are cut, and then a gap. -/
def postChunks : List StreamChunk :=
  [{ flowId := 0, tsNs := 1, direction := .aToB, offset := 0, data := postHeader.take 20 },
    { flowId := 0, tsNs := 2, direction := .aToB, offset := 20
      data := postHeader.drop 20 ++ ascii "he" },
    { flowId := 0, tsNs := 3, direction := .aToB, offset := 40, data := ascii "ll" },
    { flowId := 0, tsNs := 4, direction := .aToB, offset := 60, data := ascii "lost" }]

theorem wireFaithful_postChunks : Admissible postChunks ∧ WireFaithful postConfig postChunks ∧
    pieces (wireRecords .aToB (allEvents postConfig postChunks)) =
      [(0, postHeader), (38, ascii "he"), (40, ascii "ll")] := by
  have hadmissible : Admissible postChunks :=
    ⟨by decide +kernel, by decide +kernel, by decide +kernel⟩
  exact ⟨hadmissible, wireFaithful_of_admissible postConfig postChunks hadmissible,
    by decide +kernel⟩

end Connection

end Bazalt.Http
