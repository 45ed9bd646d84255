import Bazalt.Http.Worker

/-!
# What is stored of a flow

The records of a flow are the raw chunks, each as it came, and what the parser made of those
that it was given.  The records of the parser carry the flow's identifier and are never raw,
and the headers and wire bodies among them are stretches of the raw records of the flow.
-/

namespace Bazalt.Http

open Lib Bazalt.Flow Services

/-! ## The records of a parser -/

/-- A message of the flow, whose bodies are not raw. -/
structure MessageInfo.About (id : Uuid) (info : MessageInfo) : Prop where
  flowId : info.flowId = id
  body : info.bodyView ≠ .tcpRaw
  decoded : info.decodedView ≠ .tcpRaw

def BodyState.About (id : Uuid) : BodyState → Prop
  | .headers => True
  | .fixed _ info _ => info.About id
  | .skipFixed _ _ info => info.About id
  | .chunked info _ _ _ _ => info.About id
  | .untilClose info _ _ _ => info.About id

def HttpContent.About (id : Uuid) (c : HttpContent) : Prop := c.flowId = id ∧ c.view ≠ .tcpRaw

def EventsAbout (id : Uuid) (es : List HttpEmission) : Prop :=
  ∀ e ∈ es, ∀ c ∈ e.content, c.About id

structure Feed.About (id : Uuid) (f : Feed) : Prop where
  state : f.parser.state.About id
  events : EventsAbout id f.report.events

section

variable {id : Uuid} {cfg : HttpConfig} {c : StreamChunk} {f : Feed} {info : MessageInfo}

theorem eventsAbout_nil : EventsAbout id [] := fun _ he ↦ absurd he List.not_mem_nil

theorem EventsAbout.append {es es' : List HttpEmission} (h : EventsAbout id es)
    (h' : EventsAbout id es') : EventsAbout id (es ++ es') := by
  intro e he
  rcases List.mem_append.mp he with he | he
  · exact h e he
  · exact h' e he

theorem eventsAbout_contentEvents {cs : List HttpContent} (h : ∀ c ∈ cs, c.About id) :
    EventsAbout id (cs.map (contentEvent info)) := by
  intro e he c hc
  obtain ⟨c', hc', rfl⟩ := List.mem_map.mp he
  obtain rfl := List.mem_singleton.mp hc
  exact h c hc'

theorem MessageInfo.About.bodyRecord (h : info.About id) (offset : ℕ) (data : Bytes) :
    (bodyRecord info offset data).About id := ⟨h.flowId, h.body⟩

theorem MessageInfo.About.bodyEvent (h : info.About id) (offset : ℕ) (data : Bytes) :
    EventsAbout id [contentEvent info (Http.bodyRecord info offset data)] :=
  eventsAbout_contentEvents
    (List.forall_mem_singleton.mpr (h.bodyRecord offset data))

theorem MessageInfo.About.decodedRecord (h : info.About id) (cfg : HttpConfig) (offset : ℕ)
    (compressed : Bytes) : ∀ c ∈ decodedRecord cfg info offset compressed, c.About id := by
  intro c hc
  unfold Http.decodedRecord at hc
  dsimp only at hc
  split_ifs at hc
  · cases hc
  · cases hc
  · obtain ⟨decoded, -, rfl⟩ := Option.map_eq_some_iff.mp hc
    exact ⟨h.flowId, h.decoded⟩

theorem MessageInfo.About.decodedEvents (h : info.About id) (cfg : HttpConfig) (offset : ℕ)
    (compressed : Bytes) : EventsAbout id
      ((Http.decodedRecord cfg info offset compressed).toList.map (contentEvent info)) :=
  eventsAbout_contentEvents fun c hc ↦ h.decodedRecord cfg offset compressed c
    (Option.mem_toList.mp hc)

theorem MessageInfo.About.decodedEvents_ite (h : info.About id) (cfg : HttpConfig) (p : Prop)
    [Decidable p] (offset : ℕ) (compressed : Bytes) : EventsAbout id
      ((if p then Http.decodedRecord cfg info offset compressed else none).toList.map
        (contentEvent info)) := by
  split_ifs
  · exact h.decodedEvents cfg offset compressed
  · exact eventsAbout_nil

theorem MessageInfo.About.chunkEvents (h : info.About id) (base : ℕ) (chunks : List ChunkData) :
    EventsAbout id (Feed.chunkEvents info base chunks) := by
  intro e he c hc
  obtain ⟨d, -, rfl⟩ := List.mem_map.mp he
  obtain rfl := List.mem_singleton.mp hc
  exact h.bodyRecord _ _

theorem about_messageInfo (c : StreamChunk) (parsed : ParsedHeader) (d : Direction) :
    (Feed.messageInfo c parsed d).About c.flowId := by
  constructor
  · rfl
  · cases hrequest : parsed.request <;> simp [Feed.messageInfo, hrequest]
  · cases hrequest : parsed.request <;> simp [Feed.messageInfo, hrequest]

theorem about_framing {parsed : ParsedHeader} {kind : Option RequestKind} {state : BodyState}
    (hinfo : info.About id) (h : Feed.framing cfg parsed kind info = some state) :
    state.About id := by
  unfold Feed.framing at h
  split at h
  · obtain rfl := Option.some.inj h
    trivial
  split at h
  · split_ifs at h
    all_goals
      obtain rfl := Option.some.inj h
      exact hinfo
  split at h
  · split_ifs at h
    · obtain rfl := Option.some.inj h
      trivial
    all_goals
      obtain rfl := Option.some.inj h
      exact hinfo
  · obtain rfl := Option.some.inj h
    exact hinfo

theorem Feed.About.note (h : f.About c.flowId) (offset : ℕ) (header : Bytes)
    (parsed : ParsedHeader) : EventsAbout c.flowId
      (Feed.noteHeader c offset header parsed f).report.events := by
  refine h.events.append fun e he r hr ↦ ?_
  obtain rfl := List.mem_singleton.mp he
  obtain rfl := List.mem_singleton.mp hr
  constructor
  · rfl
  · cases hrequest : parsed.request <;> simp [Feed.headerRecord, hrequest]

theorem about_onHeader (h : f.About c.flowId) (offset : ℕ) (header : Bytes)
    (parsed : ParsedHeader) :
    (Feed.onHeader cfg c offset header parsed f).state.About c.flowId := by
  have hnote := h.note offset header parsed
  unfold Feed.onHeader
  dsimp only
  split_ifs
  · exact ⟨trivial, hnote⟩
  · split
    next state hstate => exact ⟨about_framing (about_messageInfo c parsed _) hstate, hnote⟩
    next => exact ⟨trivial, hnote⟩

theorem about_turnHeaders (h : f.About c.flowId) (hstate : f.parser.state = .headers) :
    (Feed.turnHeaders cfg c f).state.About c.flowId := by
  have hready : f.parser.ready.1.state.About c.flowId := by
    rw [HttpStreamParser.state_ready, hstate]
    trivial
  unfold Feed.turnHeaders
  dsimp only
  by_cases hfound : f.parser.ready.2 = false
  · rw [if_pos hfound]
    exact ⟨hready, h.events⟩
  · rw [if_neg hfound]
    split
    · split
      · refine ⟨?_, h.events⟩
        dsimp only [Turn.state]
        rw [HttpStreamParser.state_trimDesyncedSuffix]
        exact hready
      · exact ⟨hready, h.events⟩
    · split
      · exact ⟨hready, h.events⟩
      · refine about_onHeader (f := { f with parser :=
          { f.parser.ready.1.advance _ with headerScanFrom := 0 } }) ⟨hready, h.events⟩ _ _ _

theorem about_turnChunked {decoder : ChunkedDecoder} {compressed : Bytes} {bodySeen : ℕ}
    {captureBody : Bool} (h : f.About id) (hinfo : info.About id) :
    (Feed.turnChunked cfg f info decoder compressed bodySeen captureBody).state.About id := by
  unfold Feed.turnChunked
  by_cases hempty : f.parser.buffer = []
  · rw [if_pos hempty]
    exact h
  · rw [if_neg hempty]
    dsimp only
    split
    next result hresult =>
      have hchunks := h.events.append
        (hinfo.chunkEvents f.parser.streamOffset result.dataChunks)
      split
      · exact ⟨trivial, hchunks.append (hinfo.decodedEvents_ite cfg _ _ _)⟩
      · split <;> exact ⟨hinfo, hchunks⟩
    next => exact ⟨trivial, h.events⟩

theorem about_turn (h : f.About c.flowId) : (Feed.turn cfg c f).state.About c.flowId := by
  have hstate := h.state
  unfold Feed.turn
  split
  next hs => exact about_turnHeaders h hs
  next remaining info compressed hs =>
    rw [hs] at hstate
    have hbody := fun data ↦ h.events.append (hstate.bodyEvent f.parser.streamOffset data)
    unfold Feed.turnFixed
    dsimp only
    split_ifs
    · exact h
    · exact ⟨trivial, (hbody _).append (hstate.decodedEvents cfg _ _)⟩
    · exact ⟨hstate, hbody _⟩
  next remaining captureRemaining info hs =>
    rw [hs] at hstate
    have hbody := fun data ↦ h.events.append (hstate.bodyEvent f.parser.streamOffset data)
    have hnone := h.events.append eventsAbout_nil
    unfold Feed.turnSkipFixed
    dsimp only
    split_ifs
    · exact h
    · exact ⟨trivial, hnone⟩
    · exact ⟨trivial, hbody _⟩
    · exact ⟨hstate, hnone⟩
    · exact ⟨hstate, hbody _⟩
  next info decoder compressed bodySeen captureBody hs =>
    rw [hs] at hstate
    exact about_turnChunked h hstate
  next info compressed bodySeen captureBody hs =>
    rw [hs] at hstate
    have hbody := fun data ↦ h.events.append (hstate.bodyEvent f.parser.streamOffset data)
    unfold Feed.turnUntilClose
    dsimp only
    split_ifs
    · exact h
    · exact ⟨hstate, h.events.append eventsAbout_nil⟩
    · exact ⟨hstate, hbody _⟩

variable (cfg) in
theorem about_feed {p : HttpStreamParser} (h : p.state.About c.flowId)
    (pending : List RequestKind) (requestDirection : Option Direction) :
    (p.feed cfg c pending requestDirection).About c.flowId := by
  have hleaves : Leaves (Feed.turn cfg c) _ (p.feed cfg c pending requestDirection) :=
    leaves_loop (fun _ _ ↦ Feed.measure_turn) (Nat.lt_succ_self _)
  refine hleaves.invariant (fun _ ↦ about_turn) ⟨?_, eventsAbout_nil⟩
  show (p.accept c pending).1.state.About c.flowId
  unfold HttpStreamParser.accept
  dsimp only
  split
  · split_ifs
    · trivial
    · exact h
  · exact h

theorem about_finish {p : HttpStreamParser} (h : p.state.About id) :
    EventsAbout id (p.finish cfg) := by
  unfold HttpStreamParser.finish
  split
  next => exact eventsAbout_nil
  next hs =>
    rw [hs] at h
    dsimp only
    refine EventsAbout.append ?_ (h.decodedEvents_ite cfg _ _ _)
    split_ifs
    · exact eventsAbout_nil
    · exact h.bodyEvent _ _
  next hs =>
    rw [hs] at h
    dsimp only
    split_ifs
    · exact eventsAbout_nil
    · exact h.bodyEvent _ _
  next hs =>
    rw [hs] at h
    dsimp only
    split
    · exact eventsAbout_nil
    · exact (h.chunkEvents _ _).append (h.decodedEvents_ite cfg _ _ _)
  next hs =>
    rw [hs] at h
    dsimp only
    refine EventsAbout.append ?_ (h.decodedEvents_ite cfg _ _ _)
    split_ifs
    · exact eventsAbout_nil
    · exact h.bodyEvent _ _

/-- Both parsers of a connection. -/
def HttpConnection.About (id : Uuid) (h : HttpConnection) : Prop :=
  ∀ d, (h.parser d).state.About id

theorem about_new : ({} : HttpConnection).About id := by
  intro d
  cases d <;> trivial

variable (cfg) in
theorem HttpConnection.About.feed {h : HttpConnection} (hh : h.About c.flowId) :
    (h.feed cfg c).1.About c.flowId ∧ EventsAbout c.flowId (h.feed cfg c).2.events := by
  unfold HttpConnection.feed
  split_ifs
  · exact ⟨hh, eventsAbout_nil⟩
  · have hfeed := about_feed cfg (hh c.direction) h.pendingRequests h.requestDirection
    refine ⟨fun d ↦ ?_, hfeed.events⟩
    by_cases hd : d = c.direction
    · subst hd
      rw [HttpConnection.parser_setParser_self]
      exact hfeed.state
    · rw [HttpConnection.parser_setParser_of_ne _ _ hd]
      have hrest := hh d
      cases d <;> exact hrest

variable (cfg) in
theorem HttpConnection.About.finish {h : HttpConnection} (hh : h.About id) :
    EventsAbout id (h.finish cfg) := by
  unfold HttpConnection.finish
  split_ifs
  · exact eventsAbout_nil
  · exact (about_finish (hh .aToB)).append (about_finish (hh .bToA))

end

/-! ## The records of one flow -/

def L7Output.stored? : L7Output → Option ContentRecord
  | appended record => some record
  | _ => none

/-- The records that the segment writer took. -/
def storedOf (out : List L7Output) : List ContentRecord := out.filterMap L7Output.stored?

def contentOf (r : ContentRecord) : HttpContent where
  flowId := r.flowId
  tsNs := r.tsNs
  direction := r.direction
  view := r.view
  streamOffset := r.streamOffset
  data := r.data

/-- A raw record, as the chunk that it is made of. -/
def rawChunk? (r : ContentRecord) : Option StreamChunk :=
  if r.view = .tcpRaw then some ⟨r.flowId, r.tsNs, r.direction, r.streamOffset, r.data⟩ else none

def rawChunks (rs : List ContentRecord) : List StreamChunk := rs.filterMap rawChunk?

/-- The records that are not raw. -/
def httpContents (rs : List ContentRecord) : List HttpContent :=
  (rs.filter fun r ↦ decide (r.view ≠ .tcpRaw)).map contentOf

namespace Delivery

variable (d : Delivery)

def chunk? : Option StreamChunk :=
  match d.event with
  | .chunk c => some (ofChunk c)
  | _ => none

/-- The chunk, if its raw record is stored. -/
def storedChunk? : Option StreamChunk := if d.readings.stored 0 then d.chunk? else none

/-- The chunk, if the parser of the flow gets it. -/
def parsedChunk? : Option StreamChunk :=
  match d.event with
  | .chunk c => if L7Worker.parses d.readings c then some (ofChunk c) else none
  | _ => none

end Delivery

def chunksIn (ds : List Delivery) : List StreamChunk := ds.filterMap Delivery.chunk?

def storedChunks (ds : List Delivery) : List StreamChunk := ds.filterMap Delivery.storedChunk?

def parsedChunks (ds : List Delivery) : List StreamChunk := ds.filterMap Delivery.parsedChunk?

section

variable {id : Uuid} {cfg : HttpConfig} {r : Readings} {ds : List Delivery}

theorem storedOf_append (as bs : List L7Output) :
    storedOf (as ++ bs) = storedOf as ++ storedOf bs := List.filterMap_append

theorem rawChunks_append (as bs : List ContentRecord) :
    rawChunks (as ++ bs) = rawChunks as ++ rawChunks bs := List.filterMap_append

theorem httpContents_append (as bs : List ContentRecord) :
    httpContents (as ++ bs) = httpContents as ++ httpContents bs := by
  simp [httpContents]

theorem storedOf_fanoutContent (r : Readings) (n : ℕ) (record : ContentRecord) :
    storedOf (fanoutContent r n record) = if r.stored n then [record] else [] := by
  unfold fanoutContent
  split_ifs <;> rfl

theorem parsedChunks_sublist (ds : List Delivery) : (parsedChunks ds).Sublist (chunksIn ds) := by
  induction ds with
  | nil => exact .slnil
  | cons d ds ih =>
      rcases d with ⟨c | summary | summary, r⟩
      · by_cases hparses : L7Worker.parses r c
        · simpa [parsedChunks, chunksIn, Delivery.parsedChunk?, Delivery.chunk?, hparses] using
            ih.cons_cons (ofChunk c)
        · simpa [parsedChunks, chunksIn, Delivery.parsedChunk?, Delivery.chunk?, hparses] using
            ih.cons (ofChunk c)
      · exact ih
      · exact ih

/-- The outputs store records of the emissions, in their order. -/
structure Stores (id : Uuid) (es : List HttpEmission) (out : List L7Output) : Prop where
  own : ∀ record ∈ storedOf out, record.flowId = id
  raw : rawChunks (storedOf out) = []
  http : (httpContents (storedOf out)).Sublist (es.flatMap HttpEmission.content)

theorem stores_nil : Stores id [] [] :=
  ⟨fun _ h ↦ absurd h List.not_mem_nil, rfl, .slnil⟩

theorem Stores.append {es es' : List HttpEmission} {out out' : List L7Output}
    (h : Stores id es out) (h' : Stores id es' out') : Stores id (es ++ es') (out ++ out') := by
  refine ⟨fun record hrecord ↦ ?_, ?_, ?_⟩
  · rw [storedOf_append] at hrecord
    exact (List.mem_append.mp hrecord).elim (h.own record) (h'.own record)
  · rw [storedOf_append, rawChunks_append, h.raw, h'.raw, List.append_nil]
  · rw [storedOf_append, httpContents_append, List.flatMap_append]
    exact h.http.append h'.http

theorem stores_emitContents (r : Readings) (service : Option String) (cs : List HttpContent)
    (h : ∀ c ∈ cs, c.About id) : ∀ n,
      Stores id [{ content := cs, info := none, requestDirection := none }]
        (emitContents r service n cs) := by
  induction cs with
  | nil => exact fun _ ↦ ⟨fun _ h ↦ absurd h List.not_mem_nil, rfl, .slnil⟩
  | cons c cs ih =>
      intro n
      obtain ⟨hid, hview⟩ := h c List.mem_cons_self
      have hrest := ih (fun c' hc' ↦ h c' (List.mem_cons_of_mem c hc')) (n + 1)
      have hfirst : Stores id [{ content := [c], info := none, requestDirection := none }]
          (fanoutContent r n (c.record (r.ids n) service)) := by
        by_cases hstored : r.stored n
        · have hcontent : contentOf (c.record (r.ids n) service) = c := rfl
          have hkept : (c.record (r.ids n) service).view ≠ .tcpRaw := hview
          constructor
          · simp [storedOf_fanoutContent, hstored, HttpContent.record, hid]
          · simp [storedOf_fanoutContent, hstored, rawChunks, rawChunk?, hkept]
          · simp [storedOf_fanoutContent, hstored, httpContents, hkept, hcontent]
        · constructor <;> simp [storedOf_fanoutContent, hstored, rawChunks, httpContents]
      have hboth := hfirst.append hrest
      exact ⟨hboth.own, hboth.raw, hboth.http⟩

theorem stores_emitHttpEvent {evt : HttpEmission} (h : ∀ c ∈ evt.content, c.About id) (n k : ℕ)
    (service : Option String) : Stores id [evt] (emitHttpEvent r n k service evt) := by
  have hcontents := stores_emitContents r service evt.content h n
  have hboth : Stores id ([{ content := evt.content, info := none, requestDirection := none }] ++ [])
      (emitHttpEvent r n k service evt) := by
    refine hcontents.append ?_
    cases evt.info with
    | none => exact stores_nil
    | some info =>
        dsimp only
        split_ifs
        · exact ⟨fun _ h ↦ absurd h List.not_mem_nil, rfl, .slnil⟩
        · exact stores_nil
  exact ⟨hboth.own, hboth.raw, hboth.http⟩

theorem stores_emitEvents (key : Capture.FlowKey) (es : List HttpEmission)
    (h : EventsAbout id es) : ∀ (n k : ℕ) (detected : Option String),
      Stores id es (FlowL7.emitEvents r key n k detected es).2 := by
  induction es with
  | nil => exact fun _ _ _ ↦ stores_nil
  | cons e es ih =>
      intro n k detected
      exact (stores_emitHttpEvent (h e List.mem_cons_self) n k _).append
        (ih (fun e' he' ↦ h e' (List.mem_cons_of_mem e he')) _ _ _)

theorem stores_emitRest (service : Option String) (es : List HttpEmission)
    (h : EventsAbout id es) : ∀ n k, Stores id es (emitRest r service n k es) := by
  induction es with
  | nil => exact fun _ _ ↦ stores_nil
  | cons e es ih =>
      intro n k
      exact (stores_emitHttpEvent (h e List.mem_cons_self) n k service).append
        (ih (fun e' he' ↦ h e' (List.mem_cons_of_mem e he')) _ _)

/-- A flow that is not closed yet, after its events `ds`. -/
structure FlowL7.Running (cfg : HttpConfig) (id : Uuid) (ds : List Delivery) (s : FlowL7)
    (out : List L7Output) : Prop where
  connection : s.parser.getD {} = (feedAll cfg (parsedChunks ds)).connection
  about : (s.parser.getD {}).About id
  own : ∀ record ∈ storedOf out, record.flowId = id
  raw : rawChunks (storedOf out) = storedChunks ds
  http : (httpContents (storedOf out)).Sublist
    ((feedAll cfg (parsedChunks ds)).events.flatMap HttpEmission.content)

namespace FlowL7

variable {s : FlowL7} {out : List L7Output}

theorem running_start : Running cfg id [] {} [] :=
  ⟨rfl, about_new, fun _ h ↦ absurd h List.not_mem_nil, rfl, .slnil⟩

theorem Running.chunk (h : Running cfg id ds s out) {c : Flow.StreamChunk}
    (hid : c.flowId = id) (r : Readings) :
    Running cfg id (ds ++ [⟨.chunk c, r⟩]) (s.chunk cfg r c).1 (out ++ (s.chunk cfg r c).2) := by
  have hstoredChunks : storedChunks (ds ++ [⟨.chunk c, r⟩]) =
      storedChunks ds ++ if r.stored 0 then [ofChunk c] else [] := by
    rw [storedChunks, List.filterMap_append]
    cases hstored : r.stored 0 <;> simp [Delivery.storedChunk?, Delivery.chunk?, hstored,
      storedChunks]
  have hraw : rawChunks (storedOf (fanoutContent r 0 (rawRecord c (r.ids 0)
      (r.raw.serviceForFlow c.key)))) = if r.stored 0 then [ofChunk c] else [] := by
    rw [storedOf_fanoutContent]
    cases r.stored 0 <;> rfl
  have hnone : httpContents (storedOf (fanoutContent r 0 (rawRecord c (r.ids 0)
      (r.raw.serviceForFlow c.key)))) = [] := by
    rw [storedOf_fanoutContent]
    cases r.stored 0 <;> rfl
  have hown : ∀ record ∈ storedOf (fanoutContent r 0 (rawRecord c (r.ids 0)
      (r.raw.serviceForFlow c.key))), record.flowId = id := by
    intro record hrecord
    rw [storedOf_fanoutContent] at hrecord
    split_ifs at hrecord
    · rw [List.mem_singleton.mp hrecord]
      exact hid
    · exact absurd hrecord List.not_mem_nil
  unfold FlowL7.chunk
  dsimp only
  split_ifs with hparses
  · have hparsed : parsedChunks (ds ++ [⟨.chunk c, r⟩]) = parsedChunks ds ++ [ofChunk c] := by
      rw [parsedChunks, List.filterMap_append]
      simp [Delivery.parsedChunk?, hparses, parsedChunks]
    have hfed : feedAll cfg (parsedChunks ds ++ [ofChunk c]) =
        (feedAll cfg (parsedChunks ds)).feed cfg (ofChunk c) := by
      rw [feedAll, runFrom_append]
      rfl
    subst hid
    obtain ⟨habout, hevents⟩ := HttpConnection.About.feed cfg (c := ofChunk c) h.about
    have hstores := stores_emitEvents (r := r) c.key _ hevents 1 0 s.detected
    rw [h.connection] at habout hevents hstores
    rw [h.connection]
    refine ⟨?_, habout, fun record hrecord ↦ ?_, ?_, ?_⟩
    · rw [hparsed, hfed]
      rfl
    · rw [storedOf_append, storedOf_append] at hrecord
      rcases List.mem_append.mp hrecord with hrecord | hrecord
      · exact h.own record hrecord
      · exact (List.mem_append.mp hrecord).elim (hown record) (hstores.own record)
    · rw [storedOf_append, storedOf_append, rawChunks_append, rawChunks_append, h.raw, hraw,
        hstores.raw, List.append_nil, hstoredChunks]
    · rw [storedOf_append, storedOf_append, httpContents_append, httpContents_append, hnone,
        List.nil_append, hparsed, hfed]
      simp only [Fed.feed, List.flatMap_append]
      exact h.http.append hstores.http
  · have hparsed : parsedChunks (ds ++ [⟨.chunk c, r⟩]) = parsedChunks ds := by
      rw [parsedChunks, List.filterMap_append]
      simp [Delivery.parsedChunk?, hparses, parsedChunks]
    refine ⟨?_, h.about, fun record hrecord ↦ ?_, ?_, ?_⟩
    · rw [hparsed]
      exact h.connection
    · rw [storedOf_append] at hrecord
      exact (List.mem_append.mp hrecord).elim (h.own record) (hown record)
    · rw [storedOf_append, rawChunks_append, h.raw, hraw, hstoredChunks]
    · rw [storedOf_append, httpContents_append, hnone, List.append_nil, hparsed]
      exact h.http

theorem Running.next (h : Running cfg id ds s out) {d : Delivery} (hid : d.flowId = id)
    (hopen : d.event.isClosed = false) :
    Running cfg id (ds ++ [d]) (s.next cfg d).1 (out ++ (s.next cfg d).2) := by
  rcases d with ⟨c | summary | summary, r⟩
  · exact h.chunk hid r
  · have hnothing : storedOf (out ++ (s.next cfg ⟨.snapshot summary, r⟩).2) = storedOf out := by
      rw [storedOf_append]
      cases hmetadata : r.metadata <;> simp [FlowL7.next, hmetadata, storedOf, L7Output.stored?]
    have hstored : storedChunks (ds ++ [⟨.snapshot summary, r⟩]) = storedChunks ds := by
      rw [storedChunks, List.filterMap_append]
      cases hraw : r.stored 0 <;> simp [Delivery.storedChunk?, Delivery.chunk?, hraw, storedChunks]
    have hparsed : parsedChunks (ds ++ [⟨.snapshot summary, r⟩]) = parsedChunks ds := by
      simp [parsedChunks, Delivery.parsedChunk?]
    refine ⟨?_, h.about, ?_, ?_, ?_⟩
    · rw [hparsed]
      exact h.connection
    · rw [hnothing]
      exact h.own
    · rw [hnothing, hstored]
      exact h.raw
    · rw [hnothing, hparsed]
      exact h.http
  · cases hopen

/-- The run lemma of a flow that stays open. -/
theorem running_run (h : ∀ d ∈ ds, d.flowId = id ∧ d.event.isClosed = false) :
    Running cfg id ds (runLocal (FlowL7.next cfg) {} ds).1 (runLocal (FlowL7.next cfg) {} ds).2 := by
  induction ds using List.reverseRecOn with
  | nil => exact running_start
  | append_singleton ds d ih =>
      have hrest := ih fun d' hd' ↦ h d' (List.mem_append_left _ hd')
      obtain ⟨hid, hopen⟩ := h d (List.mem_append_right ds List.mem_cons_self)
      rw [runLocal_concat]
      exact hrest.next hid hopen

end FlowL7

/-- What is stored of a flow after its events `ds`. -/
structure StoredFlow (cfg : HttpConfig) (id : Uuid) (ds : List Delivery) (out : List L7Output) :
    Prop where
  own : ∀ record ∈ storedOf out, record.flowId = id
  raw : rawChunks (storedOf out) = storedChunks ds
  http : (httpContents (storedOf out)).Sublist
    ((allEvents cfg (parsedChunks ds)).flatMap HttpEmission.content)

theorem FlowL7.Running.storedFlow {s : FlowL7} {out : List L7Output}
    (h : Running cfg id ds s out) : StoredFlow cfg id ds out := by
  refine ⟨h.own, h.raw, h.http.trans ?_⟩
  rw [allEvents, List.flatMap_append]
  exact List.sublist_append_left _ _

theorem FlowL7.Running.closed {s : FlowL7} {out : List L7Output} (h : Running cfg id ds s out)
    {summary : FlowSummary} (r : Readings) :
    StoredFlow cfg id (ds ++ [⟨.closed summary, r⟩]) (out ++ (s.closed cfg r summary).2) := by
  have hstored : storedChunks (ds ++ [⟨.closed summary, r⟩]) = storedChunks ds := by
    rw [storedChunks, List.filterMap_append]
    cases hraw : r.stored 0 <;> simp [Delivery.storedChunk?, Delivery.chunk?, hraw, storedChunks]
  have hparsed : parsedChunks (ds ++ [⟨.closed summary, r⟩]) = parsedChunks ds := by
    simp [parsedChunks, Delivery.parsedChunk?]
  -- a flow without a parser has nothing left, like a new parser
  have hrest : Stores id ((s.parser.getD {}).finish cfg) (s.closed cfg r summary).2 := by
    have hnothing : ∀ (service : Option String), Stores id [] (if r.metadata then
        [L7Output.flow summary service, .flowClosed summary.flowId] else []) := by
      intro service
      split_ifs
      · exact ⟨fun _ h ↦ absurd h List.not_mem_nil, rfl, .slnil⟩
      · exact stores_nil
    cases hparser : s.parser with
    | none =>
        rw [FlowL7.closed, hparser]
        exact hnothing _
    | some parser =>
        have hfinish := h.about.finish cfg
        rw [hparser, Option.getD_some] at hfinish
        have hboth := (stores_emitRest (r := r) s.detected _ hfinish 0 0).append
          (hnothing (s.detected.or (summaryService r summary)))
        rw [List.append_nil] at hboth
        rw [FlowL7.closed, hparser]
        exact hboth
  refine ⟨fun record hrecord ↦ ?_, ?_, ?_⟩
  · rw [storedOf_append] at hrecord
    exact (List.mem_append.mp hrecord).elim (h.own record) (hrest.own record)
  · rw [storedOf_append, rawChunks_append, hrest.raw, List.append_nil, h.raw, hstored]
  · rw [storedOf_append, httpContents_append, hparsed, allEvents, List.flatMap_append,
      ← h.connection]
    exact h.http.append hrest.http

/-- After a close there is nothing. -/
def ClosesLast (ds : List Delivery) : Prop :=
  ∀ before d after, ds = before ++ d :: after → d.event.isClosed = true → after = []

theorem ClosesLast.cases (h : ClosesLast ds) : (∀ d ∈ ds, d.event.isClosed = false) ∨
    ∃ front summary r, ds = front ++ [⟨.closed summary, r⟩] ∧
      ∀ d ∈ front, d.event.isClosed = false := by
  induction ds using List.reverseRecOn with
  | nil => exact .inl fun d hd ↦ absurd hd List.not_mem_nil
  | append_singleton front last _ =>
      have hfront : ∀ d ∈ front, d.event.isClosed = false := by
        intro d hd
        obtain ⟨before, after, rfl⟩ := List.append_of_mem hd
        cases hclosed : d.event.isClosed with
        | false => rfl
        | true =>
            have hnil := h before d (after ++ [last]) (by simp) hclosed
            simp at hnil
      rcases last with ⟨c | summary | summary, r⟩
      · refine .inl fun d hd ↦ (List.mem_append.mp hd).elim (hfront d) fun hlast ↦ ?_
        rw [List.mem_singleton.mp hlast]
        rfl
      · refine .inl fun d hd ↦ (List.mem_append.mp hd).elim (hfront d) fun hlast ↦ ?_
        rw [List.mem_singleton.mp hlast]
        rfl
      · exact .inr ⟨front, summary, r, rfl, hfront⟩

/-- A flow that sends nothing after its close. -/
theorem storedFlow_run (hown : ∀ d ∈ ds, d.flowId = id) (hlast : ClosesLast ds) :
    StoredFlow cfg id ds (runLocal (FlowL7.next cfg) {} ds).2 := by
  rcases hlast.cases with hopen | ⟨front, summary, r, rfl, hopen⟩
  · exact (FlowL7.running_run fun d hd ↦ ⟨hown d hd, hopen d hd⟩).storedFlow
  · rw [runLocal_concat]
    exact (FlowL7.running_run fun d hd ↦
      ⟨hown d (List.mem_append_left _ hd), hopen d hd⟩).closed r

/-- A flow that is closed is forgotten. -/
theorem forgets_closed (front : List Delivery) (summary : FlowSummary) (r : Readings) :
    (runLocal (FlowL7.next cfg) {} (front ++ [⟨.closed summary, r⟩])).1 = {} := by
  rw [runLocal_concat]
  rfl

/-! ## Stretches of the raw records -/

theorem Admissible.sublist {cs cs' : List StreamChunk} (h : Admissible cs) (hle : cs'.Sublist cs) :
    Admissible cs' :=
  ⟨fun c hc ↦ h.nonempty c (hle.subset hc), fun c hc ↦ h.bounded c (hle.subset hc),
    h.apart.sublist hle⟩

/-- What some of the chunks say of the stream, all of them say. -/
theorem rawAt_of_sublist {cs cs' : List StreamChunk} (h : Admissible cs) (hle : cs'.Sublist cs)
    {d : Direction} {k : ℕ} {b : UInt8} (hb : rawAt cs' d k = some b) : rawAt cs d k = some b := by
  obtain ⟨c, hfind, hbyte⟩ := Option.bind_eq_some_iff.mp hb
  have hcovers := List.find?_some hfind
  rw [decide_eq_true_eq] at hcovers
  obtain ⟨rfl, hstart, hend⟩ := hcovers
  have hreads := readsAt_rawAt h (hle.subset (List.mem_of_find?_eq_some hfind)) (k - c.offset)
    (by omega)
  rw [Nat.add_sub_cancel' hstart] at hreads
  rw [hreads, ← hbyte, List.getElem?_eq_getElem]

/-- The stored headers and wire bodies of one direction. -/
def wireStored (d : Direction) (rs : List ContentRecord) : List ContentRecord :=
  rs.filter fun r ↦ decide (r.direction = d ∧ IsWire r.view)

theorem wireStored_contents (d : Direction) (rs : List ContentRecord) :
    (wireStored d rs).map contentOf =
      (httpContents rs).filter fun c ↦ decide (c.direction = d ∧ IsWire c.view) := by
  induction rs with
  | nil => rfl
  | cons r rs ih =>
      have hwire : ¬ IsWire .tcpRaw := by simp [IsWire]
      by_cases hview : r.view = .tcpRaw
      · simpa [wireStored, httpContents, hview, hwire] using ih
      · by_cases hkeep : r.direction = d ∧ IsWire r.view
        · simpa [wireStored, httpContents, hkeep, hview, contentOf] using ih
        · simpa [wireStored, httpContents, hkeep, hview, contentOf] using ih

/-- The stored headers and wire bodies of a flow are stretches of what was sent of it, and
follow each other in the stream. -/
theorem StoredFlow.ledger {out : List L7Output} (h : StoredFlow cfg id ds out)
    (hadmissible : Admissible (chunksIn ds)) (d : Direction) :
    ∃ bound, Ledger (rawAt (chunksIn ds) d) bound
      ((wireStored d (storedOf out)).map fun r ↦ (r.streamOffset, r.data)) := by
  have hsome := parsedChunks_sublist ds
  obtain ⟨bound, hledger⟩ := ledger_allEvents (hadmissible.sublist hsome) d
  have hsub : ((wireStored d (storedOf out)).map fun r ↦ (r.streamOffset, r.data)).Sublist
      (pieces (wireRecords d (allEvents cfg (parsedChunks ds)))) := by
    have hpieces := ((h.http.filter fun c ↦ decide (c.direction = d ∧ IsWire c.view)).map
      fun c ↦ (c.streamOffset, c.data))
    rw [← wireStored_contents, List.map_map] at hpieces
    exact hpieces
  refine ⟨bound, fun q hq ↦ hledger.nonempty q (hsub.subset hq),
    fun q hq ↦ hledger.within q (hsub.subset hq), fun q hq i hi ↦ ?_, hledger.apart.sublist hsub⟩
  exact rawAt_of_sublist hadmissible hsome (hledger.reads q (hsub.subset hq) i hi)

end

end Bazalt.Http
