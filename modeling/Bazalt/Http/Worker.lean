import Bazalt.Flow.Outputs
import Bazalt.Http.Wire
import Bazalt.Lib.Keyed

/-!
# The L7 worker

A worker takes the events of its flows one after the other.  A chunk is stored as a raw
record, and if its flow belongs to a service with HTTP, what the parser of the flow makes of
it is stored behind it.  A snapshot is handed on with the name of the service.  A close first
gives what the parser still holds, then the summary, and the worker forgets the flow.

What a worker does with an event depends on its own tables only where they are about the flow
of the event.
-/

namespace Bazalt

namespace Services.ServiceMap

variable (m : ServiceMap) (key : Capture.FlowKey)

def serviceForHttp (requestDirection : Direction) : String :=
  let port := match requestDirection with
    | .aToB => key.b.port
    | .bToA => key.a.port
  ((m port).map ServiceConfig.name).getD ("http:" ++ toString port.toNat)

def serviceForFlow : Option String :=
  ((m key.a.port).or (m key.b.port)).map ServiceConfig.name

def shouldParseHttp : Bool := ((m key.a.port).or (m key.b.port)).any ServiceConfig.http

end Services.ServiceMap

namespace Http

open Lib Bazalt.Flow Services

/-- What a worker finds while it handles one event: the services at each of its looks, the
identifiers of its records, and who takes what it hands on.  Records and emissions are
counted from the start of the event. -/
structure Readings where
  parse : ServiceMap
  raw : ServiceMap
  emission : ℕ → ServiceMap
  src : ServiceMap
  dst : ServiceMap
  ids : ℕ → Uuid
  interested : ℕ → Bool
  stored : ℕ → Bool
  http : ℕ → Bool
  metadata : Bool

structure Delivery where
  event : FlowOutput
  readings : Readings

def Delivery.flowId (d : Delivery) : Uuid := d.event.flowId

/-- The metadata writer has stopped, and the worker stops with it. -/
def Delivery.stops (d : Delivery) : Bool := !d.event.isChunk && !d.readings.metadata

inductive L7Output where
  | appended (record : ContentRecord)
  | submitted (record : ContentRecord)
  | http (info : HttpRecord)
  | flow (summary : FlowSummary) (service : Option String)
  | flowClosed (flowId : Uuid)
  deriving DecidableEq, Repr

/-- The record that is stored. -/
def HttpContent.record (c : HttpContent) (id : Uuid) (service : Option String) :
    ContentRecord where
  id := id
  flowId := c.flowId
  tsNs := c.tsNs
  service := service
  direction := c.direction
  view := c.view
  streamOffset := c.streamOffset
  data := c.data

def rawRecord (c : Flow.StreamChunk) (id : Uuid) (service : Option String) : ContentRecord where
  id := id
  flowId := c.flowId
  tsNs := c.tsNs
  service := service
  direction := c.direction
  view := .tcpRaw
  streamOffset := c.offset
  data := c.data

/-- What the parser reads of a chunk. -/
def ofChunk (c : Flow.StreamChunk) : StreamChunk := ⟨c.flowId, c.tsNs, c.direction, c.offset, c.data⟩

section Sends

variable (r : Readings)

/-- The `n`-th record goes to the matcher only after it is stored. -/
def fanoutContent (n : ℕ) (record : ContentRecord) : List L7Output :=
  if r.stored n then .appended record :: if r.interested n then [.submitted record] else []
  else []

def emitContents (service : Option String) : ℕ → List HttpContent → List L7Output
  | _, [] => []
  | n, c :: cs => fanoutContent r n (c.record (r.ids n) service) ++ emitContents service (n + 1) cs

/-- The `k`-th emission, whose first record is the `n`-th of the event. -/
def emitHttpEvent (n k : ℕ) (service : Option String) (evt : HttpEmission) : List L7Output :=
  emitContents r service n evt.content ++
    match evt.info with
    | some info => if r.http k then [.http info] else []
    | none => []

/-- The emissions of a closed parser, all of one service. -/
def emitRest (service : Option String) : ℕ → ℕ → List HttpEmission → List L7Output
  | _, _, [] => []
  | n, k, evt :: evts =>
      emitHttpEvent r n k service evt ++ emitRest service (n + evt.content.length) (k + 1) evts

def summaryService (summary : FlowSummary) : Option String :=
  ((r.src summary.src.port).or (r.dst summary.dst.port)).map ServiceConfig.name

end Sends

/-! ## The worker -/

structure L7Worker where
  parsers : Table Uuid HttpConnection := ∅
  detectedServices : Table Uuid String := ∅

namespace L7Worker

/-- An emission with a request says what service the flow belongs to. -/
def emitEvents (r : Readings) (c : Flow.StreamChunk) :
    ℕ → ℕ → Table Uuid String → List HttpEmission → Table Uuid String × List L7Output
  | _, _, detected, [] => (detected, [])
  | n, k, detected, evt :: evts =>
      match evt.requestDirection with
      | some requestDirection =>
          let service := (r.emission k).serviceForHttp c.key requestDirection
          let rest := emitEvents r c (n + evt.content.length) (k + 1)
            (detected.insert c.flowId service) evts
          (rest.1, emitHttpEvent r n k (some service) evt ++ rest.2)
      | none =>
          let rest := emitEvents r c (n + evt.content.length) (k + 1) detected evts
          (rest.1, emitHttpEvent r n k (detected.lookup c.flowId) evt ++ rest.2)

def parses (r : Readings) (c : Flow.StreamChunk) : Bool :=
  decide (c.key.protocol = .tcp) && r.parse.shouldParseHttp c.key

variable (cfg : HttpConfig) (w : L7Worker) (r : Readings)

def chunk (c : Flow.StreamChunk) : L7Worker × List L7Output :=
  let raw := fanoutContent r 0 (rawRecord c (r.ids 0) (r.raw.serviceForFlow c.key))
  if parses r c then
    let fed := ((w.parsers.lookup c.flowId).getD {}).feed cfg (ofChunk c)
    let emitted := emitEvents r c 1 0 w.detectedServices fed.2.events
    (⟨w.parsers.insert c.flowId fed.1, emitted.1⟩, raw ++ emitted.2)
  else (w, raw)

def snapshot (summary : FlowSummary) : L7Worker × List L7Output :=
  (w, if r.metadata then [.flow summary (summaryService r summary)] else [])

def closed (summary : FlowSummary) : L7Worker × List L7Output :=
  let id := summary.flowId
  let detected := w.detectedServices.lookup id
  let rest := match w.parsers.lookup id with
    | some parser => emitRest r detected 0 0 (parser.finish cfg)
    | none => []
  (⟨w.parsers.erase id, w.detectedServices.erase id⟩,
    rest ++ if r.metadata then
      [.flow summary (detected.or (summaryService r summary)), .flowClosed id] else [])

def step (d : Delivery) : L7Worker × List L7Output :=
  match d.event with
  | .chunk c => w.chunk cfg d.readings c
  | .snapshot summary => w.snapshot d.readings summary
  | .closed summary => w.closed cfg d.readings summary

end L7Worker

/-! ## One flow -/

/-- What a worker knows of a flow. -/
structure FlowL7 where
  parser : Option HttpConnection := none
  detected : Option String := none
  deriving DecidableEq, Repr

def L7Worker.flow (w : L7Worker) (id : Uuid) : FlowL7 :=
  ⟨w.parsers.lookup id, w.detectedServices.lookup id⟩

namespace FlowL7

def emitEvents (r : Readings) (key : Capture.FlowKey) :
    ℕ → ℕ → Option String → List HttpEmission → Option String × List L7Output
  | _, _, detected, [] => (detected, [])
  | n, k, detected, evt :: evts =>
      let service := (evt.requestDirection.map ((r.emission k).serviceForHttp key)).or detected
      let rest := emitEvents r key (n + evt.content.length) (k + 1) service evts
      (rest.1, emitHttpEvent r n k service evt ++ rest.2)

variable (cfg : HttpConfig) (s : FlowL7) (r : Readings)

def chunk (c : Flow.StreamChunk) : FlowL7 × List L7Output :=
  let raw := fanoutContent r 0 (rawRecord c (r.ids 0) (r.raw.serviceForFlow c.key))
  if L7Worker.parses r c then
    let fed := (s.parser.getD {}).feed cfg (ofChunk c)
    let emitted := emitEvents r c.key 1 0 s.detected fed.2.events
    (⟨some fed.1, emitted.1⟩, raw ++ emitted.2)
  else (s, raw)

def closed (summary : FlowSummary) : FlowL7 × List L7Output :=
  let rest := match s.parser with
    | some parser => emitRest r s.detected 0 0 (parser.finish cfg)
    | none => []
  ({}, rest ++ if r.metadata then
    [.flow summary (s.detected.or (summaryService r summary)), .flowClosed summary.flowId] else [])

/-- A flow of its own, as if there were no others. -/
def next (d : Delivery) : FlowL7 × List L7Output :=
  match d.event with
  | .chunk c => s.chunk cfg d.readings c
  | .snapshot summary =>
      (s, if d.readings.metadata then [.flow summary (summaryService d.readings summary)] else [])
  | .closed summary => s.closed cfg d.readings summary

end FlowL7

/-! ## A worker is one machine for each of its flows -/

namespace L7Worker

variable {r : Readings} {c : Flow.StreamChunk} {w : L7Worker} {id : Uuid}

theorem emitEvents_own (evts : List HttpEmission) : ∀ (n k : ℕ) (detected : Table Uuid String),
    (emitEvents r c n k detected evts).1.lookup c.flowId =
        (FlowL7.emitEvents r c.key n k (detected.lookup c.flowId) evts).1 ∧
      (emitEvents r c n k detected evts).2 =
        (FlowL7.emitEvents r c.key n k (detected.lookup c.flowId) evts).2 := by
  induction evts with
  | nil => exact fun _ _ _ ↦ ⟨rfl, rfl⟩
  | cons evt evts ih =>
      intro n k detected
      cases hrequest : evt.requestDirection with
      | some d =>
          have hrest := ih (n + evt.content.length) (k + 1)
            (detected.insert c.flowId ((r.emission k).serviceForHttp c.key d))
          rw [AList.lookup_insert] at hrest
          simp [emitEvents, FlowL7.emitEvents, hrequest, hrest]
      | none =>
          have hrest := ih (n + evt.content.length) (k + 1) detected
          simp [emitEvents, FlowL7.emitEvents, hrequest, hrest]

theorem emitEvents_other (evts : List HttpEmission) (hid : id ≠ c.flowId) :
    ∀ (n k : ℕ) (detected : Table Uuid String),
      (emitEvents r c n k detected evts).1.lookup id = detected.lookup id := by
  induction evts with
  | nil => exact fun _ _ _ ↦ rfl
  | cons evt evts ih =>
      intro n k detected
      rw [emitEvents]
      split
      · exact (ih _ _ _).trans (AList.lookup_insert_ne hid)
      · exact ih _ _ _

theorem chunk_own (cfg : HttpConfig) (w : L7Worker) (r : Readings) (c : Flow.StreamChunk) :
    (w.chunk cfg r c).1.flow c.flowId = ((w.flow c.flowId).chunk cfg r c).1 ∧
      (w.chunk cfg r c).2 = ((w.flow c.flowId).chunk cfg r c).2 := by
  unfold chunk FlowL7.chunk
  dsimp only
  split_ifs
  · obtain ⟨hdetected, hout⟩ := emitEvents_own (r := r) (c := c)
      (((w.parsers.lookup c.flowId).getD {}).feed cfg (ofChunk c)).2.events 1 0 w.detectedServices
    simp only [flow, AList.lookup_insert, hdetected, hout, and_self]
  · exact ⟨rfl, rfl⟩

theorem chunk_other (cfg : HttpConfig) (w : L7Worker) (r : Readings) (hid : id ≠ c.flowId) :
    (w.chunk cfg r c).1.flow id = w.flow id := by
  unfold chunk
  dsimp only
  split_ifs
  · simp only [flow, AList.lookup_insert_ne hid, emitEvents_other _ hid]
  · rfl

theorem closed_own (cfg : HttpConfig) (w : L7Worker) (r : Readings) (summary : FlowSummary) :
    (w.closed cfg r summary).1.flow summary.flowId =
        ((w.flow summary.flowId).closed cfg r summary).1 ∧
      (w.closed cfg r summary).2 = ((w.flow summary.flowId).closed cfg r summary).2 := by
  constructor
  · simp only [closed, flow, FlowL7.closed, AList.lookup_erase]
  · rfl

theorem closed_other (cfg : HttpConfig) (w : L7Worker) (r : Readings) {summary : FlowSummary}
    (hid : id ≠ summary.flowId) : (w.closed cfg r summary).1.flow id = w.flow id := by
  simp only [closed, flow, AList.lookup_erase_ne hid]

/-- The worker as a machine with a state for each flow. -/
def keyed (cfg : HttpConfig) : Keyed L7Worker Uuid FlowL7 Delivery L7Output where
  key := Delivery.flowId
  step w d := w.step cfg d
  view := flow
  next s d := s.next cfg d
  own := by
    rintro w ⟨c | summary | summary, r⟩
    · exact (w.chunk_own cfg r c).1
    · rfl
    · exact (w.closed_own cfg r summary).1
  other := by
    rintro w ⟨c | summary | summary, r⟩ id hid
    · exact w.chunk_other cfg r hid
    · rfl
    · exact w.closed_other cfg r hid
  output := by
    rintro w ⟨c | summary | summary, r⟩
    · exact (w.chunk_own cfg r c).2
    · rfl
    · exact (w.closed_own cfg r summary).2

/-! ## The workers -/

/-- `(flow_id.as_u128() as usize) % shard_txs.len()`, for `n + 1` workers. -/
def l7Owner (n : ℕ) (id : Uuid) : Fin (n + 1) := Fin.ofNat (n + 1) (id.toNat % 2 ^ 64)

def l7Layout (n flowToL7Capacity : ℕ) : Keyed.Layout (Fin (n + 1)) Uuid Delivery where
  owner := l7Owner n
  capacity := max (flowToL7Capacity / (n + 1)) 1
  stops := Delivery.stops

abbrev L7Workers (n : ℕ) := Keyed.Workers (Fin (n + 1)) L7Worker Uuid Delivery L7Output

/-- The workers have handled the flow as if each flow had a machine of its own. -/
structure Alone (cfg : HttpConfig) {n : ℕ} (w : L7Workers n) (id : Uuid) : Prop where
  outputs : Keyed.outputsOf id w.log =
    (runLocal (FlowL7.next cfg) {} ((keyed cfg).eventsOf id w.handled)).2
  knows : ∀ j, (w.worker j).flow id = if j = l7Owner n id then
    (runLocal (FlowL7.next cfg) {} ((keyed cfg).eventsOf id w.handled)).1 else {}
  inOrder : (keyed cfg).eventsOf id w.handled <+: (keyed cfg).eventsOf id w.sent
  complete : w.stopped (l7Owner n id) = false → w.queue (l7Owner n id) = [] →
    (keyed cfg).eventsOf id w.handled = (keyed cfg).eventsOf id w.sent

/-- However many workers there are, however long their queues, whatever is sent and in
whatever order the workers take it. -/
theorem alone_after (cfg : HttpConfig) (n flowToL7Capacity : ℕ)
    (moves : List (Keyed.Move (Fin (n + 1)) Delivery)) (id : Uuid) :
    Alone cfg (runFrom (Keyed.Workers.step (keyed cfg) (l7Layout n flowToL7Capacity))
      { worker := fun _ ↦ {} } moves) id := by
  have h : Keyed.Workers.Faithful (keyed cfg) (l7Layout n flowToL7Capacity) ({} : L7Worker) _ :=
    Keyed.Workers.faithful_runFrom moves
  refine ⟨h.outputs id, fun j ↦ ?_, h.inOrder id, fun hruns hqueue ↦ h.handled_eq ⟨hruns, hqueue⟩⟩
  split_ifs with hj
  · rw [hj]
    exact h.state id
  · exact h.foreign j id (Ne.symm hj)

end L7Worker

end Http

end Bazalt
