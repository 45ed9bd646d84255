import Bazalt.Flow.State
import Bazalt.Lib.Table
import Bazalt.Services.Registry

/-!
# The shard loop

A flow shard receives the packets of its flows, one in each round of its loop.  It admits
new flows within a budget that all shards share and a budget for every source prefix, hands
the packet to its flow, closes flows that have ended, and at the bottom of the round those
that have been idle for too long.

The counter of active flows is the only state that shards share.  A round is cut into steps
so that every step has at most one access to it; what the shard does around that access is
its own business.
-/

namespace Bazalt

namespace Services.ServiceMap

def acceptsDestination (m : ServiceMap) (packet : Capture.ParsedPacket) : Bool :=
  m.containsKey packet.destinationEndpoint.port

end Services.ServiceMap

namespace Flow

open Bazalt.Lib Capture Services

/-! ## Tombstones -/

def tcpTombstoneTtl : ℕ := 2000000000

def tcpTombstoneMax : ℕ := 65536

structure TcpTombstones where
  byKey : Table FlowKey ℕ := ∅
  order : List (ℕ × FlowKey) := []

namespace TcpTombstones

/-- A tombstone that was set again since is left alone. -/
def forget (byKey : Table FlowKey ℕ) (deadline : ℕ) (key : FlowKey) : Table FlowKey ℕ :=
  if byKey.lookup key = some deadline then byKey.erase key else byKey

def expireLoop (now : ℕ) : List (ℕ × FlowKey) → Table FlowKey ℕ → TcpTombstones
  | [], byKey => ⟨byKey, []⟩
  | (deadline, key) :: order, byKey =>
      if deadline ≤ now then expireLoop now order (forget byKey deadline key)
      else ⟨byKey, (deadline, key) :: order⟩

def expire (t : TcpTombstones) (now : ℕ) : TcpTombstones := expireLoop now t.order t.byKey

def containsLive (t : TcpTombstones) (key : FlowKey) (now : ℕ) : TcpTombstones × Bool :=
  let t := t.expire now
  (t, (t.byKey.lookup key).any fun deadline ↦ decide (now < deadline))

def remove (t : TcpTombstones) (key : FlowKey) : TcpTombstones :=
  { t with byKey := t.byKey.erase key }

def shrinkLoop : List (ℕ × FlowKey) → Table FlowKey ℕ → TcpTombstones
  | [], byKey => ⟨byKey, []⟩
  | (deadline, key) :: order, byKey =>
      if tcpTombstoneMax < byKey.size then shrinkLoop order (forget byKey deadline key)
      else ⟨byKey, (deadline, key) :: order⟩

def insert (t : TcpTombstones) (key : FlowKey) (now : ℕ) : TcpTombstones :=
  let deadline := now + tcpTombstoneTtl
  let t := expire ⟨t.byKey.insert key deadline, t.order ++ [(deadline, key)]⟩ now
  shrinkLoop t.order t.byKey

end TcpTombstones

/-! ## Timers -/

structure TimerItem where
  deadline : ℕ
  serial : ℕ
  key : FlowKey
  flowId : Uuid
  deriving DecidableEq, Repr

/-- The order in which timers fire. -/
def TimerItem.before (a b : TimerItem) : Prop :=
  a.deadline < b.deadline ∨ a.deadline = b.deadline ∧ a.serial ≤ b.serial

instance : DecidableRel TimerItem.before := fun a b ↦
  inferInstanceAs (Decidable (a.deadline < b.deadline ∨ a.deadline = b.deadline ∧
    a.serial ≤ b.serial))

instance : Std.Total TimerItem.before where
  total a b := by
    unfold TimerItem.before
    omega

instance : IsTrans TimerItem TimerItem.before where
  trans a b c := by
    unfold TimerItem.before
    omega

/-- The heap, listed in the order in which it gives its items back. -/
structure TimerHeap where
  items : List TimerItem
  sorted : items.Pairwise TimerItem.before

namespace TimerHeap

def empty : TimerHeap := ⟨[], .nil⟩

def push (h : TimerHeap) (item : TimerItem) : TimerHeap :=
  ⟨h.items.orderedInsert TimerItem.before item, h.sorted.orderedInsert item h.items⟩

def peek (h : TimerHeap) : Option TimerItem := h.items.head?

/-- The heap without its first item. -/
def pop (h : TimerHeap) : TimerHeap := ⟨h.items.tail, h.sorted.tail⟩

def len (h : TimerHeap) : ℕ := h.items.length

end TimerHeap

/-! ## Shards -/

structure Shard where
  flows : Table FlowKey FlowState := ∅
  tombstones : TcpTombstones := {}
  timers : TimerHeap := .empty
  sourceCounts : Table SourcePrefix ℕ := ∅
  serial : ℕ := 0

/-- What a step does to the counter of active flows. -/
inductive Access where
  | none
  | reserve
  | release
  deriving DecidableEq, Repr

def Access.apply : Access → ℕ → ℕ
  | .none, active => active
  | .reserve, active => active + 1
  | .release, active => if active = 0 then u64Max else active - 1

def tryAdmitFlow (active maxActiveFlows : ℕ) : Bool := decide (active < maxActiveFlows)

namespace Shard

/-- A count that reaches zero leaves the table. -/
def releaseSource (counts : Table SourcePrefix ℕ) (source : SourcePrefix) :
    Table SourcePrefix ℕ :=
  match counts.lookup source with
  | some count => if count - 1 = 0 then counts.erase source else counts.insert source (count - 1)
  | none => counts

def closeFlow (s : Shard) (accepts : FlowOutput → Bool) (key : FlowKey) :
    Shard × Access × List FlowOutput :=
  match s.flows.lookup key with
  | some flow =>
      ({ s with
          flows := s.flows.erase key
          sourceCounts := releaseSource s.sourceCounts flow.sourcePrefix },
        .release, flow.finish accepts)
  | none => (s, .none, [])

def nextSerial (s : Shard) : ℕ := (s.serial + 1) % 2 ^ 64

def schedule (s : Shard) (deadline : ℕ) (key : FlowKey) (flowId : Uuid) : Shard :=
  { s with
    serial := s.nextSerial
    timers := s.timers.push ⟨deadline, s.nextSerial, key, flowId⟩ }

/-- Control and empty packets that follow a close are not a new flow. -/
def suppressed (s : Shard) (tombstoned : Bool) (p : ParsedPacket) : Bool :=
  !(s.flows.lookup p.key).isSome && !p.flags.syn && tombstoned &&
    (p.flags.fin || p.flags.rst || p.payload.isEmpty)

def entomb (s : Shard) (key : FlowKey) (now : ℕ) : Shard :=
  match key.protocol with
  | .tcp => { s with tombstones := s.tombstones.insert key now }
  | .udp => s

/-- The rest of the round for a packet whose flow is in the table. -/
def handlePacket (s : Shard) (cfg : FlowConfig) (accepts : FlowOutput → Bool) (clock : Clock)
    (p : ParsedPacket) (flow : FlowState) (isNewFlow : Bool) :
    Shard × Access × List FlowOutput :=
  let sent := flow.handle accepts cfg clock p
  let s := { s with flows := s.flows.insert p.key sent.flow }
  if flow.closes accepts cfg clock p then
    let c := (s.entomb p.key clock.closed).closeFlow accepts p.key
    (c.1, c.2.1, sent.out ++ c.2.2)
  else if isNewFlow then
    (s.schedule (clock.scheduled + cfg.idleTimeout p.key.protocol) p.key sent.flow.id, .none,
      sent.out)
  else (s, .none, sent.out)

/-- A timer has fired: it is stale, or its flow is idle, or it is set again. -/
def fire (s : Shard) (cfg : FlowConfig) (accepts : FlowOutput → Bool) (now : ℕ)
    (item : TimerItem) : Shard × Access × List FlowOutput :=
  match s.flows.lookup item.key with
  | none => (s, .none, [])
  | some flow =>
      if flow.id = item.flowId then
        let nextDeadline := flow.lastActivity + cfg.idleTimeout flow.key.protocol
        if nextDeadline ≤ now then s.closeFlow accepts item.key
        else (s.schedule nextDeadline item.key flow.id, .none, [])
      else (s, .none, [])

/-- Stale timers go when there are many of them. -/
def compact (s : Shard) (cfg : FlowConfig) : Shard :=
  if 4096 < s.timers.len ∧ satAdd (min (s.flows.size * 2) u64Max) 1024 < s.timers.len then
    s.flows.entries.foldl (fun s e ↦
        s.schedule (e.2.lastActivity + cfg.idleTimeout e.2.key.protocol) e.1 e.2.id)
      { s with timers := .empty }
  else s

end Shard

/-! ## Steps -/

/-- Where a shard is in its round: at the receive, before it looks its packet's flow up,
between the reservation and the check of the prefix, in the loop over the timers, in the
drain after the loop, and done. -/
inductive Stage where
  | waiting
  | looking (packet : ParsedPacket) (clock : Clock)
  | reserved (packet : ParsedPacket) (clock : Clock)
  | expiring (now : ℕ)
  | draining
  | stopped
  deriving DecidableEq

structure Worker where
  shard : Shard := {}
  stage : Stage := .waiting

inductive Event where
  | packet (packet : ParsedPacket) (clock : Clock)
  | timeout (now : ℕ)
  | disconnected
  /-- The round goes on.  A flow that is created gets the identifier. -/
  | proceed (flowId : Uuid)
  /-- The drain takes the flow next. -/
  | drain (key : FlowKey)
  deriving DecidableEq

/-- A step of a shard, with the services and the L7 workers as it finds them. -/
structure Move where
  event : Event
  services : ServiceMap
  accepts : FlowOutput → Bool

structure Stepped where
  worker : Worker
  access : Access := .none
  out : List FlowOutput := []

namespace Worker

variable (cfg : FlowConfig) (active : ℕ) (m : Move)

/-- A new SYN removes the tombstone and closes the flow of the last generation. -/
def receive (w : Worker) (p : ParsedPacket) (clock : Clock) : Stepped :=
  let s := w.shard
  match p.key.protocol with
  | .udp => ⟨⟨s, .looking p clock⟩, .none, []⟩
  | .tcp =>
      if p.flags.syn && !p.flags.ack then
        let s := { s with tombstones := s.tombstones.remove p.key }
        if (s.flows.lookup p.key).any fun existing ↦ !existing.isSynRetransmit p then
          let c := s.closeFlow m.accepts p.key
          ⟨⟨c.1, .looking p clock⟩, c.2.1, c.2.2⟩
        else ⟨⟨s, .looking p clock⟩, .none, []⟩
      else if !(s.flows.lookup p.key).isSome && !p.flags.syn then
        let t := s.tombstones.containsLive p.key clock.tombstone
        let s' := { s with tombstones := t.1 }
        if s.suppressed t.2 p then ⟨⟨s', .waiting⟩, .none, []⟩
        else ⟨⟨s', .looking p clock⟩, .none, []⟩
      else ⟨⟨s, .looking p clock⟩, .none, []⟩

/-- The entry of the packet's flow is occupied or vacant. -/
def look (w : Worker) (p : ParsedPacket) (clock : Clock) : Stepped :=
  match w.shard.flows.lookup p.key with
  | some flow =>
      let r := w.shard.handlePacket cfg m.accepts clock p flow false
      ⟨⟨r.1, .expiring clock.expiry⟩, r.2.1, r.2.2⟩
  | none =>
      if m.services.acceptsDestination p && tryAdmitFlow active cfg.maxActiveFlows then
        ⟨{ w with stage := .reserved p clock }, .reserve, []⟩
      else ⟨{ w with stage := .waiting }, .none, []⟩

/-- The prefix has room for the flow, or the reservation is given back. -/
def openFlow (w : Worker) (p : ParsedPacket) (clock : Clock) (flowId : Uuid) : Stepped :=
  let source := SourcePrefix.fromPacket p
  let count := (w.shard.sourceCounts.lookup source).getD 0
  if cfg.maxFlowsPerSourcePrefix ≤ count then
    ⟨⟨{ w.shard with sourceCounts := w.shard.sourceCounts.insert source count }, .waiting⟩,
      .release, []⟩
  else
    let s := { w.shard with sourceCounts := w.shard.sourceCounts.insert source (count + 1) }
    let r := s.handlePacket cfg m.accepts clock p (.new p flowId clock.created) true
    ⟨⟨r.1, .expiring clock.expiry⟩, r.2.1, r.2.2⟩

/-- One timer, or the end of the round. -/
def expire (w : Worker) (now : ℕ) : Stepped :=
  match w.shard.timers.peek.filter fun item ↦ decide (item.deadline ≤ now) with
  | some item =>
      let s := { w.shard with timers := w.shard.timers.pop }
      let r := s.fire cfg m.accepts now item
      ⟨⟨r.1, .expiring now⟩, r.2.1, r.2.2⟩
  | none => ⟨⟨w.shard.compact cfg, .waiting⟩, .none, []⟩

def drain (w : Worker) (key : FlowKey) : Stepped :=
  let r := w.shard.closeFlow m.accepts key
  ⟨⟨r.1, if r.1.flows.size = 0 then .stopped else .draining⟩, r.2.1, r.2.2⟩

/-- Events that the stage does not wait for do nothing. -/
def step (w : Worker) : Stepped :=
  match w.stage, m.event with
  | .waiting, .packet p clock => w.receive m p clock
  | .waiting, .timeout now => ⟨{ w with stage := .expiring now }, .none, []⟩
  | .waiting, .disconnected =>
      ⟨{ w with stage := if w.shard.flows.size = 0 then .stopped else .draining }, .none, []⟩
  | .looking p clock, .proceed _ => w.look cfg active m p clock
  | .reserved p clock, .proceed flowId => w.openFlow cfg m p clock flowId
  | .expiring now, .proceed _ => w.expire cfg m now
  | .draining, .drain key => w.drain m key
  | _, _ => ⟨w, .none, []⟩

end Worker

end Flow

end Bazalt
