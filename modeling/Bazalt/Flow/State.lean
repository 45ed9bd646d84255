import Bazalt.Capture.Decoder
import Bazalt.Flow.Reassembly

/-!
# The state of a flow

A flow is one connection: the two halves of its stream, its counters and the times that
decide about snapshots and expiry.  A packet of the flow goes to the half of its direction,
its acknowledgement to the other half, and what they emit is sent on to the L7 worker of
the flow.

Instants and durations are in nanoseconds.  A send fails when the L7 worker has stopped;
which events are accepted is an argument.
-/

namespace Bazalt.Flow

open Lib Capture

structure FlowConfig where
  maxActiveFlows : ℕ
  maxFlowsPerSourcePrefix : ℕ
  maxOooBytes : ℕ
  maxOooSegments : ℕ
  tcpGapTimeoutNs : ℕ
  tcpIdleTimeout : ℕ
  udpIdleTimeout : ℕ
  liveFlowUpdateInterval : ℕ
  deriving DecidableEq, Repr

def FlowConfig.idleTimeout (cfg : FlowConfig) : TransportProtocol → ℕ
  | .tcp => cfg.tcpIdleTimeout
  | .udp => cfg.udpIdleTimeout

def FlowConfig.limits (cfg : FlowConfig) : Limits :=
  ⟨cfg.maxOooBytes, cfg.maxOooSegments, cfg.tcpGapTimeoutNs⟩

/-- A /24 or a /64. -/
inductive SourcePrefix where
  | v4 (bits : BitVec 32)
  | v6 (octets : BitVec 64)
  deriving DecidableEq, Repr

def SourcePrefix.fromPacket (packet : ParsedPacket) : SourcePrefix :=
  match packet.sourceEndpoint.ip with
  | .v4 octets => .v4 (octets >>> 8)
  | .v6 octets => .v6 (octets.extractLsb' 64 64)

structure StreamChunk where
  flowId : Uuid
  tsNs : ℕ
  direction : Direction
  key : FlowKey
  offset : ℕ
  data : Bytes
  truncated : Bool
  deriving DecidableEq, Repr

structure FlowSummary where
  flowId : Uuid
  startedAt : ℕ
  endedAt : ℕ
  src : Endpoint
  dst : Endpoint
  protocol : TransportProtocol
  packetsC2s : ℕ
  packetsS2c : ℕ
  bytesC2s : ℕ
  bytesS2c : ℕ
  truncated : Bool
  deriving DecidableEq, Repr

inductive FlowOutput where
  | chunk (chunk : StreamChunk)
  | snapshot (summary : FlowSummary)
  | closed (summary : FlowSummary)
  deriving DecidableEq, Repr

def FlowOutput.flowId : FlowOutput → Uuid
  | chunk c => c.flowId
  | snapshot s => s.flowId
  | closed s => s.flowId

/-- The readings of the clock in one round of the shard loop, in the order in which they
are taken. -/
structure Clock where
  tombstone : ℕ
  created : ℕ
  activity : ℕ
  snapshot : ℕ
  scheduled : ℕ
  closed : ℕ
  expiry : ℕ
  deriving DecidableEq, Repr

/-- One reading for the whole round. -/
def Clock.at (now : ℕ) : Clock := ⟨now, now, now, now, now, now, now⟩

structure FlowState where
  id : Uuid
  key : FlowKey
  initiator : Direction
  sourcePrefix : SourcePrefix
  startedNs : ℕ
  lastSeenNs : ℕ
  lastActivity : ℕ
  aToB : TcpHalf := {}
  bToA : TcpHalf := {}
  packetsAToB : ℕ := 0
  packetsBToA : ℕ := 0
  bytesAToB : ℕ := 0
  bytesBToA : ℕ := 0
  truncated : Bool := false
  visible : Bool := false
  lastSnapshot : ℕ
  deriving DecidableEq

namespace TcpHalf

def isInitialized (h : TcpHalf) : Bool := h.nextAbs.isSome

def reserveUdpOffset (h : TcpHalf) (len : ℕ) : TcpHalf × ℕ :=
  ({ h with streamOffset := satAdd h.streamOffset len }, h.streamOffset)

end TcpHalf

namespace FlowState

def new (packet : ParsedPacket) (id : Uuid) (now : ℕ) : FlowState where
  id := id
  key := packet.key
  initiator := packet.direction
  sourcePrefix := .fromPacket packet
  startedNs := packet.tsNs
  lastSeenNs := packet.tsNs
  lastActivity := now
  lastSnapshot := now

def half (f : FlowState) : Direction → TcpHalf
  | .aToB => f.aToB
  | .bToA => f.bToA

def setHalf (f : FlowState) (d : Direction) (h : TcpHalf) : FlowState :=
  match d with
  | .aToB => { f with aToB := h }
  | .bToA => { f with bToA := h }

def isSynRetransmit (f : FlowState) (p : ParsedPacket) : Bool :=
  p.flags.syn && !p.flags.ack && p.seq.isSome &&
    decide ((f.half p.direction).initialSynSeq = p.seq.map UInt32.toBitVec)

def countPacket (f : FlowState) (p : ParsedPacket) (now : ℕ) : FlowState :=
  match p.direction with
  | .aToB => { f with
      packetsAToB := f.packetsAToB + 1
      bytesAToB := f.bytesAToB + p.payload.length
      lastSeenNs := p.tsNs
      lastActivity := now }
  | .bToA => { f with
      packetsBToA := f.packetsBToA + 1
      bytesBToA := f.bytesBToA + p.payload.length
      lastSeenNs := p.tsNs
      lastActivity := now }

def shouldClose (f : FlowState) (rstAccepted : Bool) : Bool :=
  rstAccepted || (f.aToB.finConsumed && f.bToA.finConsumed)

def summary (f : FlowState) : FlowSummary :=
  match f.initiator with
  | .aToB => ⟨f.id, f.startedNs, f.lastSeenNs, f.key.a, f.key.b, f.key.protocol,
      f.packetsAToB, f.packetsBToA, f.bytesAToB, f.bytesBToA, f.truncated⟩
  | .bToA => ⟨f.id, f.startedNs, f.lastSeenNs, f.key.b, f.key.a, f.key.protocol,
      f.packetsBToA, f.packetsAToB, f.bytesBToA, f.bytesAToB, f.truncated⟩

end FlowState

/-- A flow, the events it has sent and whether there was content among them. -/
structure Sending where
  flow : FlowState
  out : List FlowOutput := []
  emitted : Bool := false

namespace Sending

variable (accepts : FlowOutput → Bool)

/-- The flow is truncated from the first event that is not accepted. -/
def send (s : Sending) (event : FlowOutput) : Sending :=
  if accepts event then { s with out := s.out ++ [event] }
  else { s with flow := { s.flow with truncated := true } }

def chunkOf (f : FlowState) (direction : Direction) (c : ReassembledChunk) : StreamChunk :=
  ⟨f.id, c.tsNs, direction, f.key, c.offset, c.data, f.truncated⟩

/-- The chunks are sent until one is not accepted. -/
def sendChunks (direction : Direction) : List ReassembledChunk → Sending → Sending
  | [], s => s
  | c :: cs, s =>
      if accepts (.chunk (chunkOf s.flow direction c)) then
        sendChunks direction cs (s.send accepts (.chunk (chunkOf s.flow direction c)))
      else s.send accepts (.chunk (chunkOf s.flow direction c))

def emitTcpOutcome (s : Sending) (outcome : ReassemblyOutcome) (direction : Direction) : Sending :=
  sendChunks accepts direction outcome.emitted
    { s with emitted := s.emitted || !outcome.emitted.isEmpty }

def setHalf (s : Sending) (direction : Direction) (h : TcpHalf) : Sending :=
  { s with flow := s.flow.setHalf direction h }

/-- A call on one half of the flow, with what it emits. -/
def call (s : Sending) (direction : Direction) (c : Call) : Sending :=
  (s.setHalf direction ((s.flow.half direction).step c).half).emitTcpOutcome accepts
    ((s.flow.half direction).step c).out direction

def sequenceNumber (n : Option UInt32) : BitVec 32 := (n.map UInt32.toBitVec).getD 0

/-- An accepted reset has the sequence number that is expected next. -/
def rstAccepted (f : FlowState) (p : ParsedPacket) : Bool :=
  decide (p.key.protocol = .tcp) && p.flags.rst &&
    (f.half p.direction).rstMatchesNext (sequenceNumber p.seq)

def acknowledge (cfg : FlowConfig) (p : ParsedPacket) (rst : Bool) (s : Sending) : Sending :=
  if p.flags.ack && (!p.flags.rst || rst) then
    match p.ack with
    | some ack =>
        s.call accepts p.direction.opposite (.acknowledge ack.toBitVec p.tsNs cfg.tcpGapTimeoutNs)
    | none => s
  else s

/-- A reset carries no payload, and a pure acknowledgement nothing for its own half. -/
def accept (cfg : FlowConfig) (p : ParsedPacket) (s : Sending) : Sending :=
  if p.flags.rst then s
  else if !p.payload.isEmpty || p.flags.syn || p.flags.fin ||
      !(s.flow.half p.direction).isInitialized then
    s.call accepts p.direction
      (.accept (sequenceNumber p.seq) p.flags.syn p.flags.fin p.tsNs p.payload cfg.limits)
  else s

def udpChunk (f : FlowState) (p : ParsedPacket) : StreamChunk :=
  ⟨f.id, p.tsNs, p.direction, p.key, ((f.half p.direction).reserveUdpOffset p.payload.length).2,
    p.payload, f.truncated⟩

def markEmitted (s : Sending) : Sending := { s with emitted := true }

def handleUdp (p : ParsedPacket) (s : Sending) : Sending :=
  if p.payload.isEmpty then s
  else (s.setHalf p.direction
    ((s.flow.half p.direction).reserveUdpOffset p.payload.length).1).markEmitted.send accepts
      (.chunk (udpChunk s.flow p))

def content (cfg : FlowConfig) (p : ParsedPacket) (s : Sending) : Sending :=
  match p.key.protocol with
  | .tcp => (s.acknowledge accepts cfg p (rstAccepted s.flow p)).accept accepts cfg p
  | .udp => s.handleUdp accepts p

def visibleAt (now : ℕ) (s : Sending) : Sending :=
  { s with flow := { s.flow with visible := true, lastSnapshot := now } }

/-- A flow becomes visible with its first content; later snapshots keep a distance. -/
def snapshot (cfg : FlowConfig) (now : ℕ) (s : Sending) : Sending :=
  if s.emitted && (!s.flow.visible ||
      decide (cfg.liveFlowUpdateInterval ≤ now - s.flow.lastSnapshot)) then
    (s.visibleAt now).send accepts (.snapshot (s.visibleAt now).flow.summary)
  else s

end Sending

namespace FlowState

variable (accepts : FlowOutput → Bool)

/-- What a packet does to its flow. -/
def handle (cfg : FlowConfig) (clock : Clock) (p : ParsedPacket) (f : FlowState) : Sending :=
  (Sending.content accepts cfg p ⟨f.countPacket p clock.activity, [], false⟩).snapshot accepts
    cfg clock.snapshot

/-- The packet closes its flow: it is a reset, or the second of the two FINs. -/
def closes (cfg : FlowConfig) (clock : Clock) (p : ParsedPacket) (f : FlowState) : Bool :=
  (f.handle accepts cfg clock p).flow.shouldClose
    (Sending.rstAccepted (f.countPacket p clock.activity) p)

def finalizeTcpHalves (f : FlowState) : Sending :=
  match f.key.protocol with
  | .udp => ⟨f, [], false⟩
  | .tcp =>
      let s : Sending := Sending.call accepts ⟨f, [], false⟩ .aToB (.finalize f.lastSeenNs)
      let s := s.call accepts .bToA (.finalize f.lastSeenNs)
      if s.emitted then { s with flow := { s.flow with visible := true } } else s

/-- The last events of a flow. -/
def finish (f : FlowState) : List FlowOutput :=
  let s := f.finalizeTcpHalves accepts
  if s.flow.visible && accepts (.closed s.flow.summary) then s.out ++ [.closed s.flow.summary]
  else s.out

end FlowState

/-! ## What stays the same -/

/-- What a flow keeps while it sends. -/
structure FlowState.Alike (f g : FlowState) : Prop where
  id : g.id = f.id
  key : g.key = f.key
  sourcePrefix : g.sourcePrefix = f.sourcePrefix
  lastActivity : g.lastActivity = f.lastActivity

namespace FlowState.Alike

theorem refl (f : FlowState) : f.Alike f := ⟨rfl, rfl, rfl, rfl⟩

theorem trans {f g h : FlowState} (hfg : f.Alike g) (hgh : g.Alike h) : f.Alike h :=
  ⟨hgh.id.trans hfg.id, hgh.key.trans hfg.key, hgh.sourcePrefix.trans hfg.sourcePrefix,
    hgh.lastActivity.trans hfg.lastActivity⟩

end FlowState.Alike

theorem FlowState.alike_setHalf (f : FlowState) (d : Direction) (h : TcpHalf) :
    f.Alike (f.setHalf d h) := by
  cases d <;> exact ⟨rfl, rfl, rfl, rfl⟩

namespace Sending

variable {accepts : FlowOutput → Bool}

theorem alike_send (s : Sending) (event : FlowOutput) :
    s.flow.Alike (s.send accepts event).flow := by
  unfold send
  split_ifs <;> exact ⟨rfl, rfl, rfl, rfl⟩

theorem alike_sendChunks (direction : Direction) (cs : List ReassembledChunk) (s : Sending) :
    s.flow.Alike (sendChunks accepts direction cs s).flow := by
  induction cs generalizing s with
  | nil => exact .refl _
  | cons c cs ih =>
      unfold sendChunks
      split_ifs
      · exact (alike_send s _).trans (ih _)
      · exact alike_send s _

theorem alike_emitTcpOutcome (s : Sending) (outcome : ReassemblyOutcome) (direction : Direction) :
    s.flow.Alike (s.emitTcpOutcome accepts outcome direction).flow :=
  alike_sendChunks direction outcome.emitted
    { s with emitted := s.emitted || !outcome.emitted.isEmpty }

theorem alike_setHalf (s : Sending) (direction : Direction) (h : TcpHalf) :
    s.flow.Alike (s.setHalf direction h).flow := s.flow.alike_setHalf direction h

theorem alike_call (s : Sending) (direction : Direction) (c : Call) :
    s.flow.Alike (s.call accepts direction c).flow :=
  (s.alike_setHalf direction _).trans (alike_emitTcpOutcome _ _ direction)

theorem alike_acknowledge (cfg : FlowConfig) (p : ParsedPacket) (rst : Bool) (s : Sending) :
    s.flow.Alike (s.acknowledge accepts cfg p rst).flow := by
  unfold acknowledge
  split
  · split
    · exact alike_call s _ _
    · exact .refl _
  · exact .refl _

theorem alike_accept (cfg : FlowConfig) (p : ParsedPacket) (s : Sending) :
    s.flow.Alike (s.accept accepts cfg p).flow := by
  unfold accept
  split_ifs
  · exact .refl _
  · exact alike_call s _ _
  · exact .refl _

theorem alike_handleUdp (p : ParsedPacket) (s : Sending) :
    s.flow.Alike (s.handleUdp accepts p).flow := by
  unfold handleUdp
  split_ifs
  · exact .refl _
  · exact (s.alike_setHalf p.direction _).trans
      (alike_send (s.setHalf p.direction _).markEmitted (.chunk (udpChunk s.flow p)))

theorem alike_content (cfg : FlowConfig) (p : ParsedPacket) (s : Sending) :
    s.flow.Alike (s.content accepts cfg p).flow := by
  unfold content
  cases p.key.protocol with
  | tcp => exact (alike_acknowledge cfg p _ s).trans (alike_accept cfg p _)
  | udp => exact alike_handleUdp p s

theorem alike_snapshot (cfg : FlowConfig) (now : ℕ) (s : Sending) :
    s.flow.Alike (s.snapshot accepts cfg now).flow := by
  unfold snapshot
  split_ifs
  · have hvisible : s.flow.Alike (s.visibleAt now).flow := ⟨rfl, rfl, rfl, rfl⟩
    exact hvisible.trans (alike_send _ _)
  · exact .refl _

end Sending

/-- A packet only moves the time of the last activity. -/
theorem FlowState.alike_handle (accepts : FlowOutput → Bool) (cfg : FlowConfig) (clock : Clock)
    (p : ParsedPacket) (f : FlowState) :
    (f.countPacket p clock.activity).Alike (f.handle accepts cfg clock p).flow :=
  FlowState.Alike.trans (Sending.alike_content cfg p ⟨f.countPacket p clock.activity, [], false⟩)
    (Sending.alike_snapshot cfg _ _)

theorem FlowState.countPacket_eq (f : FlowState) (p : ParsedPacket) (now : ℕ) :
    (f.countPacket p now).id = f.id ∧ (f.countPacket p now).key = f.key ∧
      (f.countPacket p now).sourcePrefix = f.sourcePrefix ∧
      (f.countPacket p now).lastActivity = now := by
  unfold countPacket
  cases p.direction <;> exact ⟨rfl, rfl, rfl, rfl⟩

end Bazalt.Flow
