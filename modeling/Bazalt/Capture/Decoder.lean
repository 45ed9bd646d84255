import Bazalt.Capture.Fragment
import Mathlib.Data.Prod.Lex

/-!
# The packet decoder

A frame is decoded from the outside: VLAN tags, the IP header with its options and
fragments, then TCP, UDP or a tunnel, whose content is decoded in the same way one level
deeper.  Reading outside of the captured bytes is an error of its own here, and so is a
loop that does not end.
-/

namespace Bazalt.Capture

inductive DecodeError where
  | bail (message : String)
  | outOfBounds
  | outOfFuel
  deriving DecidableEq, Repr

section Bytes

def byteAt (b : Bytes) (i : ℕ) : Except DecodeError UInt8 :=
  match b[i]? with
  | some x => .ok x
  | none => .error .outOfBounds

/-- `u16::from_be_bytes` of two bytes at a position. -/
def u16At (b : Bytes) (i : ℕ) : Except DecodeError UInt16 := do
  let high ← byteAt b i
  let low ← byteAt b (i + 1)
  return high.toUInt16 <<< 8 ||| low.toUInt16

def u32At (b : Bytes) (i : ℕ) : Except DecodeError UInt32 := do
  let high ← u16At b i
  let low ← u16At b (i + 2)
  return high.toUInt32 <<< 16 ||| low.toUInt32

/-- `b[i..j]`. -/
def slice (b : Bytes) (i j : ℕ) : Except DecodeError Bytes :=
  if i ≤ j ∧ j ≤ b.length then .ok ((b.take j).drop i) else .error .outOfBounds

def ofBe (b : Bytes) : ℕ := b.foldl (fun n x ↦ 256 * n + x.toNat) 0

/-- An error that the source returns when a check fails. -/
def ensure (p : Prop) [Decidable p] (message : String) : Except DecodeError Unit :=
  if p then .ok () else .error (.bail message)

@[simp] theorem bind_eq_ok {α β : Type} {x : Except DecodeError α}
    {f : α → Except DecodeError β} {b : β} :
    (x >>= f) = .ok b ↔ ∃ a, x = .ok a ∧ f a = .ok b :=
  except_bind_eq_ok

@[simp] theorem ensure_eq_ok {p : Prop} [Decidable p] {message : String} {u : Unit} :
    ensure p message = .ok u ↔ p := by
  unfold ensure
  split_ifs with h <;> simp [h]

@[simp] theorem byteAt_eq_ok {b : Bytes} {i : ℕ} {x : UInt8} :
    byteAt b i = .ok x ↔ b[i]? = some x := by
  unfold byteAt
  split <;> simp_all

@[simp] theorem slice_eq_ok {b c : Bytes} {i j : ℕ} :
    slice b i j = .ok c ↔ (i ≤ j ∧ j ≤ b.length) ∧ (b.take j).drop i = c := by
  unfold slice
  split_ifs with h <;> simp [h]

theorem byteAt_drop (b : Bytes) (i k : ℕ) : byteAt (b.drop i) k = byteAt b (i + k) := by
  simp only [byteAt, List.getElem?_drop]

theorem u16At_drop (b : Bytes) (i k : ℕ) : u16At (b.drop i) k = u16At b (i + k) := by
  simp only [u16At, byteAt_drop, Nat.add_assoc]

theorem byteAt_of_byteAt_slice {b c : Bytes} {i j k : ℕ} {x : UInt8} (hc : slice b i j = .ok c)
    (h : byteAt c k = .ok x) : byteAt b (i + k) = .ok x := by
  obtain ⟨-, rfl⟩ := slice_eq_ok.mp hc
  rw [byteAt_eq_ok, List.getElem?_drop, List.getElem?_take] at h
  split_ifs at h with hlt
  exact byteAt_eq_ok.mpr h

theorem u16At_eq_ok {b : Bytes} {i : ℕ} {x : UInt16} : u16At b i = .ok x ↔
    ∃ high, byteAt b i = .ok high ∧ ∃ low, byteAt b (i + 1) = .ok low ∧
      high.toUInt16 <<< 8 ||| low.toUInt16 = x := by
  simp only [u16At, bind_eq_ok, pure, Except.pure, Except.ok.injEq]

theorem u16At_of_u16At_slice {b c : Bytes} {i j k : ℕ} {x : UInt16} (hc : slice b i j = .ok c)
    (h : u16At c k = .ok x) : u16At b (i + k) = .ok x := by
  obtain ⟨high, hhigh, low, hlow, hx⟩ := u16At_eq_ok.mp h
  have hnext := byteAt_of_byteAt_slice hc hlow
  rw [← Nat.add_assoc] at hnext
  exact u16At_eq_ok.mpr ⟨high, byteAt_of_byteAt_slice hc hhigh, low, hnext, hx⟩

end Bytes

section Model

/-- IPv4 addresses are before IPv6 addresses; octets are compared as in the numbers they
write. -/
def IpAddr.sortKey : IpAddr → ℕ ×ₗ ℕ
  | .v4 octets => toLex (4, octets.toNat)
  | .v6 octets => toLex (6, octets.toNat)

structure Endpoint where
  ip : IpAddr
  port : UInt16
  deriving DecidableEq, Repr

def endpointSortKey (e : Endpoint) : (ℕ ×ₗ ℕ) ×ₗ ℕ := toLex (e.ip.sortKey, e.port.toNat)

inductive TransportProtocol where
  | tcp
  | udp
  deriving DecidableEq, Repr

structure FlowKey where
  a : Endpoint
  b : Endpoint
  protocol : TransportProtocol
  l2Domain : UInt64
  deriving DecidableEq, Repr

def FlowKey.canonicalWithDomain (src dst : Endpoint) (protocol : TransportProtocol)
    (l2Domain : UInt64) : FlowKey × Direction :=
  if endpointSortKey src ≤ endpointSortKey dst then (⟨src, dst, protocol, l2Domain⟩, .aToB)
  else (⟨dst, src, protocol, l2Domain⟩, .bToA)

structure TcpFlags where
  fin : Bool := false
  syn : Bool := false
  rst : Bool := false
  psh : Bool := false
  ack : Bool := false
  deriving DecidableEq, Repr

structure ParsedPacket where
  tsNs : ℕ
  key : FlowKey
  direction : Direction
  seq : Option UInt32
  ack : Option UInt32
  flags : TcpFlags
  payload : Bytes
  wireLen : ℕ
  deriving DecidableEq, Repr

def ParsedPacket.sourceEndpoint (p : ParsedPacket) : Endpoint :=
  match p.direction with
  | .aToB => p.key.a
  | .bToA => p.key.b

def ParsedPacket.destinationEndpoint (p : ParsedPacket) : Endpoint :=
  match p.direction with
  | .aToB => p.key.b
  | .bToA => p.key.a

/-- The endpoints do not depend on which of them comes first in the key. -/
theorem endpoints_of_canonical {p : ParsedPacket} {src dst : Endpoint}
    {protocol : TransportProtocol} {l2Domain : UInt64}
    (h : FlowKey.canonicalWithDomain src dst protocol l2Domain = (p.key, p.direction)) :
    p.sourceEndpoint = src ∧ p.destinationEndpoint = dst := by
  unfold FlowKey.canonicalWithDomain at h
  split_ifs at h with hle
  all_goals
    obtain ⟨hkey, hdirection⟩ := Prod.mk.inj h
    simp [ParsedPacket.sourceEndpoint, ParsedPacket.destinationEndpoint, ← hkey, ← hdirection]

end Model

section Domains

def rotateLeft (x : UInt64) (n : ℕ) : UInt64 := ⟨x.toBitVec.rotateLeft n⟩

def mixDomain (domain kind value : UInt64) : UInt64 :=
  let z := domain ^^^ rotateLeft kind 17 ^^^ value * 0x9e3779b97f4a7c15
  let z := z ^^^ z >>> 30
  let z := z * 0xbf58476d1ce4e5b9
  let z := z ^^^ z >>> 27
  let z := z * 0x94d049bb133111eb
  (z ^^^ z >>> 31) ||| 1

def mixAddress (kind tag domain : UInt64) : IpAddr → UInt64
  | .v4 octets => mixDomain domain (kind ^^^ tag) (UInt64.ofNat octets.toNat)
  | .v6 octets =>
      let domain := mixDomain domain (kind ^^^ tag) (UInt64.ofNat (octets.toNat >>> 64))
      mixDomain domain (kind ^^^ rotateLeft tag 7) (UInt64.ofNat octets.toNat)

/-- The identity of a tunnel does not depend on the direction. -/
def mixTunnelDomain (domain kind : UInt64) (src dst : IpAddr) (id : UInt64) : UInt64 :=
  let (first, second) := if src.sortKey ≤ dst.sortKey then (src, dst) else (dst, src)
  let domain := mixDomain domain kind id
  mixAddress kind 0x44535402 (mixAddress kind 0x53524301 domain first) second

end Domains

section Headers

def etherTypeIpv4 : UInt16 := 0x0800

def etherTypeIpv6 : UInt16 := 0x86dd

def etherTypeTeb : UInt16 := 0x6558

/-- The EtherTypes of VLAN tags. -/
def IsVlanTag (etherType : UInt16) : Prop :=
  etherType = 0x8100 ∨ etherType = 0x88a8 ∨ etherType = 0x9100 ∨ etherType = 0x9200

instance (etherType : UInt16) : Decidable (IsVlanTag etherType) :=
  inferInstanceAs (Decidable (_ ∨ _))

structure Ethernet where
  etherType : UInt16
  l3Offset : ℕ
  domain : UInt64

/-- The rounds of the loop over VLAN tags. -/
def skipVlans (frame : Bytes) : ℕ → Ethernet → Except DecodeError Ethernet
  | 0, e => .ok e
  | rounds + 1, e =>
      if IsVlanTag e.etherType then do
        ensure (e.l3Offset + 4 ≤ frame.length) "truncated vlan header"
        let tci ← u16At frame e.l3Offset
        let etherType ← u16At frame (e.l3Offset + 2)
        skipVlans frame rounds
          { etherType := etherType
            l3Offset := e.l3Offset + 4
            domain := mixDomain e.domain 0x564c414e (tci &&& 0x0fff).toUInt64 }
      else .ok e

def parseEthernet (frame : Bytes) (inheritedDomain : UInt64) : Except DecodeError Ethernet := do
  ensure (14 ≤ frame.length) "truncated ethernet header"
  let etherType ← u16At frame 12
  skipVlans frame 4 { etherType := etherType, l3Offset := 14, domain := inheritedDomain }

structure Ipv4 where
  src : IpAddr
  dst : IpAddr
  protocol : UInt8
  id : UInt16
  frag : UInt16
  payload : Bytes

def Ipv4.offset (h : Ipv4) : ℕ := (h.frag &&& 0x1fff).toNat * 8

def Ipv4.more (h : Ipv4) : Bool := h.frag &&& 0x2000 != 0

def parseIpv4 (packet : Bytes) : Except DecodeError Ipv4 := do
  ensure (20 ≤ packet.length) "truncated ipv4 header"
  let first ← byteAt packet 0
  ensure (first >>> 4 = 4) "invalid ipv4 version"
  let ihl := (first &&& 0x0f).toNat * 4
  ensure (20 ≤ ihl) "invalid ipv4 ihl"
  ensure (ihl ≤ packet.length) "truncated ipv4 options/header"
  let totalLen := (← u16At packet 2).toNat
  ensure (ihl ≤ totalLen) "invalid ipv4 total length"
  ensure (totalLen ≤ packet.length)
    s!"truncated ipv4 packet: declared {totalLen}, captured {packet.length}"
  let src ← slice packet 12 16
  let dst ← slice packet 16 20
  let protocol ← byteAt packet 9
  let frag ← u16At packet 6
  let payload ← slice packet ihl totalLen
  let id ← u16At packet 4
  return {
    src := .v4 (BitVec.ofNat 32 (ofBe src))
    dst := .v4 (BitVec.ofNat 32 (ofBe dst))
    protocol, id, frag, payload }

/-- Where the walk over extension headers ends: at a payload, or at a fragment header. -/
structure Extensions where
  next : UInt8
  offset : ℕ

/-- The texts of the errors of the walk, which depend on where it is made. -/
structure ExtensionTexts where
  header : String
  body : UInt8 → String
  authHeader : String
  authBody : String

/-- The walk over the extension headers of IPv6.  A header has at least eight bytes. -/
def walkExtensions (texts : ExtensionTexts) (packet : Bytes) (limit : ℕ) :
    ℕ → Extensions → Except DecodeError Extensions
  | 0, _ => .error .outOfFuel
  | fuel + 1, e =>
      if e.next = 0 ∨ e.next = 43 ∨ e.next = 60 then do
        ensure (e.offset + 2 ≤ limit) texts.header
        let next ← byteAt packet e.offset
        let len := ((← byteAt packet (e.offset + 1)).toNat + 1) * 8
        ensure (e.offset + len ≤ limit) (texts.body e.next)
        walkExtensions texts packet limit fuel ⟨next, e.offset + len⟩
      else if e.next = 51 then do
        ensure (e.offset + 2 ≤ limit) texts.authHeader
        let next ← byteAt packet e.offset
        let len := ((← byteAt packet (e.offset + 1)).toNat + 2) * 4
        ensure (e.offset + len ≤ limit) texts.authBody
        walkExtensions texts packet limit fuel ⟨next, e.offset + len⟩
      else .ok e

structure Ipv6 where
  src : IpAddr
  dst : IpAddr
  ipLen : ℕ
  next : UInt8

def parseIpv6 (packet : Bytes) : Except DecodeError Ipv6 := do
  ensure (40 ≤ packet.length) "truncated ipv6 header"
  let first ← byteAt packet 0
  ensure (first >>> 4 = 6) "invalid ipv6 version"
  let payloadLen := (← u16At packet 4).toNat
  let ipLen := satAdd 40 payloadLen
  ensure (ipLen ≤ packet.length)
    s!"truncated ipv6 packet: declared {ipLen}, captured {packet.length}"
  let src ← slice packet 8 24
  let dst ← slice packet 24 40
  let next ← byteAt packet 6
  return {
    src := .v6 (BitVec.ofNat 128 (ofBe src))
    dst := .v6 (BitVec.ofNat 128 (ofBe dst))
    ipLen, next }

structure FragmentHeader where
  next : UInt8
  offset : ℕ
  more : Bool
  id : UInt32
  payload : Bytes

def parseFragmentHeader (packet : Bytes) (offset ipLen : ℕ) : Except DecodeError FragmentHeader := do
  ensure (offset + 8 ≤ ipLen) "truncated ipv6 fragment header"
  let next ← byteAt packet offset
  let frag ← u16At packet (offset + 2)
  let id ← u32At packet (offset + 4)
  let payload ← slice packet (offset + 8) ipLen
  return {
    next, id, payload
    offset := (frag &&& 0xfff8).toNat
    more := frag &&& 1 != 0 }

def parseTcp (tsNs wireLen : ℕ) (src dst : IpAddr) (tcp : Bytes) (l2Domain : UInt64) :
    Except DecodeError ParsedPacket := do
  ensure (20 ≤ tcp.length) "truncated tcp header"
  let srcPort ← u16At tcp 0
  let dstPort ← u16At tcp 2
  let seq ← u32At tcp 4
  let ack ← u32At tcp 8
  let dataOffset := ((← byteAt tcp 12) >>> 4).toNat * 4
  ensure (20 ≤ dataOffset) "invalid tcp data offset"
  ensure (dataOffset ≤ tcp.length) "truncated tcp options/header"
  let bits ← byteAt tcp 13
  let (key, direction) :=
    FlowKey.canonicalWithDomain ⟨src, srcPort⟩ ⟨dst, dstPort⟩ .tcp l2Domain
  let payload ← slice tcp dataOffset tcp.length
  return {
    tsNs, key, direction, payload, wireLen
    seq := some seq
    ack := some ack
    flags := {
      fin := bits &&& 0x01 != 0
      syn := bits &&& 0x02 != 0
      rst := bits &&& 0x04 != 0
      psh := bits &&& 0x08 != 0
      ack := bits &&& 0x10 != 0 } }

structure Udp where
  srcPort : UInt16
  dstPort : UInt16
  payload : Bytes

def parseUdp (udp : Bytes) : Except DecodeError Udp := do
  ensure (8 ≤ udp.length) "truncated udp header"
  let srcPort ← u16At udp 0
  let dstPort ← u16At udp 2
  let udpLen := (← u16At udp 4).toNat
  ensure (8 ≤ udpLen) "invalid udp length"
  ensure (udpLen ≤ udp.length)
    s!"truncated udp datagram: declared {udpLen}, captured {udp.length}"
  let payload ← slice udp 8 udpLen
  return { srcPort := srcPort, dstPort, payload }

/-- The UDP ports of VXLAN. -/
def IsVxlanPort (port : UInt16) : Prop := port = 4789 ∨ port = 8472

instance (port : UInt16) : Decidable (IsVxlanPort port) := inferInstanceAs (Decidable (_ ∨ _))

structure Vxlan where
  vni : UInt64
  inner : Bytes

/-- The VXLAN header, when the payload is long enough and has a network identifier. -/
def parseVxlan (vxlan : Bytes) : Except DecodeError (Option Vxlan) :=
  if 8 ≤ vxlan.length then do
    let flags ← byteAt vxlan 0
    if flags &&& 0x08 ≠ 0 then
      let high ← byteAt vxlan 4
      let middle ← byteAt vxlan 5
      let low ← byteAt vxlan 6
      let inner ← slice vxlan 8 vxlan.length
      return some {
        vni := high.toUInt64 <<< 16 ||| middle.toUInt64 <<< 8 ||| low.toUInt64
        inner := inner }
    else return none
  else .ok none

/-- The source-route entries of GRE, up to the entry that ends them. -/
def skipRoutes (gre : Bytes) : ℕ → ℕ → Except DecodeError ℕ
  | 0, _ => .error .outOfFuel
  | fuel + 1, offset => do
      ensure (offset + 4 ≤ gre.length) "truncated GRE routing entry"
      let af ← u16At gre offset
      let len := (← byteAt gre (offset + 3)).toNat
      if af = 0 ∧ len = 0 then return offset + 4
      else
        ensure (offset + 4 + len ≤ gre.length) "truncated GRE routing data"
        skipRoutes gre fuel (offset + 4 + len)

structure Gre where
  proto : UInt16
  key : UInt64
  inner : Bytes

/-- The GRE header; other versions than zero are not decoded. -/
def parseGre (gre : Bytes) : Except DecodeError (Option Gre) := do
  ensure (4 ≤ gre.length) "truncated GRE header"
  let flags ← u16At gre 0
  if flags &&& 0x0007 ≠ 0 then return none
  else
    let proto ← u16At gre 2
    let offset := if flags &&& 0xc000 ≠ 0 then satAdd 4 4 else 4
    let (key, offset) ←
      if flags &&& 0x2000 ≠ 0 then do
        ensure (offset + 4 ≤ gre.length) "truncated GRE key"
        let key ← u32At gre offset
        pure (key.toUInt64, offset + 4)
      else pure (0, offset)
    let offset := if flags &&& 0x1000 ≠ 0 then satAdd offset 4 else offset
    let offset ←
      if flags &&& 0x4000 ≠ 0 then skipRoutes gre (gre.length + 1) offset else pure offset
    ensure (offset ≤ gre.length) "truncated GRE header"
    let inner ← slice gre offset gre.length
    return some { proto := proto, key, inner }

/-- The fields that decide how a packet goes on, and where they are in it. -/
structure Ipv4.ReadFrom (packet : Bytes) (h : Ipv4) : Prop where
  protocol : byteAt packet 9 = .ok h.protocol
  frag : u16At packet 6 = .ok h.frag
  payload : ∃ first totalLen, byteAt packet 0 = .ok first ∧
    slice packet ((first &&& 0x0f).toNat * 4) totalLen = .ok h.payload

theorem parseIpv4_readFrom {packet : Bytes} {h : Ipv4} (hp : parseIpv4 packet = .ok h) :
    h.ReadFrom packet := by
  simp only [parseIpv4, bind_eq_ok, pure, Except.pure, Except.ok.injEq] at hp
  obtain ⟨-, -, first, hfirst, -, -, -, -, -, -, totalLen, -, -, -, -, -, src, -, dst, -,
    protocol, hprotocol, frag, hfrag, payload, hpayload, id, -, rfl⟩ := hp
  exact ⟨hprotocol, hfrag, first, totalLen.toNat, hfirst, hpayload⟩

theorem parseTcp_ports {tsNs wireLen : ℕ} {src dst : IpAddr} {tcp : Bytes} {l2Domain : UInt64}
    {p : ParsedPacket} (hp : parseTcp tsNs wireLen src dst tcp l2Domain = .ok p) :
    u16At tcp 0 = .ok p.sourceEndpoint.port ∧ u16At tcp 2 = .ok p.destinationEndpoint.port := by
  simp only [parseTcp, bind_eq_ok, pure, Except.pure, Except.ok.injEq] at hp
  obtain ⟨-, -, srcPort, hsrc, dstPort, hdst, seq, -, ack, -, first, -, -, -, -, -, bits, -,
    payload, -, hpacket⟩ := hp
  have hkey : FlowKey.canonicalWithDomain ⟨src, srcPort⟩ ⟨dst, dstPort⟩ .tcp l2Domain =
      (p.key, p.direction) := by rw [← hpacket]
  obtain ⟨hs, hd⟩ := endpoints_of_canonical hkey
  exact ⟨by rw [hsrc, hs], by rw [hdst, hd]⟩

theorem parseUdp_ports {udp : Bytes} {h : Udp} (hp : parseUdp udp = .ok h) :
    u16At udp 0 = .ok h.srcPort ∧ u16At udp 2 = .ok h.dstPort := by
  simp only [parseUdp, bind_eq_ok, pure, Except.pure, Except.ok.injEq] at hp
  obtain ⟨-, -, srcPort, hsrc, dstPort, hdst, len, -, -, -, -, -, payload, -, rfl⟩ := hp
  exact ⟨hsrc, hdst⟩

end Headers

inductive InnerOutcome where
  | packet (packet : ParsedPacket)
  | pendingFragment
  | ignored
  deriving DecidableEq, Repr

/-- What decoding gives, with the fragments that it leaves behind also when it fails. -/
abbrev Decoded := Except DecodeError InnerOutcome × SharedFragmentCache

/-- A header that was read, or the error of reading it. -/
def andThen {α : Type} (r : Except DecodeError α) (cache : SharedFragmentCache)
    (f : α → Decoded) : Decoded :=
  match r with
  | .ok a => f a
  | .error e => (.error e, cache)

/-- The settings of the decoder and the frame it decodes.  The clock is read at `now`. -/
structure PacketDecoder where
  tunnelDecapsulation : Bool
  tsNs : ℕ
  now : ℕ

inductive Link where
  | ethernet
  | ipv4
  | ipv6
  deriving DecidableEq, Repr

def maxTunnelDepth : ℕ := 3

namespace PacketDecoder

section Layers

-- `inner` decodes what a tunnel carries, one level deeper
variable (d : PacketDecoder) (inner : Link → ℕ → Bytes → UInt64 → SharedFragmentCache → Decoded)
  (depth : ℕ)

def decodeUdp (wireLen : ℕ) (src dst : IpAddr) (udp : Bytes) (l2Domain : UInt64)
    (cache : SharedFragmentCache) : Decoded :=
  andThen (parseUdp udp) cache fun header ↦
    let plain : Decoded :=
      let (key, direction) := FlowKey.canonicalWithDomain ⟨src, header.srcPort⟩
        ⟨dst, header.dstPort⟩ .udp l2Domain
      (.ok (.packet {
        tsNs := d.tsNs, key, direction, seq := none, ack := none, flags := {}
        payload := header.payload, wireLen }), cache)
    if d.tunnelDecapsulation = true ∧ depth < maxTunnelDepth ∧ IsVxlanPort header.dstPort then
      andThen (parseVxlan header.payload) cache fun
        | some vxlan =>
            inner .ethernet wireLen vxlan.inner
              (mixTunnelDomain l2Domain 0x56584c41 src dst vxlan.vni) cache
        | none => plain
    else plain

def decodeGre (wireLen : ℕ) (outerSrc outerDst : IpAddr) (gre : Bytes) (l2Domain : UInt64)
    (cache : SharedFragmentCache) : Decoded :=
  if maxTunnelDepth ≤ depth then (.ok .ignored, cache)
  else andThen (parseGre gre) cache fun
    | none => (.ok .ignored, cache)
    | some header =>
        let domain := mixTunnelDomain l2Domain 0x47524520 outerSrc outerDst header.key
        if header.proto = etherTypeIpv4 then inner .ipv4 wireLen header.inner domain cache
        else if header.proto = etherTypeIpv6 then inner .ipv6 wireLen header.inner domain cache
        else if header.proto = etherTypeTeb then inner .ethernet wireLen header.inner domain cache
        else (.ok .ignored, cache)

def decodeIpPayload (wireLen : ℕ) (src dst : IpAddr) (protocol : UInt8) (payload : Bytes)
    (l2Domain : UInt64) (cache : SharedFragmentCache) : Decoded :=
  if protocol = 6 then
    ((parseTcp d.tsNs wireLen src dst payload l2Domain).map .packet, cache)
  else if protocol = 17 then d.decodeUdp inner depth wireLen src dst payload l2Domain cache
  else if d.tunnelDecapsulation = true ∧ depth < maxTunnelDepth then
    if protocol = 47 then decodeGre inner depth wireLen src dst payload l2Domain cache
    else if protocol = 4 then
      inner .ipv4 wireLen payload (mixTunnelDomain l2Domain 0x49504950 src dst 4) cache
    else if protocol = 41 then
      inner .ipv6 wireLen payload (mixTunnelDomain l2Domain 0x49504950 src dst 6) cache
    else (.ok .ignored, cache)
  else (.ok .ignored, cache)

/-- A fragment goes into the cache; `whole` decodes the datagram that it completes. -/
def decodeFragment (key : FragmentKey) (offset : ℕ) (more : Bool) (payload : Bytes) (wireLen : ℕ)
    (whole : ℕ → Bytes → SharedFragmentCache → Decoded) (cache : SharedFragmentCache) : Decoded :=
  let (cache, result) := cache.insert d.now key offset more payload wireLen
  match result with
  | .pending => (.ok .pendingFragment, cache)
  | .droppedOverlap => (.ok .ignored, cache)
  | .droppedInvalid => (.ok .ignored, cache)
  | .complete payload wireBytes => whole wireBytes payload cache

def decodeIpv4 (wireLen : ℕ) (packet : Bytes) (l2Domain : UInt64) (cache : SharedFragmentCache) :
    Decoded :=
  andThen (parseIpv4 packet) cache fun header ↦
    let whole (wireLen : ℕ) (payload : Bytes) :=
      d.decodeIpPayload inner depth wireLen header.src header.dst header.protocol payload l2Domain
    if header.offset ≠ 0 ∨ header.more = true then
      d.decodeFragment
        { version := 4, l2Domain, src := header.src, dst := header.dst
          id := header.id.toNat, nextHeader := header.protocol }
        header.offset header.more header.payload wireLen whole cache
    else whole wireLen header.payload cache

def postFragmentTexts : ExtensionTexts where
  header := "truncated reassembled ipv6 extension"
  body _ := "truncated reassembled ipv6 extension body"
  authHeader := "truncated reassembled ipv6 auth header"
  authBody := "truncated reassembled ipv6 auth body"

/-- A fragment header inside of a fragment is not decoded. -/
def decodeIpv6PostFragment (src dst : IpAddr) (next : UInt8) (l2Domain : UInt64) (wireLen : ℕ)
    (payload : Bytes) (cache : SharedFragmentCache) : Decoded :=
  andThen (walkExtensions postFragmentTexts payload payload.length (payload.length + 1) ⟨next, 0⟩)
    cache fun e ↦
      if e.next = 44 then (.ok .ignored, cache)
      else andThen (slice payload e.offset payload.length) cache fun payload ↦
        d.decodeIpPayload inner depth wireLen src dst e.next payload l2Domain cache

def ipv6Texts : ExtensionTexts where
  header := "truncated ipv6 extension header"
  body current := s!"truncated ipv6 extension body type {current}"
  authHeader := "truncated ipv6 auth header"
  authBody := "truncated ipv6 auth body"

def decodeIpv6 (wireLen : ℕ) (packet : Bytes) (l2Domain : UInt64) (cache : SharedFragmentCache) :
    Decoded :=
  andThen (parseIpv6 packet) cache fun header ↦
    andThen (walkExtensions ipv6Texts packet header.ipLen (header.ipLen + 1) ⟨header.next, 40⟩)
      cache fun e ↦
        if e.next = 44 then
          andThen (parseFragmentHeader packet e.offset header.ipLen) cache fun fragment ↦
            let whole :=
              d.decodeIpv6PostFragment inner depth header.src header.dst fragment.next l2Domain
            -- an atomic fragment is complete on its own
            if fragment.offset = 0 ∧ fragment.more = false then whole wireLen fragment.payload cache
            else d.decodeFragment
              { version := 6, l2Domain, src := header.src, dst := header.dst
                id := fragment.id.toNat, nextHeader := fragment.next }
              fragment.offset fragment.more fragment.payload wireLen whole cache
        else if header.ipLen < e.offset then
          (.error (.bail "invalid ipv6 payload offset"), cache)
        else andThen (slice packet e.offset header.ipLen) cache fun payload ↦
          d.decodeIpPayload inner depth wireLen header.src header.dst e.next payload l2Domain cache

def decodeEthernetBytes (wireLen : ℕ) (frame : Bytes) (inheritedDomain : UInt64)
    (cache : SharedFragmentCache) : Decoded :=
  if maxTunnelDepth < depth then (.ok .ignored, cache)
  else andThen (parseEthernet frame inheritedDomain) cache fun header ↦
    andThen (slice frame header.l3Offset frame.length) cache fun l3 ↦
      if header.etherType = etherTypeIpv4 then
        d.decodeIpv4 inner depth wireLen l3 header.domain cache
      else if header.etherType = etherTypeIpv6 then
        d.decodeIpv6 inner depth wireLen l3 header.domain cache
      else (.ok .ignored, cache)

end Layers

/-- Decoding at a depth, with fuel for the levels below. -/
def decodeLink (d : PacketDecoder) : ℕ → ℕ → Link → ℕ → Bytes → UInt64 → SharedFragmentCache →
    Decoded
  | 0, _, _, _, _, _, cache => (.error .outOfFuel, cache)
  | fuel + 1, depth, link, wireLen, bytes, domain, cache =>
      let inner := d.decodeLink fuel (depth + 1)
      match link with
      | .ethernet => d.decodeEthernetBytes inner depth wireLen bytes domain cache
      | .ipv4 => d.decodeIpv4 inner depth wireLen bytes domain cache
      | .ipv6 => d.decodeIpv6 inner depth wireLen bytes domain cache

def decode (d : PacketDecoder) (wireLen : ℕ) (frame : Bytes) (cache : SharedFragmentCache) :
    Decoded :=
  d.decodeLink (maxTunnelDepth + 1) 0 .ethernet wireLen frame 0 cache

end PacketDecoder

end Bazalt.Capture
