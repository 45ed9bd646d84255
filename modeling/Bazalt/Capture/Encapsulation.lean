import Bazalt.Capture.DecoderSafety
import Bazalt.Lib.Wire

/-!
# Decoding what was encapsulated

A TCP segment or a UDP datagram travels in an IP packet, and the packet in an Ethernet frame, or
in a tunnel: IP in IP, GRE or VXLAN, whose packet is in an IP packet again.  The headers have
options, extension headers, tags and keys as they like, and a frame may be padded.

The decoder undoes all of it: whatever the nesting is, up to the depth it goes to, it comes back
with the innermost addresses, ports and bytes, and with a domain that names the tunnels and tags
on the way.
-/

namespace Bazalt.Capture

open Lib

/-! ## Numbers in network order -/

def be16 (x : UInt16) : Bytes := [(x >>> 8).toUInt8, x.toUInt8]

def be32 (x : UInt32) : Bytes := be16 (x >>> 16).toUInt16 ++ be16 x.toUInt16

def beBytes (w n : ℕ) : Bytes := (leBytes w n).reverse

/-- A number is put together from its upper and its lower part. -/
theorem div_shiftLeft_or_mod (n k : ℕ) : (n / 2 ^ k) <<< k ||| n % 2 ^ k = n := by
  rw [← Nat.shiftLeft_add_eq_or_of_lt (Nat.mod_lt n (Nat.two_pow_pos k)), Nat.shiftLeft_eq,
    Nat.mul_comm]
  exact Nat.div_add_mod n (2 ^ k)

theorem join_be16 (x : UInt16) : (x >>> 8).toUInt8.toUInt16 <<< 8 ||| x.toUInt8.toUInt16 = x := by
  apply UInt16.toNat_inj.mp
  have hx := x.toNat_lt
  have hjoin := div_shiftLeft_or_mod x.toNat 8
  have hhigh : x.toNat / 2 ^ 8 % 2 ^ 8 = x.toNat / 2 ^ 8 := Nat.mod_eq_of_lt (by omega)
  have hfit : (x.toNat / 2 ^ 8) <<< 8 % 2 ^ 16 = (x.toNat / 2 ^ 8) <<< 8 := by
    rw [Nat.shiftLeft_eq]
    omega
  simp only [UInt16.toNat_or, UInt16.toNat_shiftLeft, UInt8.toNat_toUInt16, UInt16.toNat_toUInt8,
    UInt16.toNat_shiftRight, UInt16.reduceToNat, Nat.reduceMod, Nat.shiftRight_eq_div_pow]
  rw [hhigh, hfit, hjoin]

theorem join_be32 (x : UInt32) :
    (x >>> 16).toUInt16.toUInt32 <<< 16 ||| x.toUInt16.toUInt32 = x := by
  apply UInt32.toNat_inj.mp
  have hx := x.toNat_lt
  have hjoin := div_shiftLeft_or_mod x.toNat 16
  have hhigh : x.toNat / 2 ^ 16 % 2 ^ 16 = x.toNat / 2 ^ 16 := Nat.mod_eq_of_lt (by omega)
  have hfit : (x.toNat / 2 ^ 16) <<< 16 % 2 ^ 32 = (x.toNat / 2 ^ 16) <<< 16 := by
    rw [Nat.shiftLeft_eq]
    omega
  simp only [UInt32.toNat_or, UInt32.toNat_shiftLeft, UInt16.toNat_toUInt32,
    UInt32.toNat_toUInt16, UInt32.toNat_shiftRight, UInt32.reduceToNat, Nat.reduceMod,
    Nat.shiftRight_eq_div_pow]
  rw [hhigh, hfit, hjoin]

theorem u16At_be16 {b : Bytes} {i : ℕ} {x : UInt16} (hhigh : byteAt b i = .ok (x >>> 8).toUInt8)
    (hlow : byteAt b (i + 1) = .ok x.toUInt8) : u16At b i = .ok x := by
  rw [u16At_eq_ok]
  exact ⟨_, hhigh, _, hlow, join_be16 x⟩

theorem u32At_be32 {b : Bytes} {i : ℕ} {x : UInt32}
    (hhigh : u16At b i = .ok (x >>> 16).toUInt16) (hlow : u16At b (i + 2) = .ok x.toUInt16) :
    u32At b i = .ok x := by
  simp only [u32At, bind_eq_ok, pure, Except.pure, Except.ok.injEq]
  exact ⟨_, hhigh, _, hlow, join_be32 x⟩

theorem byteAt_append (front rest : Bytes) (k : ℕ) :
    byteAt (front ++ rest) (front.length + k) = byteAt rest k := by
  rw [← byteAt_drop, List.drop_left]

theorem u16At_append (front rest : Bytes) (k : ℕ) :
    u16At (front ++ rest) (front.length + k) = u16At rest k := by
  rw [← u16At_drop, List.drop_left]

theorem u16At_middle (front : Bytes) (x : UInt16) (rest : Bytes) :
    u16At (front ++ be16 x ++ rest) front.length = .ok x := by
  apply u16At_be16
  · simp [be16]
  · simp [be16]

theorem u32At_middle (front : Bytes) (x : UInt32) (rest : Bytes) :
    u32At (front ++ be32 x ++ rest) front.length = .ok x := by
  have hhigh := u16At_middle front (x >>> 16).toUInt16 (be16 x.toUInt16 ++ rest)
  have hlow := u16At_middle (front ++ be16 (x >>> 16).toUInt16) x.toUInt16 rest
  apply u32At_be32
  · simpa [be32, List.append_assoc] using hhigh
  · simpa [be32, be16, List.append_assoc] using hlow

@[simp] theorem length_be16 (x : UInt16) : (be16 x).length = 2 := rfl

@[simp] theorem length_be32 (x : UInt32) : (be32 x).length = 4 := rfl

@[simp] theorem length_beBytes (w n : ℕ) : (beBytes w n).length = w := by
  rw [beBytes, List.length_reverse, length_leBytes]

theorem ofBe_reverse (b : Bytes) : ofBe b.reverse = ofLe b := by
  induction b with
  | nil => rfl
  | cons x b ih =>
      rw [ofBe, List.foldl_reverse] at ih ⊢
      rw [List.foldr_cons, ih, ofLe]
      exact Nat.add_comm _ _

theorem ofBe_beBytes {w n : ℕ} (h : n < 256 ^ w) : ofBe (beBytes w n) = n := by
  rw [beBytes, ofBe_reverse, ofLe_leBytes_of_lt h]

/-- A stretch is cut out where it was put. -/
theorem slice_middle {front middle rest : Bytes} {i j : ℕ} (hi : i = front.length)
    (hj : j = front.length + middle.length) : slice (front ++ middle ++ rest) i j = .ok middle := by
  subst hi hj
  rw [slice_eq_ok]
  refine ⟨⟨Nat.le_add_right _ _, ?_⟩, ?_⟩
  · simp
  · rw [← List.length_append, List.take_left, List.drop_left]

theorem slice_rest {front rest : Bytes} {i : ℕ} (hi : i = front.length) :
    slice (front ++ rest) i (front ++ rest).length = .ok rest := by
  have hmiddle : slice (front ++ rest ++ []) i (front ++ rest).length = .ok rest :=
    slice_middle hi List.length_append
  rwa [List.append_nil] at hmiddle

/-! ## Segments and datagrams -/

structure TcpSegment where
  srcPort : UInt16
  dstPort : UInt16
  seq : UInt32
  ack : UInt32
  flags : UInt8
  window : UInt16
  checksum : UInt16
  urgent : UInt16
  options : Bytes
  payload : Bytes
  options_words : options.length % 4 = 0
  options_le : options.length ≤ 40

namespace TcpSegment

def fixed (t : TcpSegment) : Bytes :=
  be16 t.srcPort ++ be16 t.dstPort ++ be32 t.seq ++ be32 t.ack ++
    [UInt8.ofNat (16 * (5 + t.options.length / 4)), t.flags] ++ be16 t.window ++
      be16 t.checksum ++ be16 t.urgent

def bytes (t : TcpSegment) : Bytes := t.fixed ++ t.options ++ t.payload

def packet (t : TcpSegment) (tsNs wireLen : ℕ) (src dst : IpAddr) (domain : UInt64) :
    ParsedPacket where
  tsNs := tsNs
  key := (FlowKey.canonicalWithDomain ⟨src, t.srcPort⟩ ⟨dst, t.dstPort⟩ .tcp domain).1
  direction := (FlowKey.canonicalWithDomain ⟨src, t.srcPort⟩ ⟨dst, t.dstPort⟩ .tcp domain).2
  seq := some t.seq
  ack := some t.ack
  flags := {
    fin := t.flags &&& 0x01 != 0
    syn := t.flags &&& 0x02 != 0
    rst := t.flags &&& 0x04 != 0
    psh := t.flags &&& 0x08 != 0
    ack := t.flags &&& 0x10 != 0 }
  payload := t.payload
  wireLen := wireLen

@[simp] theorem length_fixed (t : TcpSegment) : t.fixed.length = 20 := rfl

theorem dataOffset_eq (t : TcpSegment) :
    ((UInt8.ofNat (16 * (5 + t.options.length / 4))) >>> 4).toNat * 4 = 20 + t.options.length := by
  have hall : ∀ k < 11, ((UInt8.ofNat (16 * (5 + k))) >>> 4).toNat = 5 + k := by decide
  have hle := t.options_le
  have hwords := t.options_words
  rw [hall _ (by omega)]
  omega

theorem parseTcp_bytes (t : TcpSegment) (tsNs wireLen : ℕ) (src dst : IpAddr) (domain : UInt64) :
    parseTcp tsNs wireLen src dst t.bytes domain = .ok (t.packet tsNs wireLen src dst domain) := by
  have hlength : t.bytes.length = 20 + t.options.length + t.payload.length := by
    simp [bytes, Nat.add_assoc]
  have hoffset := t.dataOffset_eq
  have hseq : u32At t.bytes 4 = .ok t.seq :=
    u32At_be32 (u16At_be16 rfl rfl) (u16At_be16 rfl rfl)
  have hack : u32At t.bytes 8 = .ok t.ack :=
    u32At_be32 (u16At_be16 rfl rfl) (u16At_be16 rfl rfl)
  have hpayload : slice t.bytes (20 + t.options.length) t.bytes.length = .ok t.payload :=
    slice_rest (by simp)
  simp only [parseTcp, bind_eq_ok, ensure_eq_ok, pure, Except.pure, Except.ok.injEq]
  refine ⟨⟨⟩, by omega, t.srcPort, u16At_be16 rfl rfl, t.dstPort, u16At_be16 rfl rfl, t.seq, hseq,
    t.ack, hack, _, rfl, ⟨⟩, ?_, ⟨⟩, ?_, t.flags, rfl, t.payload, ?_, rfl⟩
  · rw [hoffset]
    exact Nat.le_add_right _ _
  · rw [hoffset]
    omega
  · rw [hoffset]
    exact hpayload

end TcpSegment

structure UdpDatagram where
  srcPort : UInt16
  dstPort : UInt16
  checksum : UInt16
  payload : Bytes

namespace UdpDatagram

def bytes (u : UdpDatagram) : Bytes :=
  be16 u.srcPort ++ be16 u.dstPort ++ be16 (UInt16.ofNat (8 + u.payload.length)) ++
    be16 u.checksum ++ u.payload

/-- The content is taken for that of a tunnel only with a header of VXLAN. -/
def Plain (u : UdpDatagram) : Prop := IsVxlanPort u.dstPort → parseVxlan u.payload = .ok none

def packet (u : UdpDatagram) (tsNs wireLen : ℕ) (src dst : IpAddr) (domain : UInt64) :
    ParsedPacket where
  tsNs := tsNs
  key := (FlowKey.canonicalWithDomain ⟨src, u.srcPort⟩ ⟨dst, u.dstPort⟩ .udp domain).1
  direction := (FlowKey.canonicalWithDomain ⟨src, u.srcPort⟩ ⟨dst, u.dstPort⟩ .udp domain).2
  seq := none
  ack := none
  flags := {}
  payload := u.payload
  wireLen := wireLen

@[simp] theorem length_bytes (u : UdpDatagram) : u.bytes.length = 8 + u.payload.length := by
  simp only [bytes, List.length_append, length_be16]

theorem parseUdp_bytes {u : UdpDatagram} (hfits : u.bytes.length < 2 ^ 16) :
    parseUdp u.bytes = .ok ⟨u.srcPort, u.dstPort, u.payload⟩ := by
  rw [length_bytes] at hfits
  have hlen : (UInt16.ofNat (8 + u.payload.length)).toNat = 8 + u.payload.length :=
    UInt16.toNat_ofNat_of_lt' hfits
  have hpayload : slice u.bytes 8 (8 + u.payload.length) = .ok u.payload := by
    rw [← length_bytes]
    exact slice_rest rfl
  simp only [parseUdp, bind_eq_ok, ensure_eq_ok, pure, Except.pure, Except.ok.injEq]
  refine ⟨⟨⟩, by simp, u.srcPort, u16At_be16 rfl rfl, u.dstPort, u16At_be16 rfl rfl, _,
    u16At_be16 rfl rfl, ⟨⟩, ?_, ⟨⟩, ?_, u.payload, ?_, rfl⟩
  all_goals rw [hlen]
  · exact Nat.le_add_right _ _
  · rw [length_bytes]
  · exact hpayload

end UdpDatagram

/-! ## IP headers -/

/-- A header of a packet that is no fragment. -/
structure Ipv4Header where
  src : BitVec 32
  dst : BitVec 32
  tos : UInt8
  id : UInt16
  dontFragment : Bool
  ttl : UInt8
  checksum : UInt16
  options : Bytes
  options_words : options.length % 4 = 0
  options_le : options.length ≤ 40

namespace Ipv4Header

def fixed (h : Ipv4Header) (protocol : UInt8) (content : ℕ) : Bytes :=
  [UInt8.ofNat (69 + h.options.length / 4), h.tos] ++
    be16 (UInt16.ofNat (20 + h.options.length + content)) ++ be16 h.id ++
      be16 (if h.dontFragment then 0x4000 else 0) ++ [h.ttl, protocol] ++ be16 h.checksum ++
        beBytes 4 h.src.toNat ++ beBytes 4 h.dst.toNat

def wrap (h : Ipv4Header) (protocol : UInt8) (content : Bytes) : Bytes :=
  h.fixed protocol content.length ++ h.options ++ content

@[simp] theorem length_fixed (h : Ipv4Header) (protocol : UInt8) (content : ℕ) :
    (h.fixed protocol content).length = 20 := by
  simp [fixed]

theorem first_eq (h : Ipv4Header) : (UInt8.ofNat (69 + h.options.length / 4)) >>> 4 = 4 ∧
    ((UInt8.ofNat (69 + h.options.length / 4)) &&& 0x0f).toNat * 4 = 20 + h.options.length := by
  have hall : ∀ k < 11, (UInt8.ofNat (69 + k)) >>> 4 = 4 ∧
      ((UInt8.ofNat (69 + k)) &&& 0x0f).toNat = 5 + k := by decide
  have hle := h.options_le
  have hwords := h.options_words
  obtain ⟨hversion, hihl⟩ := hall (h.options.length / 4) (by omega)
  refine ⟨hversion, ?_⟩
  rw [hihl]
  omega

/-- The packet may be followed by other bytes. -/
theorem parseIpv4_wrap (h : Ipv4Header) (protocol : UInt8) {content : Bytes} (padding : Bytes)
    (hfits : 20 + h.options.length + content.length < 2 ^ 16) :
    parseIpv4 (h.wrap protocol content ++ padding) = .ok {
      src := .v4 h.src
      dst := .v4 h.dst
      protocol
      id := h.id
      frag := if h.dontFragment then 0x4000 else 0
      payload := content } := by
  obtain ⟨hversion, hihl⟩ := h.first_eq
  have htotal : (UInt16.ofNat (20 + h.options.length + content.length)).toNat =
      20 + h.options.length + content.length := UInt16.toNat_ofNat_of_lt' hfits
  have hlength : (h.wrap protocol content ++ padding).length =
      20 + h.options.length + content.length + padding.length := by
    simp [wrap, Nat.add_assoc]
  have hsrc : slice (h.wrap protocol content ++ padding) 12 16 = .ok (beBytes 4 h.src.toNat) := by
    have hsplit : h.wrap protocol content ++ padding =
        (h.fixed protocol content.length).take 12 ++ beBytes 4 h.src.toNat ++
          (beBytes 4 h.dst.toNat ++ h.options ++ content ++ padding) := by
      simp [wrap, fixed, List.append_assoc, be16]
    rw [hsplit]
    exact slice_middle (by simp) (by simp)
  have hdst : slice (h.wrap protocol content ++ padding) 16 20 = .ok (beBytes 4 h.dst.toNat) := by
    have hsplit : h.wrap protocol content ++ padding =
        ((h.fixed protocol content.length).take 12 ++ beBytes 4 h.src.toNat) ++
          beBytes 4 h.dst.toNat ++ (h.options ++ content ++ padding) := by
      simp [wrap, fixed, List.append_assoc, be16]
    rw [hsplit]
    exact slice_middle (by simp) (by simp)
  have hcontent : slice (h.wrap protocol content ++ padding) (20 + h.options.length)
      (20 + h.options.length + content.length) = .ok content :=
    slice_middle (by simp) (by simp)
  simp only [parseIpv4, bind_eq_ok, ensure_eq_ok, pure, Except.pure, Except.ok.injEq]
  refine ⟨⟨⟩, by omega, _, rfl, ⟨⟩, hversion, ⟨⟩, ?_, ⟨⟩, ?_, _, u16At_be16 rfl rfl, ⟨⟩, ?_, ⟨⟩, ?_,
    _, hsrc, _, hdst, protocol, rfl, _, u16At_be16 rfl rfl, content, ?_, h.id, u16At_be16 rfl rfl,
    ?_⟩
  · rw [hihl]
    exact Nat.le_add_right _ _
  · rw [hihl]
    omega
  · rw [hihl, htotal]
    exact Nat.le_add_right _ _
  · rw [htotal]
    omega
  · rw [hihl, htotal]
    exact hcontent
  · rw [ofBe_beBytes h.src.isLt, ofBe_beBytes h.dst.isLt, BitVec.ofNat_toNat, BitVec.ofNat_toNat,
      BitVec.setWidth_eq, BitVec.setWidth_eq]

end Ipv4Header

/-- An extension header: options, routing and destination options count in eight bytes, the
authentication header in four. -/
structure Extension where
  kind : UInt8
  words : UInt8
  body : Bytes
  sized : (kind = 0 ∨ kind = 43 ∨ kind = 60) ∧ body.length + 2 = (words.toNat + 1) * 8 ∨
    kind = 51 ∧ body.length + 2 = (words.toNat + 2) * 4

namespace Extension

/-- What the header before says comes next. -/
def firstKind (protocol : UInt8) : List Extension → UInt8
  | [] => protocol
  | e :: _ => e.kind

def chain (protocol : UInt8) : List Extension → Bytes
  | [] => []
  | e :: es => [firstKind protocol es, e.words] ++ e.body ++ chain protocol es

/-- The kinds of headers that the walk goes over. -/
def IsExtension (kind : UInt8) : Prop := kind = 0 ∨ kind = 43 ∨ kind = 60 ∨ kind = 51

instance (kind : UInt8) : Decidable (IsExtension kind) := inferInstanceAs (Decidable (_ ∨ _))

section Walk

variable {texts : ExtensionTexts} {packet : Bytes} {limit fuel : ℕ} {e : Extensions}
  {next words : UInt8}

theorem walkExtensions_options (hkind : e.next = 0 ∨ e.next = 43 ∨ e.next = 60)
    (hnext : byteAt packet e.offset = .ok next) (hwords : byteAt packet (e.offset + 1) = .ok words)
    (hlimit : e.offset + (words.toNat + 1) * 8 ≤ limit) :
    walkExtensions texts packet limit (fuel + 1) e =
      walkExtensions texts packet limit fuel ⟨next, e.offset + (words.toNat + 1) * 8⟩ := by
  have hheader : e.offset + 2 ≤ limit := by omega
  rw [walkExtensions, if_pos hkind, ensure, if_pos hheader, hnext, hwords]
  dsimp only [bind, Except.bind]
  rw [ensure, if_pos hlimit]

theorem walkExtensions_auth (hkind : e.next = 51) (hnext : byteAt packet e.offset = .ok next)
    (hwords : byteAt packet (e.offset + 1) = .ok words)
    (hlimit : e.offset + (words.toNat + 2) * 4 ≤ limit) :
    walkExtensions texts packet limit (fuel + 1) e =
      walkExtensions texts packet limit fuel ⟨next, e.offset + (words.toNat + 2) * 4⟩ := by
  have hheader : e.offset + 2 ≤ limit := by omega
  have hno : ¬ (e.next = 0 ∨ e.next = 43 ∨ e.next = 60) := by
    rw [hkind]
    decide
  rw [walkExtensions, if_neg hno, if_pos hkind, ensure, if_pos hheader, hnext, hwords]
  dsimp only [bind, Except.bind]
  rw [ensure, if_pos hlimit]

end Walk

/-- The walk goes over the whole chain. -/
theorem walkExtensions_chain (texts : ExtensionTexts) {protocol : UInt8}
    (hprotocol : ¬ IsExtension protocol) (limit : ℕ) (es : List Extension) :
    ∀ (fuel : ℕ) (front rest : Bytes), es.length < fuel →
      front.length + (chain protocol es).length ≤ limit →
        walkExtensions texts (front ++ chain protocol es ++ rest) limit fuel
          ⟨firstKind protocol es, front.length⟩ =
            .ok ⟨protocol, front.length + (chain protocol es).length⟩ := by
  unfold IsExtension at hprotocol
  induction es with
  | nil =>
      intro fuel front rest hfuel hlimit
      obtain ⟨fuel, rfl⟩ := Nat.exists_eq_add_of_lt hfuel
      rw [walkExtensions, if_neg, if_neg]
      · rfl
      · exact fun h ↦ hprotocol (.inr (.inr (.inr h)))
      · exact fun h ↦ hprotocol (h.imp_right (.imp_right .inl))
  | cons e es ih =>
      intro fuel front rest hfuel hlimit
      obtain ⟨fuel, rfl⟩ := Nat.exists_eq_add_of_lt (Nat.zero_lt_of_lt hfuel)
      rw [Nat.zero_add] at hfuel ⊢
      have hlength : (chain protocol (e :: es)).length =
          e.body.length + 2 + (chain protocol es).length := by
        simp [chain]
        omega
      have hnext : byteAt (front ++ chain protocol (e :: es) ++ rest) front.length =
          .ok (firstKind protocol es) := by
        simp [chain]
      have hwords : byteAt (front ++ chain protocol (e :: es) ++ rest) (front.length + 1) =
          .ok e.words := by
        simp [chain]
      have hstep : front ++ chain protocol (e :: es) ++ rest =
          (front ++ [firstKind protocol es, e.words] ++ e.body) ++ chain protocol es ++ rest := by
        simp [chain]
      have hfront : (front ++ [firstKind protocol es, e.words] ++ e.body).length =
          front.length + (e.body.length + 2) := by
        simp [Nat.add_comm, Nat.add_left_comm]
      have hrest := ih fuel (front ++ [firstKind protocol es, e.words] ++ e.body) rest
        (Nat.lt_of_succ_lt_succ hfuel) (by omega)
      rw [← hstep, hfront] at hrest
      have hresult : front.length + (chain protocol (e :: es)).length =
          front.length + (e.body.length + 2) + (chain protocol es).length := by
        omega
      have hend : front.length + (e.body.length + 2) ≤ limit := by omega
      rw [hresult, ← hrest]
      rcases e.sized with ⟨hkind, hsize⟩ | ⟨hkind, hsize⟩
      · rw [hsize] at hend ⊢
        exact walkExtensions_options hkind hnext hwords hend
      · rw [hsize] at hend ⊢
        exact walkExtensions_auth hkind hnext hwords hend

theorem length_le_length_chain (protocol : UInt8) (es : List Extension) :
    es.length ≤ (chain protocol es).length := by
  induction es with
  | nil => exact Nat.zero_le _
  | cons e es ih =>
      simp only [chain, List.length_append, List.length_cons, List.length_nil]
      omega

end Extension

structure Ipv6Header where
  first : UInt8
  second : UInt8
  flowLabel : UInt16
  hopLimit : UInt8
  src : BitVec 128
  dst : BitVec 128
  extensions : List Extension
  version : first >>> 4 = 6

namespace Ipv6Header

def chain (h : Ipv6Header) (protocol : UInt8) : Bytes := Extension.chain protocol h.extensions

def fixed (h : Ipv6Header) (protocol : UInt8) (content : ℕ) : Bytes :=
  [h.first, h.second] ++ be16 h.flowLabel ++
    be16 (UInt16.ofNat ((h.chain protocol).length + content)) ++
      [Extension.firstKind protocol h.extensions, h.hopLimit] ++ beBytes 16 h.src.toNat ++
        beBytes 16 h.dst.toNat

def wrap (h : Ipv6Header) (protocol : UInt8) (content : Bytes) : Bytes :=
  h.fixed protocol content.length ++ h.chain protocol ++ content

@[simp] theorem length_fixed (h : Ipv6Header) (protocol : UInt8) (content : ℕ) :
    (h.fixed protocol content).length = 40 := by
  simp [fixed]

theorem length_wrap (h : Ipv6Header) (protocol : UInt8) (content : Bytes) :
    (h.wrap protocol content).length = 40 + ((h.chain protocol).length + content.length) := by
  simp [wrap]

variable {protocol : UInt8} {content : Bytes}

theorem parseIpv6_wrap (h : Ipv6Header) (padding : Bytes)
    (hfits : (h.chain protocol).length + content.length < 2 ^ 16) :
    parseIpv6 (h.wrap protocol content ++ padding) = .ok {
      src := .v6 h.src
      dst := .v6 h.dst
      ipLen := (h.wrap protocol content).length
      next := Extension.firstKind protocol h.extensions } := by
  have hpayload : (UInt16.ofNat ((h.chain protocol).length + content.length)).toNat =
      (h.chain protocol).length + content.length := UInt16.toNat_ofNat_of_lt' hfits
  have hsum : satAdd 40 ((h.chain protocol).length + content.length) =
      (h.wrap protocol content).length := by
    rw [length_wrap]
    apply satAdd_of_le
    unfold u64Max
    omega
  have hlength := h.length_wrap protocol content
  have hsrc : slice (h.wrap protocol content ++ padding) 8 24 = .ok (beBytes 16 h.src.toNat) := by
    have hsplit : h.wrap protocol content ++ padding =
        (h.fixed protocol content.length).take 8 ++ beBytes 16 h.src.toNat ++
          (beBytes 16 h.dst.toNat ++ h.chain protocol ++ content ++ padding) := by
      simp [wrap, fixed, List.append_assoc, be16]
    rw [hsplit]
    exact slice_middle (by simp) (by simp)
  have hdst : slice (h.wrap protocol content ++ padding) 24 40 = .ok (beBytes 16 h.dst.toNat) := by
    have hsplit : h.wrap protocol content ++ padding =
        ((h.fixed protocol content.length).take 8 ++ beBytes 16 h.src.toNat) ++
          beBytes 16 h.dst.toNat ++ (h.chain protocol ++ content ++ padding) := by
      simp [wrap, fixed, List.append_assoc, be16]
    rw [hsplit]
    exact slice_middle (by simp) (by simp)
  simp only [parseIpv6, bind_eq_ok, ensure_eq_ok, pure, Except.pure, Except.ok.injEq]
  refine ⟨⟨⟩, ?_, _, rfl, ⟨⟩, h.version, _, u16At_be16 rfl rfl, ⟨⟩, ?_, _, hsrc, _, hdst, _, rfl, ?_⟩
  · rw [List.length_append]
    omega
  · rw [hpayload, hsum, List.length_append]
    exact Nat.le_add_right _ _
  · rw [ofBe_beBytes h.src.isLt, ofBe_beBytes h.dst.isLt, BitVec.ofNat_toNat, BitVec.ofNat_toNat,
      BitVec.setWidth_eq, BitVec.setWidth_eq, hpayload, hsum]

theorem walkExtensions_wrap (h : Ipv6Header) (texts : ExtensionTexts) (padding : Bytes)
    (hprotocol : ¬ Extension.IsExtension protocol) :
    walkExtensions texts (h.wrap protocol content ++ padding) (h.wrap protocol content).length
      ((h.wrap protocol content).length + 1) ⟨Extension.firstKind protocol h.extensions, 40⟩ =
        .ok ⟨protocol, 40 + (h.chain protocol).length⟩ := by
  have hlength := h.length_wrap protocol content
  have hmany : h.extensions.length ≤ (h.chain protocol).length :=
    Extension.length_le_length_chain protocol h.extensions
  have hwalk := Extension.walkExtensions_chain texts hprotocol
    (h.wrap protocol content).length h.extensions ((h.wrap protocol content).length + 1)
    (h.fixed protocol content.length) (content ++ padding) (by omega) (by
      rw [length_fixed, hlength]
      exact Nat.add_le_add_left (Nat.le_add_right _ _) 40)
  rw [length_fixed, ← List.append_assoc] at hwalk
  exact hwalk

theorem slice_wrap (h : Ipv6Header) (padding : Bytes) :
    slice (h.wrap protocol content ++ padding) (40 + (h.chain protocol).length)
      (h.wrap protocol content).length = .ok content := by
  rw [length_wrap, ← Nat.add_assoc]
  exact slice_middle (by simp) (by simp)

end Ipv6Header

inductive IpHeader where
  | v4 (header : Ipv4Header)
  | v6 (header : Ipv6Header)

namespace IpHeader

def src : IpHeader → IpAddr
  | v4 h => .v4 h.src
  | v6 h => .v6 h.src

def dst : IpHeader → IpAddr
  | v4 h => .v4 h.dst
  | v6 h => .v6 h.dst

def wrap (protocol : UInt8) (content : Bytes) : IpHeader → Bytes
  | v4 h => h.wrap protocol content
  | v6 h => h.wrap protocol content

/-- The length field of the header counts the content and the options before it. -/
def Fits (protocol : UInt8) (content : ℕ) : IpHeader → Prop
  | v4 h => 20 + h.options.length + content < 2 ^ 16
  | v6 h => (h.chain protocol).length + content < 2 ^ 16

instance (protocol : UInt8) (content : ℕ) : (h : IpHeader) → Decidable (h.Fits protocol content)
  | v4 h => inferInstanceAs (Decidable (20 + h.options.length + content < 2 ^ 16))
  | v6 h => inferInstanceAs (Decidable ((h.chain protocol).length + content < 2 ^ 16))

theorem Fits.content_lt {protocol : UInt8} {content : ℕ} {h : IpHeader}
    (hfits : h.Fits protocol content) : content < 2 ^ 16 := by
  cases h with
  | v4 h => exact (Nat.le_add_left _ _).trans_lt hfits
  | v6 h => exact (Nat.le_add_left _ _).trans_lt hfits

/-- What a decoder takes the packet for, and how an Ethernet frame, a GRE header or another IP
header announces it. -/
def link : IpHeader → Link
  | v4 _ => .ipv4
  | v6 _ => .ipv6

def etherType : IpHeader → UInt16
  | v4 _ => etherTypeIpv4
  | v6 _ => etherTypeIpv6

def protocol : IpHeader → UInt8
  | v4 _ => 4
  | v6 _ => 41

end IpHeader

/-- The number that the domain of a tunnel of IP in IP is made of. -/
def IpHeader.version : IpHeader → UInt64
  | v4 _ => 4
  | v6 _ => 6

/-- The protocols that end the walk over the headers of IPv6. -/
def IsContent (protocol : UInt8) : Prop := ¬ Extension.IsExtension protocol ∧ protocol ≠ 44

instance (protocol : UInt8) : Decidable (IsContent protocol) := inferInstanceAs (Decidable (_ ∧ _))

namespace PacketDecoder

variable (d : PacketDecoder) (inner : Link → ℕ → Bytes → UInt64 → SharedFragmentCache → Decoded)
  (depth wireLen : ℕ) {protocol : UInt8} {content : Bytes} (padding : Bytes) (domain : UInt64)
  (cache : SharedFragmentCache)

theorem decodeIpv4_wrap {h : Ipv4Header}
    (hfits : 20 + h.options.length + content.length < 2 ^ 16) :
    d.decodeIpv4 inner depth wireLen (h.wrap protocol content ++ padding) domain cache =
      d.decodeIpPayload inner depth wireLen (.v4 h.src) (.v4 h.dst) protocol content domain
        cache := by
  have hwhole : ∀ dontFragment : Bool,
      ¬ ((((if dontFragment then 0x4000 else 0 : UInt16) &&& 0x1fff).toNat * 8 ≠ 0) ∨
        ((if dontFragment then 0x4000 else 0 : UInt16) &&& 0x2000 != 0) = true) := by
    decide
  rw [decodeIpv4, h.parseIpv4_wrap protocol padding hfits]
  exact if_neg (hwhole h.dontFragment)

theorem decodeIpv6_wrap {h : Ipv6Header} (hprotocol : IsContent protocol)
    (hfits : (h.chain protocol).length + content.length < 2 ^ 16) :
    d.decodeIpv6 inner depth wireLen (h.wrap protocol content ++ padding) domain cache =
      d.decodeIpPayload inner depth wireLen (.v6 h.src) (.v6 h.dst) protocol content domain
        cache := by
  have hend : ¬ (h.wrap protocol content).length < 40 + (h.chain protocol).length := by
    rw [h.length_wrap]
    omega
  rw [decodeIpv6, h.parseIpv6_wrap padding hfits]
  dsimp only [andThen]
  rw [h.walkExtensions_wrap ipv6Texts padding hprotocol.1]
  dsimp only
  rw [if_neg hprotocol.2, if_neg hend, h.slice_wrap padding]

/-- An IP packet is decoded to the payload, which is decoded one level deeper if it is a tunnel. -/
theorem decodeLink_wrap (fuel : ℕ) {h : IpHeader} (hprotocol : IsContent protocol)
    (hfits : h.Fits protocol content.length) :
    d.decodeLink (fuel + 1) depth h.link wireLen (h.wrap protocol content ++ padding) domain cache =
      d.decodeIpPayload (d.decodeLink fuel (depth + 1)) depth wireLen h.src h.dst protocol content
        domain cache := by
  cases h with
  | v4 h => exact d.decodeIpv4_wrap _ depth wireLen padding domain cache hfits
  | v6 h => exact d.decodeIpv6_wrap _ depth wireLen padding domain cache hprotocol hfits

end PacketDecoder

/-! ## Ethernet frames -/

structure VlanTag where
  etherType : UInt16
  tci : UInt16
  tag : IsVlanTag etherType

/-- The decoder reads four tags and takes what is after them for the content. -/
structure EthernetHeader where
  addresses : Bytes
  tags : List VlanTag
  addresses_length : addresses.length = 12
  tags_le : tags.length ≤ 4

namespace EthernetHeader

def types (etherType : UInt16) : List VlanTag → Bytes
  | [] => be16 etherType
  | t :: ts => be16 t.etherType ++ be16 t.tci ++ types etherType ts

def firstType (etherType : UInt16) : List VlanTag → UInt16
  | [] => etherType
  | t :: _ => t.etherType

def wrap (e : EthernetHeader) (etherType : UInt16) (content : Bytes) : Bytes :=
  e.addresses ++ types etherType e.tags ++ content

/-- The network of a tag is in the lower twelve bits. -/
def domainOf (domain : UInt64) (tags : List VlanTag) : UInt64 :=
  tags.foldl (fun domain t ↦ mixDomain domain 0x564c414e (t.tci &&& 0x0fff).toUInt64) domain

def domain (e : EthernetHeader) (domain : UInt64) : UInt64 := domainOf domain e.tags

theorem length_types (etherType : UInt16) (tags : List VlanTag) :
    (types etherType tags).length = 4 * tags.length + 2 := by
  induction tags with
  | nil => rfl
  | cons t ts ih =>
      simp only [types, List.length_append, length_be16, ih, List.length_cons]
      omega

theorem types_eq_cons (etherType : UInt16) (tags : List VlanTag) :
    ∃ rest, types etherType tags = be16 (firstType etherType tags) ++ rest := by
  cases tags with
  | nil => exact ⟨[], (List.append_nil _).symm⟩
  | cons t ts => exact ⟨be16 t.tci ++ types etherType ts, List.append_assoc _ _ _⟩

theorem u16At_types (front : Bytes) (etherType : UInt16) (tags : List VlanTag) (content : Bytes) :
    u16At (front ++ types etherType tags ++ content) front.length =
      .ok (firstType etherType tags) := by
  obtain ⟨rest, hrest⟩ := types_eq_cons etherType tags
  have hmiddle := u16At_middle front (firstType etherType tags) (rest ++ content)
  rwa [← List.append_assoc, List.append_assoc front, ← hrest] at hmiddle

/-- The loop goes over all tags, and it stops because of the type or because there were four. -/
theorem skipVlans_types {etherType : UInt16} (htype : ¬ IsVlanTag etherType) (content : Bytes)
    (tags : List VlanTag) :
    ∀ (rounds : ℕ) (front : Bytes) (domain : UInt64), tags.length ≤ rounds →
      skipVlans (front ++ types etherType tags ++ content) rounds
        ⟨firstType etherType tags, front.length + 2, domain⟩ =
          .ok ⟨etherType, front.length + 4 * tags.length + 2, domainOf domain tags⟩ := by
  induction tags with
  | nil =>
      intro rounds front domain hrounds
      cases rounds with
      | zero => rfl
      | succ rounds => exact if_neg htype
  | cons t ts ih =>
      intro rounds front domain hrounds
      obtain ⟨rounds, rfl⟩ := Nat.exists_eq_add_of_lt (Nat.zero_lt_of_lt hrounds)
      rw [Nat.zero_add] at hrounds ⊢
      have hstep : front ++ types etherType (t :: ts) ++ content =
          (front ++ be16 t.etherType ++ be16 t.tci) ++ types etherType ts ++ content := by
        simp [types]
      have hfront : (front ++ be16 t.etherType ++ be16 t.tci).length = front.length + 4 := by
        simp
      have hfits : front.length + 2 + 4 ≤
          (front ++ types etherType (t :: ts) ++ content).length := by
        rw [hstep, List.length_append, List.length_append, hfront, length_types]
        omega
      have htci : u16At (front ++ types etherType (t :: ts) ++ content) (front.length + 2) =
          .ok t.tci := by
        have hmiddle := u16At_middle (front ++ be16 t.etherType) t.tci
          (types etherType ts ++ content)
        rwa [← List.append_assoc, ← hstep, List.length_append, length_be16] at hmiddle
      have hnext : u16At (front ++ types etherType (t :: ts) ++ content) (front.length + 2 + 2) =
          .ok (firstType etherType ts) := by
        rw [hstep, Nat.add_assoc, ← hfront]
        exact u16At_types _ etherType ts content
      have hrest := ih rounds (front ++ be16 t.etherType ++ be16 t.tci)
        (mixDomain domain 0x564c414e (t.tci &&& 0x0fff).toUInt64) (Nat.le_of_succ_le_succ hrounds)
      rw [← hstep, hfront] at hrest
      have hend : front.length + 4 * (t :: ts).length + 2 =
          front.length + 4 + 4 * ts.length + 2 := by
        rw [List.length_cons]
        omega
      rw [skipVlans, if_pos (show IsVlanTag (firstType etherType (t :: ts)) from t.tag), hend]
      simp only [ensure, if_pos hfits, htci, hnext, bind, Except.bind]
      exact hrest

theorem parseEthernet_wrap (e : EthernetHeader) {etherType : UInt16}
    (htype : ¬ IsVlanTag etherType) (content : Bytes) (domain : UInt64) :
    parseEthernet (e.wrap etherType content) domain =
      .ok ⟨etherType, 14 + 4 * e.tags.length, e.domain domain⟩ := by
  have hlong : 14 ≤ (e.wrap etherType content).length := by
    simp only [wrap, List.length_append, length_types, e.addresses_length]
    omega
  have hfirst := u16At_types e.addresses etherType e.tags content
  have hskip := skipVlans_types htype content e.tags 4 e.addresses domain e.tags_le
  rw [e.addresses_length] at hfirst hskip
  rw [parseEthernet, ensure, if_pos hlong]
  simp only [wrap, hfirst, hskip, bind, Except.bind]
  rw [Nat.add_right_comm]
  rfl

theorem slice_wrap (e : EthernetHeader) (etherType : UInt16) (content : Bytes) :
    slice (e.wrap etherType content) (14 + 4 * e.tags.length) (e.wrap etherType content).length =
      .ok content := by
  apply slice_rest
  rw [List.length_append, length_types, e.addresses_length]
  omega

end EthernetHeader

namespace PacketDecoder

theorem decodeLink_frame (d : PacketDecoder) (fuel : ℕ) {depth : ℕ} (hdepth : depth ≤ maxTunnelDepth)
    (wireLen : ℕ) (e : EthernetHeader) (h : IpHeader) (content : Bytes) (domain : UInt64)
    (cache : SharedFragmentCache) :
    d.decodeLink (fuel + 1) depth .ethernet wireLen (e.wrap h.etherType content) domain cache =
      d.decodeLink (fuel + 1) depth h.link wireLen content (e.domain domain) cache := by
  have htype : ¬ IsVlanTag h.etherType := by
    cases h
    all_goals exact of_decide_eq_true rfl
  rw [decodeLink, decodeEthernetBytes, if_neg (Nat.not_lt.mpr hdepth), e.parseEthernet_wrap htype]
  dsimp only [andThen]
  rw [e.slice_wrap]
  cases h with
  | v4 h => rfl
  | v6 h => rfl

end PacketDecoder

/-! ## GRE -/

/-- An entry of a source route, not the one that ends it. -/
structure GreRoute where
  family : UInt16
  pointer : UInt8
  data : Bytes
  data_lt : data.length < 256
  entry : ¬ (family = 0 ∧ data.length = 0)

namespace GreRoute

def bytes : List GreRoute → Bytes
  | [] => [0, 0, 0, 0]
  | r :: rs => be16 r.family ++ [r.pointer, UInt8.ofNat r.data.length] ++ r.data ++ bytes rs

theorem length_lt_length_bytes (routes : List GreRoute) : routes.length < (bytes routes).length := by
  induction routes with
  | nil => exact Nat.zero_lt_succ 3
  | cons r rs ih =>
      simp only [bytes, List.length_append, List.length_cons, length_be16]
      omega

/-- The loop goes over all entries and over the one that ends them. -/
theorem skipRoutes_bytes (routes : List GreRoute) :
    ∀ (fuel : ℕ) (front rest : Bytes), routes.length < fuel →
      skipRoutes (front ++ bytes routes ++ rest) fuel front.length =
        .ok (front.length + (bytes routes).length) := by
  induction routes with
  | nil =>
      intro fuel front rest hfuel
      obtain ⟨fuel, rfl⟩ := Nat.exists_eq_add_of_lt hfuel
      have hfits : front.length + 4 ≤ (front ++ bytes [] ++ rest).length := by
        simp [bytes]
      have hfamily : u16At (front ++ bytes [] ++ rest) front.length = .ok 0 := by
        rw [List.append_assoc]
        exact u16At_append front (bytes [] ++ rest) 0
      have hlen : byteAt (front ++ bytes [] ++ rest) (front.length + 3) = .ok 0 := by
        rw [List.append_assoc]
        exact byteAt_append front (bytes [] ++ rest) 3
      rw [skipRoutes, ensure, if_pos hfits]
      simp only [hfamily, hlen, bind, Except.bind]
      rfl
  | cons r rs ih =>
      intro fuel front rest hfuel
      obtain ⟨fuel, rfl⟩ := Nat.exists_eq_add_of_lt (Nat.zero_lt_of_lt hfuel)
      rw [Nat.zero_add] at hfuel ⊢
      have hsize : (UInt8.ofNat r.data.length).toNat = r.data.length :=
        UInt8.toNat_ofNat_of_lt' r.data_lt
      have hlength : (bytes (r :: rs)).length = 4 + r.data.length + (bytes rs).length := by
        simp [bytes]
        omega
      have hstep : front ++ bytes (r :: rs) ++ rest =
          (front ++ be16 r.family ++ [r.pointer, UInt8.ofNat r.data.length] ++ r.data) ++
            bytes rs ++ rest := by
        simp [bytes]
      have hfront : (front ++ be16 r.family ++ [r.pointer, UInt8.ofNat r.data.length] ++
          r.data).length = front.length + 4 + r.data.length := by
        simp
        omega
      have hfits : front.length + 4 + r.data.length ≤
          (front ++ bytes (r :: rs) ++ rest).length := by
        rw [List.length_append, List.length_append, hlength]
        omega
      have hfamily : u16At (front ++ bytes (r :: rs) ++ rest) front.length = .ok r.family := by
        have hmiddle := u16At_middle front r.family
          ([r.pointer, UInt8.ofNat r.data.length] ++ r.data ++ (bytes rs ++ rest))
        rwa [hstep, List.append_assoc _ (bytes rs), List.append_assoc (front ++ _ ++ _),
          List.append_assoc (front ++ _)]
      have hlen : byteAt (front ++ bytes (r :: rs) ++ rest) (front.length + 3) =
          .ok (UInt8.ofNat r.data.length) := by
        rw [List.append_assoc]
        exact byteAt_append front (bytes (r :: rs) ++ rest) 3
      have hentry : ¬ (r.family = 0 ∧ (UInt8.ofNat r.data.length).toNat = 0) := by
        rw [hsize]
        exact r.entry
      have hrest := ih fuel (front ++ be16 r.family ++ [r.pointer, UInt8.ofNat r.data.length] ++
        r.data) rest (Nat.lt_of_succ_lt_succ hfuel)
      rw [← hstep, hfront] at hrest
      rw [skipRoutes, ensure, if_pos ((Nat.le_add_right _ _).trans hfits)]
      simp only [hfamily, hlen, bind, Except.bind, if_neg hentry]
      rw [hsize, ensure, if_pos hfits, hlength, ← Nat.add_assoc, ← Nat.add_assoc]
      exact hrest

end GreRoute

/-- The word with the checksum is there with a checksum or with a source route. -/
structure GreHeader where
  checksummed : Bool
  checksum : UInt32
  key : Option UInt32
  sequence : Option UInt32
  routes : Option (List GreRoute)

namespace GreHeader

def flagBits (checksummed routed keyed sequenced : Bool) : UInt16 :=
  (if checksummed then 0x8000 else 0) ||| (if routed then 0x4000 else 0) |||
    (if keyed then 0x2000 else 0) ||| (if sequenced then 0x1000 else 0)

def flags (g : GreHeader) : UInt16 :=
  flagBits g.checksummed g.routes.isSome g.key.isSome g.sequence.isSome

def wordBytes : Option UInt32 → Bytes
  | some x => be32 x
  | none => []

def checksumWord (g : GreHeader) : Option UInt32 :=
  if g.checksummed = true ∨ g.routes.isSome = true then some g.checksum else none

def routeBytes (g : GreHeader) : Bytes :=
  match g.routes with
  | some routes => GreRoute.bytes routes
  | none => []

def fixed (g : GreHeader) (proto : UInt16) : Bytes :=
  be16 g.flags ++ be16 proto ++ wordBytes g.checksumWord

def wrap (g : GreHeader) (proto : UInt16) (content : Bytes) : Bytes :=
  g.fixed proto ++ wordBytes g.key ++ wordBytes g.sequence ++ g.routeBytes ++ content

/-- Without a key it is zero. -/
def keyValue (g : GreHeader) : UInt64 := (g.key.map UInt32.toUInt64).getD 0

theorem flagBits_spec (checksummed routed keyed sequenced : Bool) :
    flagBits checksummed routed keyed sequenced &&& 0x0007 = 0 ∧
      (flagBits checksummed routed keyed sequenced &&& 0xc000 ≠ 0 ↔
        checksummed = true ∨ routed = true) ∧
      (flagBits checksummed routed keyed sequenced &&& 0x2000 ≠ 0 ↔ keyed = true) ∧
      (flagBits checksummed routed keyed sequenced &&& 0x1000 ≠ 0 ↔ sequenced = true) ∧
      (flagBits checksummed routed keyed sequenced &&& 0x4000 ≠ 0 ↔ routed = true) := by
  revert checksummed routed keyed sequenced
  decide

theorem flags_spec (g : GreHeader) : g.flags &&& 0x0007 = 0 ∧
    (g.flags &&& 0xc000 ≠ 0 ↔ g.checksumWord.isSome = true) ∧
    (g.flags &&& 0x2000 ≠ 0 ↔ g.key.isSome = true) ∧
    (g.flags &&& 0x1000 ≠ 0 ↔ g.sequence.isSome = true) ∧
    (g.flags &&& 0x4000 ≠ 0 ↔ g.routes.isSome = true) := by
  have hword : g.checksumWord.isSome = true ↔ g.checksummed = true ∨ g.routes.isSome = true := by
    unfold checksumWord
    split_ifs with h
    · exact iff_of_true rfl h
    · exact iff_of_false Bool.false_ne_true h
  rw [hword]
  exact flagBits_spec g.checksummed g.routes.isSome g.key.isSome g.sequence.isSome

theorem length_wordBytes_le (word : Option UInt32) : (wordBytes word).length ≤ 4 := by
  cases word with
  | none => exact Nat.zero_le 4
  | some word => exact le_rfl

theorem offset_wordBytes {there : Prop} [Decidable there] {word : Option UInt32}
    (hthere : there ↔ word.isSome = true) (front : Bytes) (hshort : front.length ≤ 12) :
    (if there then satAdd front.length 4 else front.length) = (front ++ wordBytes word).length := by
  cases word with
  | none =>
      rw [if_neg (mt hthere.mp Bool.false_ne_true), wordBytes, List.append_nil]
  | some word =>
      rw [if_pos (hthere.mpr rfl), wordBytes, List.length_append, length_be32]
      apply satAdd_of_le
      unfold u64Max
      omega

theorem greKey_wordBytes {keyed : Prop} [Decidable keyed] (front rest : Bytes)
    (key : Option UInt32) (hkeyed : keyed ↔ key.isSome = true) :
    greKey (front ++ wordBytes key ++ rest) keyed front.length =
      .ok ((key.map UInt32.toUInt64).getD 0, (front ++ wordBytes key).length) := by
  cases key with
  | none =>
      rw [greKey, if_neg (mt hkeyed.mp Bool.false_ne_true), wordBytes, List.append_nil]
      rfl
  | some key =>
      have hfits : front.length + 4 ≤ (front ++ be32 key ++ rest).length := by
        simp
      rw [greKey, if_pos (hkeyed.mpr rfl), wordBytes, u32At_middle, ensure, if_pos hfits,
        List.length_append]
      rfl

theorem greRest_routeBytes {routed : Prop} [Decidable routed] (g : GreHeader)
    (front content : Bytes) (proto : UInt16) (key : UInt64)
    (hrouted : routed ↔ g.routes.isSome = true) :
    greRest (front ++ g.routeBytes ++ content) routed proto key front.length =
      .ok (some { proto, key, inner := content }) := by
  have hskip : (if routed then skipRoutes (front ++ g.routeBytes ++ content)
      ((front ++ g.routeBytes ++ content).length + 1) front.length else pure front.length) =
        .ok (front ++ g.routeBytes).length := by
    cases hroutes : g.routes with
    | none =>
        rw [hroutes] at hrouted
        rw [if_neg (mt hrouted.mp Bool.false_ne_true), routeBytes, hroutes, List.append_nil]
        rfl
    | some routes =>
        have hmany := GreRoute.length_lt_length_bytes routes
        rw [hroutes] at hrouted
        rw [if_pos (hrouted.mpr rfl), routeBytes, hroutes, @List.length_append _ front]
        apply GreRoute.skipRoutes_bytes
        dsimp only
        rw [List.length_append, List.length_append]
        omega
  have hfits : (front ++ g.routeBytes).length ≤ (front ++ g.routeBytes ++ content).length := by
    rw [@List.length_append _ _ content]
    exact Nat.le_add_right _ _
  rw [greRest, hskip]
  simp only [bind, Except.bind, ensure, if_pos hfits, slice_rest]
  rfl

theorem parseGre_wrap (g : GreHeader) (proto : UInt16) (content : Bytes) :
    parseGre (g.wrap proto content) = .ok (some { proto, key := g.keyValue, inner := content }) := by
  obtain ⟨hversion, hchecksum, hkey, hsequence, hrouted⟩ := g.flags_spec
  have hshort : (g.fixed proto ++ wordBytes g.key).length ≤ 12 := by
    have hword := length_wordBytes_le g.checksumWord
    have hkeyed := length_wordBytes_le g.key
    simp only [fixed, List.length_append, length_be16]
    omega
  have hlong : 4 ≤ (g.wrap proto content).length := by
    simp only [wrap, fixed, List.length_append, length_be16]
    omega
  have hflags : u16At (g.wrap proto content) 0 = .ok g.flags := u16At_be16 rfl rfl
  have hproto : u16At (g.wrap proto content) 2 = .ok proto := u16At_be16 rfl rfl
  have hfixed : (if g.flags &&& 0xc000 ≠ 0 then satAdd 4 4 else 4) = (g.fixed proto).length :=
    offset_wordBytes hchecksum (be16 g.flags ++ be16 proto) (of_decide_eq_true rfl)
  have hgreKey := greKey_wordBytes (g.fixed proto)
    (wordBytes g.sequence ++ g.routeBytes ++ content) g.key hkey
  have hgreRest := greRest_routeBytes g (g.fixed proto ++ wordBytes g.key ++ wordBytes g.sequence)
    content proto g.keyValue hrouted
  have hoffset := offset_wordBytes hsequence _ hshort
  have hsplit : g.fixed proto ++ wordBytes g.key ++ (wordBytes g.sequence ++ g.routeBytes ++
      content) = g.wrap proto content := by
    simp only [wrap, List.append_assoc]
  rw [hsplit] at hgreKey
  rw [parseGre_eq, ensure, if_pos hlong, hflags]
  simp only [bind, Except.bind, hversion, hproto, hfixed]
  rw [if_neg (not_not.mpr rfl)]
  simp only [hgreKey, hoffset]
  exact hgreRest

end GreHeader

/-! ## VXLAN -/

structure VxlanHeader where
  srcPort : UInt16
  dstPort : UInt16
  checksum : UInt16
  flags : UInt8
  reserved : BitVec 24
  vni : BitVec 24
  last : UInt8
  port : IsVxlanPort dstPort
  flagged : flags &&& 0x08 ≠ 0

namespace VxlanHeader

def wrap (v : VxlanHeader) (frame : Bytes) : Bytes :=
  [v.flags] ++ beBytes 3 v.reserved.toNat ++ beBytes 3 v.vni.toNat ++ [v.last] ++ frame

def datagram (v : VxlanHeader) (frame : Bytes) : UdpDatagram :=
  ⟨v.srcPort, v.dstPort, v.checksum, v.wrap frame⟩

def network (v : VxlanHeader) : UInt64 := UInt64.ofNat v.vni.toNat

theorem join_beBytes {n : ℕ} (hn : n < 2 ^ 24) :
    (UInt8.ofNat (n / 256 / 256)).toUInt64 <<< 16 ||| (UInt8.ofNat (n / 256)).toUInt64 <<< 8 |||
      (UInt8.ofNat n).toUInt64 = UInt64.ofNat n := by
  apply UInt64.toNat_inj.mp
  have hupper : (n / 256 / 256) <<< 8 ||| n / 256 % 2 ^ 8 = n / 256 :=
    div_shiftLeft_or_mod (n / 256) 8
  have hbyte : n / 256 / 256 % 2 ^ 8 = n / 256 / 256 := Nat.mod_eq_of_lt (by omega)
  have hhigh : (n / 256 / 256) <<< 16 % 2 ^ 64 = ((n / 256 / 256) <<< 8) <<< 8 := by
    rw [← Nat.shiftLeft_add, Nat.shiftLeft_eq]
    omega
  have hmiddle : (n / 256 % 2 ^ 8) <<< 8 % 2 ^ 64 = (n / 256 % 2 ^ 8) <<< 8 := by
    rw [Nat.shiftLeft_eq]
    omega
  have hfit : n % 2 ^ 64 = n := Nat.mod_eq_of_lt (by omega)
  simp only [UInt64.toNat_or, UInt64.toNat_shiftLeft, UInt8.toNat_toUInt64, UInt8.toNat_ofNat',
    UInt64.toNat_ofNat', UInt64.reduceToNat, Nat.reduceMod]
  rw [hbyte, hhigh, hmiddle, hfit, ← Nat.shiftLeft_or_distrib, hupper]
  exact div_shiftLeft_or_mod n 8

theorem parseVxlan_wrap (v : VxlanHeader) (frame : Bytes) :
    parseVxlan (v.wrap frame) = .ok (some ⟨v.network, frame⟩) := by
  have hlong : 8 ≤ (v.wrap frame).length := by
    simp [wrap]
    omega
  have hinner : slice (v.wrap frame) 8 (v.wrap frame).length = .ok frame := slice_rest (by simp)
  have hflags : byteAt (v.wrap frame) 0 = .ok v.flags := rfl
  rw [parseVxlan, if_pos hlong, hflags]
  dsimp only [bind, Except.bind]
  rw [if_pos v.flagged, hinner]
  exact congrArg (fun vni ↦ Except.ok (some (Vxlan.mk vni frame))) (join_beBytes v.vni.isLt)

end VxlanHeader

/-! ## Packets in packets -/

inductive Transport where
  | tcp (segment : TcpSegment)
  | udp (datagram : UdpDatagram) (plain : datagram.Plain)

namespace Transport

def protocol : Transport → UInt8
  | tcp _ => 6
  | udp _ _ => 17

def bytes : Transport → Bytes
  | tcp t => t.bytes
  | udp u _ => u.bytes

def packet (tsNs wireLen : ℕ) (src dst : IpAddr) (domain : UInt64) : Transport → ParsedPacket
  | tcp t => t.packet tsNs wireLen src dst domain
  | udp u _ => u.packet tsNs wireLen src dst domain

end Transport

inductive Tunnel where
  | ip
  | gre (header : GreHeader)
  | greFrame (header : GreHeader) (frame : EthernetHeader)
  | vxlan (header : VxlanHeader) (frame : EthernetHeader)

namespace Tunnel

/-- The way a tunnel announces itself depends on the header of the packet in it. -/
def protocol (h : IpHeader) : Tunnel → UInt8
  | ip => h.protocol
  | gre _ => 47
  | greFrame _ _ => 47
  | vxlan _ _ => 17

def bytes (h : IpHeader) (packet : Bytes) : Tunnel → Bytes
  | ip => packet
  | gre g => g.wrap h.etherType packet
  | greFrame g e => g.wrap etherTypeTeb (e.wrap h.etherType packet)
  | vxlan v e => (v.datagram (e.wrap h.etherType packet)).bytes

def domain (src dst : IpAddr) (h : IpHeader) (domain : UInt64) : Tunnel → UInt64
  | ip => mixTunnelDomain domain 0x49504950 src dst h.version
  | gre g => mixTunnelDomain domain 0x47524520 src dst g.keyValue
  | greFrame g e => e.domain (mixTunnelDomain domain 0x47524520 src dst g.keyValue)
  | vxlan v e => e.domain (mixTunnelDomain domain 0x56584c41 src dst v.network)

/-- What a decoder sees that does not go into the tunnel. -/
def outside (tsNs wireLen : ℕ) (src dst : IpAddr) (domain : UInt64) (h : IpHeader)
    (packet : Bytes) : Tunnel → InnerOutcome
  | vxlan v e =>
      .packet ((v.datagram (e.wrap h.etherType packet)).packet tsNs wireLen src dst domain)
  | _ => .ignored

theorem isContent_protocol (h : IpHeader) (t : Tunnel) : IsContent (t.protocol h) := by
  cases t with
  | ip =>
      cases h
      all_goals exact of_decide_eq_true rfl
  | gre g => exact of_decide_eq_true rfl
  | greFrame g e => exact of_decide_eq_true rfl
  | vxlan v e => exact of_decide_eq_true rfl

end Tunnel

/-- A packet with all that is in it.  What is in a tunnel may be padded. -/
inductive IpPacket where
  | plain (header : IpHeader) (transport : Transport)
  | tunnel (header : IpHeader) (tunnel : Tunnel) (packet : IpPacket) (padding : Bytes)

namespace IpPacket

def header : IpPacket → IpHeader
  | plain h _ => h
  | tunnel h _ _ _ => h

def bytes : IpPacket → Bytes
  | plain h t => h.wrap t.protocol t.bytes
  | tunnel h t p padding =>
      h.wrap (t.protocol p.header) (t.bytes p.header (p.bytes ++ padding))

def Fits : IpPacket → Prop
  | plain h t => h.Fits t.protocol t.bytes.length
  | tunnel h t p padding =>
      h.Fits (t.protocol p.header) (t.bytes p.header (p.bytes ++ padding)).length ∧ p.Fits

instance decidableFits : (p : IpPacket) → Decidable p.Fits
  | plain h t => inferInstanceAs (Decidable (h.Fits t.protocol t.bytes.length))
  | tunnel h t p padding =>
      have := decidableFits p
      inferInstanceAs (Decidable
        (h.Fits (t.protocol p.header) (t.bytes p.header (p.bytes ++ padding)).length ∧ p.Fits))

/-- The packet that is seen of it: the innermost one, if all tunnels are gone into. -/
def seen (d : PacketDecoder) (wireLen : ℕ) : IpPacket → ℕ → UInt64 → InnerOutcome
  | plain h t, _, domain => .packet (t.packet d.tsNs wireLen h.src h.dst domain)
  | tunnel h t p padding, depth, domain =>
      if d.tunnelDecapsulation = true ∧ depth < maxTunnelDepth then
        p.seen d wireLen (depth + 1) (t.domain h.src h.dst p.header domain)
      else t.outside d.tsNs wireLen h.src h.dst domain p.header (p.bytes ++ padding)

end IpPacket

namespace PacketDecoder

section Tunnels

variable (d : PacketDecoder) (depth wireLen : ℕ) (src dst : IpAddr) (domain : UInt64)
  (cache : SharedFragmentCache)

theorem decodeUdp_plain (inner : Link → ℕ → Bytes → UInt64 → SharedFragmentCache → Decoded)
    {u : UdpDatagram} (hfits : u.bytes.length < 2 ^ 16)
    (hplain : (d.tunnelDecapsulation = true ∧ depth < maxTunnelDepth) → u.Plain) :
    d.decodeUdp inner depth wireLen src dst u.bytes domain cache =
      (.ok (.packet (u.packet d.tsNs wireLen src dst domain)), cache) := by
  rw [decodeUdp, UdpDatagram.parseUdp_bytes hfits]
  dsimp only [andThen]
  split_ifs with hopen
  · rw [hplain ⟨hopen.1, hopen.2.1⟩ hopen.2.2]
    rfl
  · rfl

theorem decodeUdp_vxlan (inner : Link → ℕ → Bytes → UInt64 → SharedFragmentCache → Decoded)
    (hopen : d.tunnelDecapsulation = true ∧ depth < maxTunnelDepth) (v : VxlanHeader) {frame : Bytes}
    (hfits : (v.datagram frame).bytes.length < 2 ^ 16) :
    d.decodeUdp inner depth wireLen src dst (v.datagram frame).bytes domain cache =
      inner .ethernet wireLen frame (mixTunnelDomain domain 0x56584c41 src dst v.network) cache := by
  have hport : d.tunnelDecapsulation = true ∧ depth < maxTunnelDepth ∧
      IsVxlanPort (v.datagram frame).dstPort := ⟨hopen.1, hopen.2, v.port⟩
  have hpayload : parseVxlan (v.datagram frame).payload = .ok (some ⟨v.network, frame⟩) :=
    v.parseVxlan_wrap frame
  rw [decodeUdp, UdpDatagram.parseUdp_bytes hfits]
  dsimp only [andThen]
  rw [if_pos hport, hpayload]

theorem decodeIpPayload_transport
    (inner : Link → ℕ → Bytes → UInt64 → SharedFragmentCache → Decoded) (t : Transport)
    (hfits : t.bytes.length < 2 ^ 16) :
    d.decodeIpPayload inner depth wireLen src dst t.protocol t.bytes domain cache =
      (.ok (.packet (t.packet d.tsNs wireLen src dst domain)), cache) := by
  cases t with
  | tcp t =>
      have hparse := t.parseTcp_bytes d.tsNs wireLen src dst domain
      rw [decodeIpPayload, if_pos (show Transport.protocol (.tcp t) = 6 from rfl), Transport.bytes,
        hparse]
      rfl
  | udp u plain => exact d.decodeUdp_plain depth wireLen src dst domain cache inner hfits fun _ ↦ plain

theorem decodeIpPayload_open (inner : Link → ℕ → Bytes → UInt64 → SharedFragmentCache → Decoded)
    (hopen : d.tunnelDecapsulation = true ∧ depth < maxTunnelDepth) {protocol : UInt8}
    (hother : protocol ≠ 6 ∧ protocol ≠ 17) (content : Bytes) :
    d.decodeIpPayload inner depth wireLen src dst protocol content domain cache =
      if protocol = 47 then decodeGre inner depth wireLen src dst content domain cache
      else if protocol = 4 then
        inner .ipv4 wireLen content (mixTunnelDomain domain 0x49504950 src dst 4) cache
      else if protocol = 41 then
        inner .ipv6 wireLen content (mixTunnelDomain domain 0x49504950 src dst 6) cache
      else (.ok .ignored, cache) := by
  rw [decodeIpPayload, if_neg hother.1, if_neg hother.2, if_pos hopen]

theorem decodeIpPayload_gre (inner : Link → ℕ → Bytes → UInt64 → SharedFragmentCache → Decoded)
    (hopen : d.tunnelDecapsulation = true ∧ depth < maxTunnelDepth) (g : GreHeader)
    (proto : UInt16) (content : Bytes) :
    d.decodeIpPayload inner depth wireLen src dst 47 (g.wrap proto content) domain cache =
      if proto = etherTypeIpv4 then
        inner .ipv4 wireLen content (mixTunnelDomain domain 0x47524520 src dst g.keyValue) cache
      else if proto = etherTypeIpv6 then
        inner .ipv6 wireLen content (mixTunnelDomain domain 0x47524520 src dst g.keyValue) cache
      else if proto = etherTypeTeb then
        inner .ethernet wireLen content (mixTunnelDomain domain 0x47524520 src dst g.keyValue) cache
      else (.ok .ignored, cache) := by
  rw [d.decodeIpPayload_open depth wireLen src dst domain cache inner hopen
      (of_decide_eq_true rfl), if_pos rfl, decodeGre, if_neg (Nat.not_le.mpr hopen.2),
    g.parseGre_wrap]
  rfl

/-- A tunnel that is gone into: its content is decoded one level deeper. -/
theorem decodeIpPayload_tunnel (fuel : ℕ) (h : IpHeader) (packet : Bytes) (t : Tunnel)
    (hopen : d.tunnelDecapsulation = true ∧ depth < maxTunnelDepth)
    (hfits : (t.bytes h packet).length < 2 ^ 16) :
    d.decodeIpPayload (d.decodeLink (fuel + 1) (depth + 1)) depth wireLen src dst (t.protocol h)
      (t.bytes h packet) domain cache =
        d.decodeLink (fuel + 1) (depth + 1) h.link wireLen packet (t.domain src dst h domain)
          cache := by
  cases t with
  | ip =>
      have hother : h.protocol ≠ 6 ∧ h.protocol ≠ 17 := by
        cases h
        all_goals exact of_decide_eq_true rfl
      have hip := d.decodeIpPayload_open depth wireLen src dst domain cache
        (d.decodeLink (fuel + 1) (depth + 1)) hopen hother packet
      cases h
      all_goals exact hip
  | gre g =>
      have hgre := d.decodeIpPayload_gre depth wireLen src dst domain cache
        (d.decodeLink (fuel + 1) (depth + 1)) hopen g h.etherType packet
      cases h
      all_goals exact hgre
  | greFrame g e =>
      have hgre := d.decodeIpPayload_gre depth wireLen src dst domain cache
        (d.decodeLink (fuel + 1) (depth + 1)) hopen g etherTypeTeb (e.wrap h.etherType packet)
      have hframe := d.decodeLink_frame fuel hopen.2 wireLen e h packet
        (mixTunnelDomain domain 0x47524520 src dst g.keyValue) cache
      exact hgre.trans hframe
  | vxlan v e =>
      have hframe := d.decodeLink_frame fuel hopen.2 wireLen e h packet
        (mixTunnelDomain domain 0x56584c41 src dst v.network) cache
      have hudp := d.decodeUdp_vxlan depth wireLen src dst domain cache
        (d.decodeLink (fuel + 1) (depth + 1)) hopen v hfits
      exact hudp.trans hframe

/-- A tunnel that is not gone into. -/
theorem decodeIpPayload_closed (inner : Link → ℕ → Bytes → UInt64 → SharedFragmentCache → Decoded)
    (h : IpHeader) (packet : Bytes) (t : Tunnel)
    (hclosed : ¬ (d.tunnelDecapsulation = true ∧ depth < maxTunnelDepth))
    (hfits : (t.bytes h packet).length < 2 ^ 16) :
    d.decodeIpPayload inner depth wireLen src dst (t.protocol h) (t.bytes h packet) domain cache =
      (.ok (t.outside d.tsNs wireLen src dst domain h packet), cache) := by
  have hignored : ∀ {protocol : UInt8} (content : Bytes), protocol ≠ 6 ∧ protocol ≠ 17 →
      d.decodeIpPayload inner depth wireLen src dst protocol content domain cache =
        (.ok .ignored, cache) := by
    intro protocol content hother
    rw [decodeIpPayload, if_neg hother.1, if_neg hother.2, if_neg hclosed]
  cases t with
  | ip =>
      apply hignored
      cases h
      all_goals exact of_decide_eq_true rfl
  | gre g => exact hignored _ (of_decide_eq_true rfl)
  | greFrame g e => exact hignored _ (of_decide_eq_true rfl)
  | vxlan v e =>
      exact d.decodeUdp_plain depth wireLen src dst domain cache inner hfits
        fun hopen ↦ absurd hopen hclosed

end Tunnels

theorem decodeLink_bytes (d : PacketDecoder) (wireLen : ℕ) (cache : SharedFragmentCache)
    {p : IpPacket} (hfits : p.Fits) :
    ∀ (fuel depth : ℕ) (padding : Bytes) (domain : UInt64), fuel + depth = maxTunnelDepth →
      d.decodeLink (fuel + 1) depth p.header.link wireLen (p.bytes ++ padding) domain cache =
        (.ok (p.seen d wireLen depth domain), cache) := by
  induction p with
  | plain h t =>
      intro fuel depth padding domain _
      have hcontent : IsContent t.protocol := by
        cases t
        all_goals exact of_decide_eq_true rfl
      have hip := d.decodeLink_wrap depth wireLen padding domain cache fuel hcontent hfits
      have htransport := d.decodeIpPayload_transport depth wireLen h.src h.dst domain cache
        (d.decodeLink fuel (depth + 1)) t (IpHeader.Fits.content_lt hfits)
      exact hip.trans htransport
  | tunnel h t p inside ih =>
      intro fuel depth padding domain hfuel
      have hip := d.decodeLink_wrap depth wireLen padding domain cache fuel
        (t.isContent_protocol p.header) hfits.1
      rw [IpPacket.seen]
      split_ifs with hopen
      · obtain ⟨fuel, rfl⟩ : ∃ less, fuel = less + 1 :=
          Nat.exists_eq_add_of_le' (by have := hopen.2; omega)
        have htunnel := d.decodeIpPayload_tunnel depth wireLen h.src h.dst domain cache fuel
          p.header (p.bytes ++ inside) t hopen (IpHeader.Fits.content_lt hfits.1)
        have hinner := ih hfits.2 fuel (depth + 1) inside
          (t.domain h.src h.dst p.header domain) (by omega)
        exact hip.trans (htunnel.trans hinner)
      · have hclosed := d.decodeIpPayload_closed depth wireLen h.src h.dst domain cache
          (d.decodeLink fuel (depth + 1)) p.header (p.bytes ++ inside) t hopen
          (IpHeader.Fits.content_lt hfits.1)
        exact hip.trans hclosed

/-- A segment of a virtual network, in VXLAN over IPv6 and on a VLAN. -/
def tenantSegment : TcpSegment where
  srcPort := 40000
  dstPort := 80
  seq := 1000
  ack := 2000
  flags := 0x18
  window := 512
  checksum := 0
  urgent := 0
  options := []
  payload := [71, 69, 84]
  options_words := rfl
  options_le := Nat.zero_le _

def tenantPacket : IpPacket :=
  .tunnel
    (.v6 {
      first := 0x60, second := 0, flowLabel := 0, hopLimit := 64, src := 1, dst := 2
      extensions := [⟨60, 0, [0, 0, 0, 0, 0, 0], .inl ⟨.inr (.inr rfl), rfl⟩⟩], version := rfl })
    (.vxlan
      { srcPort := 50000, dstPort := 4789, checksum := 0, flags := 8, reserved := 0, vni := 77
        last := 0, port := .inl rfl, flagged := of_decide_eq_true rfl }
      ⟨List.replicate 12 0, [], rfl, Nat.zero_le _⟩)
    (.plain
      (.v4 {
        src := 0x0a000001, dst := 0x0a000002, tos := 0, id := 5, dontFragment := true, ttl := 64
        checksum := 0, options := [], options_words := rfl, options_le := Nat.zero_le _ })
      (.tcp tenantSegment))
    [0, 0, 0]

end PacketDecoder

end Bazalt.Capture
