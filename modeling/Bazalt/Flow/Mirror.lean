import Bazalt.Capture.DecoderSafety
import Bazalt.Flow.PrefixBudget

/-!
# The two directions of a flow

A frame is turned around by exchanging the addresses of every IP header and the ports of the
innermost header.  The frame that comes out belongs to the same flow and goes the other way.
-/

namespace Bazalt.Capture

section Edits

variable {b b' new : Bytes} {i j k n : ℕ}

/-- The bytes from a position on are replaced. -/
def splice (b : Bytes) (i : ℕ) (new : Bytes) : Bytes := b.take i ++ new ++ b.drop (i + new.length)

/-- Two fields of `n` bytes that follow each other are exchanged. -/
def exchange (b : Bytes) (i n : ℕ) : Bytes :=
  splice b i ((b.drop (i + n)).take n ++ (b.drop i).take n)

/-- The bytes are the same, but for those from `i` to `j`. -/
structure Agree (b b' : Bytes) (i j : ℕ) : Prop where
  length : b'.length = b.length
  same : ∀ k, k < i ∨ j ≤ k → b'[k]? = b[k]?

theorem agree_splice (h : i + new.length ≤ b.length) :
    Agree b (splice b i new) i (i + new.length) := by
  unfold splice
  refine ⟨?_, fun k hk ↦ ?_⟩
  · simp only [List.length_append, List.length_take, List.length_drop]
    omega
  · rw [List.append_assoc]
    rcases hk with hk | hk
    · rw [List.getElem?_append_left (by rw [List.length_take]; omega), List.getElem?_take, if_pos hk]
    · have hlen : (b.take i).length = i := by
        rw [List.length_take]
        omega
      rw [List.getElem?_append_right (by omega), List.getElem?_append_right (by omega), hlen,
        List.getElem?_drop]
      congr 1
      omega

theorem splice_inside {w : Bytes} (h : i ≤ b.length) :
    ((splice b i w).take (i + w.length)).drop i = w := by
  have hlen : (b.take i).length = i := by
    rw [List.length_take]
    omega
  unfold splice
  rw [List.append_assoc, List.take_append, hlen, List.take_of_length_le (by omega),
    Nat.add_sub_cancel_left, List.take_append_of_le_length le_rfl, List.take_length]
  exact List.drop_left' hlen

theorem length_splice (h : i + new.length ≤ b.length) : (splice b i new).length = b.length :=
  (agree_splice h).length

/-- A slice that ends where the new bytes do. -/
theorem slice_splice {l : ℕ} (hji : i ≤ j) (hl : j + new.length = l) (hb : l ≤ b.length) :
    ((splice b j new).take l).drop i = splice ((b.take l).drop i) (j - i) new := by
  have hlen : (b.take j).length = j := by
    rw [List.length_take]
    omega
  have htake : (splice b j new).take l = b.take j ++ new := by
    unfold splice
    rw [List.append_assoc, List.take_append, hlen, List.take_of_length_le (by omega),
      show l - j = new.length by omega, List.take_append_of_le_length le_rfl, List.take_length]
  have hfront : ((b.take l).drop i).take (j - i) = (b.take j).drop i := by
    rw [List.take_drop, List.take_take, show min (i + (j - i)) l = j by omega]
  have hrest : ((b.take l).drop i).drop (j - i + new.length) = [] := by
    rw [List.drop_eq_nil_iff, List.length_drop, List.length_take]
    omega
  rw [htake, splice, hfront, hrest, List.append_nil, List.drop_append_of_le_length (by omega)]

theorem length_exchanged (h : i + 2 * n ≤ b.length) :
    ((b.drop (i + n)).take n ++ (b.drop i).take n).length = 2 * n := by
  simp only [List.length_append, List.length_take, List.length_drop]
  omega

theorem agree_exchange (h : i + 2 * n ≤ b.length) :
    Agree b (exchange b i n) i (i + 2 * n) := by
  have hlen := length_exchanged h
  unfold exchange
  rw [← hlen]
  exact agree_splice (by omega)

/-- What the two fields hold after the exchange. -/
theorem exchange_inside (h : i + 2 * n ≤ b.length) :
    ((exchange b i n).take (i + n)).drop i = (b.take (i + n + n)).drop (i + n) ∧
      ((exchange b i n).take (i + n + n)).drop (i + n) = (b.take (i + n)).drop i := by
  have hlen := length_exchanged h
  have hfirst : ((b.drop (i + n)).take n).length = n := by
    rw [List.length_take, List.length_drop]
    omega
  have hsecond : ((b.drop i).take n).length = n := by
    rw [List.length_take, List.length_drop]
    omega
  have hboth := splice_inside (b := b) (i := i)
    (w := (b.drop (i + n)).take n ++ (b.drop i).take n) (by omega)
  rw [hlen, ← List.take_drop] at hboth
  change ((exchange b i n).drop i).take (2 * n) = _ at hboth
  rw [← List.take_drop, ← List.take_drop, ← List.take_drop, ← List.take_drop]
  constructor
  · have htake := congrArg (List.take n) hboth
    rwa [List.take_take, min_eq_left (by omega), List.take_append_of_le_length hfirst.ge,
      List.take_of_length_le hfirst.le] at htake
  · have hdrop := congrArg (List.drop n) hboth
    rw [List.drop_left' hfirst, List.drop_take, List.drop_drop] at hdrop
    rwa [show 2 * n - n = n by omega] at hdrop

theorem getElem?_exchange (h : i + 2 * n ≤ b.length) (hk : k < n) :
    (exchange b i n)[i + k]? = b[i + n + k]? ∧ (exchange b i n)[i + n + k]? = b[i + k]? := by
  obtain ⟨hfirst, hsecond⟩ := exchange_inside h
  constructor
  · have hget := congrArg (·[k]?) hfirst
    simpa only [List.getElem?_drop, List.getElem?_take, Nat.add_lt_add_left hk, if_true] using hget
  · have hget := congrArg (·[k]?) hsecond
    simpa only [List.getElem?_drop, List.getElem?_take, Nat.add_lt_add_left hk, if_true] using hget

theorem u16At_exchange (h : i + 4 ≤ b.length) :
    u16At (exchange b i 2) i = u16At b (i + 2) ∧ u16At (exchange b i 2) (i + 2) = u16At b i := by
  obtain ⟨hfirst, hthird⟩ := getElem?_exchange (b := b) (i := i) (n := 2) (k := 0) h (by omega)
  obtain ⟨hsecond, hfourth⟩ := getElem?_exchange (b := b) (i := i) (n := 2) (k := 1) h (by omega)
  simp only [Nat.add_zero] at hfirst hthird
  simp only [u16At, byteAt, hfirst, hsecond, hthird, hfourth, and_self]

theorem Agree.byteAt (h : Agree b b' i j) (hk : k < i ∨ j ≤ k) : byteAt b' k = byteAt b k := by
  unfold Capture.byteAt
  rw [h.same k hk]

theorem Agree.u16At (h : Agree b b' i j) (hk : k + 1 < i ∨ j ≤ k) : u16At b' k = u16At b k := by
  unfold Capture.u16At
  rw [h.byteAt (by omega), h.byteAt (by omega)]

theorem Agree.u32At (h : Agree b b' i j) (hk : k + 3 < i ∨ j ≤ k) : u32At b' k = u32At b k := by
  unfold Capture.u32At
  rw [h.u16At (by omega), h.u16At (by omega)]

theorem Agree.slice {l : ℕ} (h : Agree b b' i j) (hk : l ≤ i ∨ j ≤ k) :
    slice b' k l = slice b k l := by
  unfold Capture.slice
  rw [h.length]
  split_ifs with hin
  · congr 1
    refine List.ext_getElem? fun m ↦ ?_
    rw [List.getElem?_drop, List.getElem?_drop, List.getElem?_take, List.getElem?_take]
    split_ifs with hm
    · exact h.same _ (by omega)
    · rfl
  · rfl

end Edits

section Canonical

variable {src dst : Endpoint} {protocol : TransportProtocol} {domain : UInt64}

theorem sortKey_injective : Function.Injective IpAddr.sortKey := by
  rintro (x | x) (y | y) h
  all_goals
    obtain ⟨hversion, hoctets⟩ := Prod.mk.inj (toLex.injective h)
    simp at hversion
  · rw [BitVec.eq_of_toNat_eq hoctets]
  · rw [BitVec.eq_of_toNat_eq hoctets]

theorem endpointSortKey_injective : Function.Injective endpointSortKey := by
  rintro ⟨ip, port⟩ ⟨ip', port'⟩ h
  obtain ⟨hip, hport⟩ := Prod.mk.inj (toLex.injective h)
  exact congrArg₂ Endpoint.mk (sortKey_injective hip) (UInt16.toNat_inj.mp hport)

theorem mixTunnelDomain_comm (domain kind : UInt64) (src dst : IpAddr) (id : UInt64) :
    mixTunnelDomain domain kind dst src id = mixTunnelDomain domain kind src dst id := by
  unfold mixTunnelDomain
  rcases lt_trichotomy src.sortKey dst.sortKey with hlt | heq | hgt
  · rw [if_pos hlt.le, if_neg (not_le.mpr hlt)]
  · rw [sortKey_injective heq]
  · rw [if_neg (not_le.mpr hgt), if_pos hgt.le]

/-- The packet goes the other way in the same flow. -/
structure Mirrored (p p' : ParsedPacket) : Prop where
  key : p'.key = p.key
  source : p'.sourceEndpoint = p.destinationEndpoint
  destination : p'.destinationEndpoint = p.sourceEndpoint
  direction : p.sourceEndpoint ≠ p.destinationEndpoint → p'.direction = p.direction.opposite

theorem canonical_swap (h : src ≠ dst) :
    FlowKey.canonicalWithDomain dst src protocol domain =
      ((FlowKey.canonicalWithDomain src dst protocol domain).1,
        (FlowKey.canonicalWithDomain src dst protocol domain).2.opposite) := by
  unfold FlowKey.canonicalWithDomain
  rcases lt_trichotomy (endpointSortKey src) (endpointSortKey dst) with hlt | heq | hgt
  · rw [if_pos hlt.le, if_neg (not_le.mpr hlt)]
    rfl
  · exact absurd (endpointSortKey_injective heq) h
  · rw [if_neg (not_le.mpr hgt), if_pos hgt.le]
    rfl

theorem mirrored_of_canonical {p p' : ParsedPacket}
    (h : FlowKey.canonicalWithDomain src dst protocol domain = (p.key, p.direction))
    (h' : FlowKey.canonicalWithDomain dst src protocol domain = (p'.key, p'.direction)) :
    Mirrored p p' := by
  obtain ⟨hsource, hdestination⟩ := endpoints_of_canonical h
  obtain ⟨hsource', hdestination'⟩ := endpoints_of_canonical h'
  by_cases heq : src = dst
  · subst heq
    rw [h] at h'
    refine ⟨(Prod.mk.inj h').1.symm, hsource'.trans hdestination.symm,
      hdestination'.trans hsource.symm, fun hne ↦ ?_⟩
    exact absurd (hsource.trans hdestination.symm) hne
  · rw [canonical_swap heq, h] at h'
    obtain ⟨hkey, hdirection⟩ := Prod.mk.inj h'
    exact ⟨hkey.symm, hsource'.trans hdestination.symm, hdestination'.trans hsource.symm,
      fun _ ↦ hdirection.symm⟩

end Canonical

section Turning

/-- What a GRE header carries, if it is decoded. -/
def greLink (proto : UInt16) : Option Link :=
  if proto = etherTypeIpv4 then some .ipv4
  else if proto = etherTypeIpv6 then some .ipv6
  else if proto = etherTypeTeb then some .ethernet
  else none

def headerLength (packet : Bytes) : ℕ := ((packet.headD 0) &&& 0x0f).toNat * 4

section Layers

-- `inner` turns around what a tunnel carries
variable (inner : Link → Bytes → Bytes)

def mirrorUdp (udp : Bytes) : Bytes :=
  match parseUdp udp with
  | .error _ => udp
  | .ok header =>
      if IsVxlanPort header.dstPort then
        match parseVxlan header.payload with
        | .ok (some vxlan) => splice udp 16 (inner .ethernet vxlan.inner)
        | _ => exchange udp 0 2
      else exchange udp 0 2

def mirrorGre (gre : Bytes) : Bytes :=
  match parseGre gre with
  | .ok (some header) =>
      match greLink header.proto with
      | some link => splice gre (gre.length - header.inner.length) (inner link header.inner)
      | none => gre
  | _ => gre

/-- Tunnels keep their identifiers and their ports. -/
def mirrorIpPayload (protocol : UInt8) (payload : Bytes) : Bytes :=
  if protocol = 6 then exchange payload 0 2
  else if protocol = 17 then mirrorUdp inner payload
  else if protocol = 47 then mirrorGre inner payload
  else if protocol = 4 then inner .ipv4 payload
  else if protocol = 41 then inner .ipv6 payload
  else payload

def mirrorIpv4 (packet : Bytes) : Bytes :=
  match parseIpv4 packet with
  | .error _ => packet
  | .ok header =>
      exchange (splice packet (headerLength packet)
        (mirrorIpPayload inner header.protocol header.payload)) 12 4

def mirrorPostFragment (next : UInt8) (payload : Bytes) : Bytes :=
  match walkExtensions PacketDecoder.postFragmentTexts payload payload.length
    (payload.length + 1) ⟨next, 0⟩ with
  | .error _ => payload
  | .ok e => splice payload e.offset (mirrorIpPayload inner e.next (payload.drop e.offset))

def mirrorIpv6 (packet : Bytes) : Bytes :=
  match parseIpv6 packet with
  | .error _ => packet
  | .ok header =>
      match walkExtensions PacketDecoder.ipv6Texts packet header.ipLen (header.ipLen + 1)
        ⟨header.next, 40⟩ with
      | .error _ => packet
      | .ok e =>
          if e.next = 44 then
            match parseFragmentHeader packet e.offset header.ipLen with
            | .error _ => packet
            | .ok fragment => exchange (splice packet (e.offset + 8)
                (mirrorPostFragment inner fragment.next fragment.payload)) 8 16
          else exchange (splice packet e.offset
            (mirrorIpPayload inner e.next ((packet.take header.ipLen).drop e.offset))) 8 16

def mirrorEthernet (frame : Bytes) : Bytes :=
  match parseEthernet frame 0 with
  | .error _ => frame
  | .ok header =>
      let l3 := frame.drop header.l3Offset
      if header.etherType = etherTypeIpv4 then splice frame header.l3Offset (mirrorIpv4 inner l3)
      else if header.etherType = etherTypeIpv6 then
        splice frame header.l3Offset (mirrorIpv6 inner l3)
      else frame

end Layers

def mirrorLink : ℕ → Link → Bytes → Bytes
  | 0, _, bytes => bytes
  | fuel + 1, link, bytes =>
      match link with
      | .ethernet => mirrorEthernet (mirrorLink fuel) bytes
      | .ipv4 => mirrorIpv4 (mirrorLink fuel) bytes
      | .ipv6 => mirrorIpv6 (mirrorLink fuel) bytes

/-- The frame with the addresses of all IP headers and the ports of the innermost header
exchanged. -/
def mirror (frame : Bytes) : Bytes := mirrorLink (maxTunnelDepth + 1) .ethernet frame

end Turning

section Wholeness

section Layers

-- `inner` tells whether what a tunnel carries is whole
variable (inner : Link → Bytes → Bool)

def wholeIpPayload (protocol : UInt8) (payload : Bytes) : Bool :=
  if protocol = 17 then
    match parseUdp payload with
    | .error _ => true
    | .ok header =>
        match parseVxlan header.payload with
        | .ok (some vxlan) => !decide (IsVxlanPort header.dstPort) || inner .ethernet vxlan.inner
        | _ => true
  else if protocol = 47 then
    match parseGre payload with
    | .ok (some header) => (greLink header.proto).all fun link ↦ inner link header.inner
    | _ => true
  else if protocol = 4 then inner .ipv4 payload
  else if protocol = 41 then inner .ipv6 payload
  else true

def wholeIpv4 (packet : Bytes) : Bool :=
  match parseIpv4 packet with
  | .error _ => true
  | .ok header => decide (header.offset = 0) && !header.more &&
      wholeIpPayload inner header.protocol header.payload

def wholePostFragment (next : UInt8) (payload : Bytes) : Bool :=
  match walkExtensions PacketDecoder.postFragmentTexts payload payload.length
    (payload.length + 1) ⟨next, 0⟩ with
  | .error _ => true
  | .ok e => wholeIpPayload inner e.next (payload.drop e.offset)

/-- An atomic fragment is whole. -/
def wholeIpv6 (packet : Bytes) : Bool :=
  match parseIpv6 packet with
  | .error _ => true
  | .ok header =>
      match walkExtensions PacketDecoder.ipv6Texts packet header.ipLen (header.ipLen + 1)
        ⟨header.next, 40⟩ with
      | .error _ => true
      | .ok e =>
          if e.next = 44 then
            match parseFragmentHeader packet e.offset header.ipLen with
            | .error _ => true
            | .ok fragment => decide (fragment.offset = 0) && !fragment.more &&
                wholePostFragment inner fragment.next fragment.payload
          else wholeIpPayload inner e.next ((packet.take header.ipLen).drop e.offset)

def wholeEthernet (frame : Bytes) : Bool :=
  match parseEthernet frame 0 with
  | .error _ => true
  | .ok header =>
      let l3 := frame.drop header.l3Offset
      if header.etherType = etherTypeIpv4 then wholeIpv4 inner l3
      else if header.etherType = etherTypeIpv6 then wholeIpv6 inner l3
      else true

end Layers

def wholeLink : ℕ → Link → Bytes → Bool
  | 0, _, _ => true
  | fuel + 1, link, bytes =>
      match link with
      | .ethernet => wholeEthernet (wholeLink fuel) bytes
      | .ipv4 => wholeIpv4 (wholeLink fuel) bytes
      | .ipv6 => wholeIpv6 (wholeLink fuel) bytes

/-- No IP header of the frame is that of a fragment. -/
def unfragmented (frame : Bytes) : Bool := wholeLink (maxTunnelDepth + 1) .ethernet frame

end Wholeness

section Reflection

variable {b b' : Bytes} {i j : ℕ} {r r' : Decoded} {tsNs wireLen : ℕ} {src dst : IpAddr}
  {domain : UInt64}

/-- The innermost header is not that of a tunnel. -/
def Plain (p : ParsedPacket) : Prop :=
  p.key.protocol = .udp →
    ¬IsVxlanPort p.sourceEndpoint.port ∧ ¬IsVxlanPort p.destinationEndpoint.port

/-- If `b` is decoded to a packet, then `b'` is decoded to the packet that goes the other
way. -/
def Reflects (b b' : Bytes) (r r' : Decoded) : Prop :=
  ∀ p, r.1 = .ok (.packet p) → Plain p →
    b'.length = b.length ∧ ∃ p', r'.1 = .ok (.packet p') ∧ Mirrored p p'

theorem reflects_parseTcp (tcp : Bytes) (cache : SharedFragmentCache) :
    Reflects tcp (exchange tcp 0 2)
      ((parseTcp tsNs wireLen src dst tcp domain).map .packet, cache)
      ((parseTcp tsNs wireLen dst src (exchange tcp 0 2) domain).map .packet, cache) := by
  intro p hp _
  have hp : parseTcp tsNs wireLen src dst tcp domain = .ok p := by
    cases hr : parseTcp tsNs wireLen src dst tcp domain with
    | error e => simp [hr, Except.map] at hp
    | ok q => simpa [hr, Except.map] using hp
  simp only [parseTcp, bind_eq_ok, ensure_eq_ok, pure, Except.pure, Except.ok.injEq] at hp
  obtain ⟨-, hlen, srcPort, hsrc, dstPort, hdst, seq, hseq, ack, hack, first, hfirst, -, hheader,
    -, hoptions, bits, hbits, payload, hpayload, hpacket⟩ := hp
  have hagree : Agree tcp (exchange tcp 0 2) 0 4 := agree_exchange (by omega)
  obtain ⟨hports, hports'⟩ := u16At_exchange (b := tcp) (i := 0) (by omega)
  refine ⟨hagree.length, ?_⟩
  have hparsed : ∃ p', parseTcp tsNs wireLen dst src (exchange tcp 0 2) domain = .ok p' ∧
      FlowKey.canonicalWithDomain ⟨dst, dstPort⟩ ⟨src, srcPort⟩ .tcp domain =
        (p'.key, p'.direction) := by
    simp only [parseTcp, bind_eq_ok, ensure_eq_ok, pure, Except.pure, Except.ok.injEq,
      hagree.length]
    refine ⟨_, ⟨(), hlen, dstPort, hports.trans hdst, srcPort, hports'.trans hsrc, seq, ?_, ack, ?_,
      first, ?_, (), hheader, (), hoptions, bits, ?_, payload, ?_, rfl⟩, rfl⟩
    · rw [hagree.u32At (by omega), hseq]
    · rw [hagree.u32At (by omega), hack]
    · rw [hagree.byteAt (by omega), hfirst]
    · rw [hagree.byteAt (by omega), hbits]
    · rw [hagree.slice (by omega), hpayload]
  obtain ⟨p', hp', hcanonical⟩ := hparsed
  refine ⟨p', by rw [hp']; rfl, mirrored_of_canonical ?_ hcanonical⟩
  rw [← hpacket]

theorem parseVxlan_splice {vxlan : Bytes} {v : Vxlan} (h : parseVxlan vxlan = .ok (some v))
    {new : Bytes} (hnew : new.length = v.inner.length) :
    8 + new.length = vxlan.length ∧
      parseVxlan (splice vxlan 8 new) = .ok (some { v with inner := new }) := by
  unfold parseVxlan at h
  split_ifs at h with hlen
  · obtain ⟨flags, hflags, h⟩ := bind_eq_ok.mp h
    split_ifs at h with hvni
    · simp only [bind_eq_ok, pure, Except.pure, Except.ok.injEq, Option.some.injEq] at h
      obtain ⟨high, hhigh, middle, hmiddle, low, hlow, rest, hrest, rfl⟩ := h
      obtain ⟨-, rfl⟩ := slice_eq_ok.mp hrest
      rw [List.take_length, List.length_drop] at hnew
      have hagree : Agree vxlan (splice vxlan 8 new) 8 (8 + new.length) :=
        agree_splice (by omega)
      have hend : 8 + new.length = vxlan.length := by omega
      have hinside := splice_inside (b := vxlan) (w := new) hlen
      rw [hend] at hinside
      refine ⟨hend, ?_⟩
      unfold parseVxlan
      rw [hagree.length, if_pos hlen]
      refine bind_eq_ok.mpr ⟨flags, (hagree.byteAt (by omega)).trans hflags, ?_⟩
      rw [if_pos hvni]
      simp only [bind_eq_ok, pure, Except.pure, Except.ok.injEq, Option.some.injEq]
      exact ⟨high, (hagree.byteAt (by omega)).trans hhigh, middle,
        (hagree.byteAt (by omega)).trans hmiddle, low, (hagree.byteAt (by omega)).trans hlow,
        new, slice_eq_ok.mpr ⟨⟨hlen, hagree.length.ge⟩, hinside⟩, rfl⟩
    · cases h
  · cases h

/-- What a UDP header says, and where its payload is. -/
structure UdpAt (udp : Bytes) (header : Udp) (finish : ℕ) : Prop where
  header_le : 8 ≤ finish
  finish_le : finish ≤ udp.length
  srcPort : u16At udp 0 = .ok header.srcPort
  dstPort : u16At udp 2 = .ok header.dstPort
  length : ∃ len, u16At udp 4 = .ok len ∧ len.toNat = finish
  payload : (udp.take finish).drop 8 = header.payload

theorem parseUdp_iff {udp : Bytes} {header : Udp} :
    parseUdp udp = .ok header ↔ ∃ finish, UdpAt udp header finish := by
  simp only [parseUdp, bind_eq_ok, ensure_eq_ok, slice_eq_ok, pure, Except.pure, Except.ok.injEq]
  constructor
  · rintro ⟨-, hlen, srcPort, hsrc, dstPort, hdst, len, hfinish, -, hheader, -, hcaptured, payload,
      ⟨-, hpayload⟩, rfl⟩
    exact ⟨len.toNat, hheader, hcaptured, hsrc, hdst, ⟨len, hfinish, rfl⟩, hpayload⟩
  · rintro ⟨_, hheader, hcaptured, hsrc, hdst, ⟨len, hfinish, rfl⟩, hpayload⟩
    exact ⟨(), by omega, _, hsrc, _, hdst, len, hfinish, (), hheader, (), hcaptured, _,
      ⟨⟨hheader, hcaptured⟩, hpayload⟩, rfl⟩

theorem parseUdp_exchange {udp : Bytes} {header : Udp} (h : parseUdp udp = .ok header) :
    (exchange udp 0 2).length = udp.length ∧
      parseUdp (exchange udp 0 2) =
        .ok { header with srcPort := header.dstPort, dstPort := header.srcPort } := by
  obtain ⟨finish, hat⟩ := parseUdp_iff.mp h
  have hlen := hat.header_le.trans hat.finish_le
  have hagree : Agree udp (exchange udp 0 2) 0 4 := agree_exchange (by omega)
  obtain ⟨hports, hports'⟩ := u16At_exchange (b := udp) (i := 0) (by omega)
  obtain ⟨len, hfinish, hto⟩ := hat.length
  have hslice : slice (exchange udp 0 2) 8 finish = .ok header.payload := by
    rw [hagree.slice (by omega)]
    exact slice_eq_ok.mpr ⟨⟨hat.header_le, hat.finish_le⟩, hat.payload⟩
  refine ⟨hagree.length, parseUdp_iff.mpr ⟨finish, hat.header_le, ?_, ?_, ?_, ?_, ?_⟩⟩
  · rw [hagree.length]
    exact hat.finish_le
  · exact hports.trans hat.dstPort
  · exact hports'.trans hat.srcPort
  · exact ⟨len, (hagree.u16At (by omega)).trans hfinish, hto⟩
  · exact (slice_eq_ok.mp hslice).2

theorem parseUdp_splice {udp : Bytes} {header : Udp} (h : parseUdp udp = .ok header) {new : Bytes}
    (hnew : 8 + new.length = header.payload.length) :
    (splice udp 16 new).length = udp.length ∧
      parseUdp (splice udp 16 new) =
        .ok { header with payload := splice header.payload 8 new } := by
  obtain ⟨finish, hat⟩ := parseUdp_iff.mp h
  have hle := hat.finish_le
  have hsize := congrArg List.length hat.payload
  rw [List.length_drop, List.length_take] at hsize
  have hagree : Agree udp (splice udp 16 new) 16 (16 + new.length) := agree_splice (by omega)
  obtain ⟨len, hfinish, hto⟩ := hat.length
  refine ⟨hagree.length, parseUdp_iff.mpr ⟨finish, hat.header_le, ?_, ?_, ?_, ?_, ?_⟩⟩
  · rw [hagree.length]
    exact hle
  · exact (hagree.u16At (by omega)).trans hat.srcPort
  · exact (hagree.u16At (by omega)).trans hat.dstPort
  · exact ⟨len, (hagree.u16At (by omega)).trans hfinish, hto⟩
  · rw [slice_splice (by omega) (by omega) hle, hat.payload]

theorem skipVlans_spec {frame : Bytes} {rounds : ℕ} {e e' : Ethernet}
    (h : skipVlans frame rounds e = .ok e') :
    e.l3Offset ≤ e'.l3Offset ∧
      (∀ frame' j, Agree frame frame' e'.l3Offset j → skipVlans frame' rounds e = .ok e') ∧
      ∀ domain, ∃ domain', skipVlans frame rounds { e with domain := domain } =
        .ok { e' with domain := domain' } := by
  induction rounds generalizing e with
  | zero =>
      obtain rfl := Except.ok.inj h
      exact ⟨le_rfl, fun _ _ _ ↦ rfl, fun domain ↦ ⟨domain, rfl⟩⟩
  | succ rounds ih =>
      rw [skipVlans] at h
      simp only [skipVlans]
      split_ifs at h ⊢
      · simp only [bind_eq_ok, ensure_eq_ok] at h
        obtain ⟨-, hlen, tci, htci, etherType, hetherType, h⟩ := h
        obtain ⟨hle, hall, hdomains⟩ := ih h
        dsimp only at hle
        refine ⟨by omega, fun frame' j hagree ↦ ?_, fun domain ↦ ?_⟩
        · simp only [bind_eq_ok, ensure_eq_ok, hagree.length]
          exact ⟨(), hlen, tci, (hagree.u16At (by omega)).trans htci, etherType,
            (hagree.u16At (by omega)).trans hetherType, hall frame' j hagree⟩
        · obtain ⟨domain', hdomain⟩ := hdomains
            (mixDomain domain 0x564c414e (tci &&& 0x0fff).toUInt64)
          refine ⟨domain', ?_⟩
          simp only [bind_eq_ok, ensure_eq_ok]
          exact ⟨(), hlen, tci, htci, etherType, hetherType, hdomain⟩
      · obtain rfl := Except.ok.inj h
        exact ⟨le_rfl, fun _ _ _ ↦ rfl, fun domain ↦ ⟨domain, rfl⟩⟩

theorem parseEthernet_spec {frame : Bytes} {header : Ethernet}
    (h : parseEthernet frame domain = .ok header) :
    (∀ frame' j, Agree frame frame' header.l3Offset j →
      parseEthernet frame' domain = .ok header) ∧
      ∃ domain', parseEthernet frame 0 = .ok { header with domain := domain' } := by
  simp only [parseEthernet, bind_eq_ok, ensure_eq_ok] at h
  obtain ⟨-, hlen, etherType, hetherType, h⟩ := h
  obtain ⟨hle, hall, hdomains⟩ := skipVlans_spec h
  dsimp only at hle
  refine ⟨fun frame' j hagree ↦ ?_, ?_⟩
  · simp only [parseEthernet, bind_eq_ok, ensure_eq_ok, hagree.length]
    exact ⟨(), hlen, etherType, (hagree.u16At (by omega)).trans hetherType, hall frame' j hagree⟩
  · obtain ⟨domain', hdomain⟩ := hdomains 0
    refine ⟨domain', ?_⟩
    simp only [parseEthernet, bind_eq_ok, ensure_eq_ok]
    exact ⟨(), hlen, etherType, hetherType, hdomain⟩

theorem headerLength_eq {packet : Bytes} {first : UInt8} (h : byteAt packet 0 = .ok first) :
    headerLength packet = (first &&& 0x0f).toNat * 4 := by
  cases packet with
  | nil => cases h
  | cons x rest =>
      obtain rfl := Option.some.inj (byteAt_eq_ok.mp h)
      rfl

theorem parseIpv4_splice {packet : Bytes} {header : Ipv4} (h : parseIpv4 packet = .ok header)
    {new : Bytes} (hnew : new.length = header.payload.length) :
    (splice packet (headerLength packet) new).length = packet.length ∧
      parseIpv4 (splice packet (headerLength packet) new) = .ok { header with payload := new } := by
  simp only [parseIpv4, bind_eq_ok, ensure_eq_ok, pure, Except.pure, Except.ok.injEq] at h
  obtain ⟨-, hlen, first, hfirst, -, hversion, -, hihl, -, hoptions, totalLen, htotalLen, -, htotal,
    -, hcaptured, src, hsrc, dst, hdst, protocol, hprotocol, frag, hfrag, payload, hpayload, id,
    hid, rfl⟩ := h
  obtain ⟨-, rfl⟩ := slice_eq_ok.mp hpayload
  rw [headerLength_eq hfirst]
  generalize hlength : (first &&& 0x0f).toNat * 4 = ihl at *
  rw [List.length_drop, List.length_take] at hnew
  have hagree : Agree packet (splice packet ihl new) ihl (ihl + new.length) :=
    agree_splice (by omega)
  have hinside := splice_inside (b := packet) (w := new) hoptions
  rw [show ihl + new.length = totalLen.toNat by omega] at hinside
  refine ⟨hagree.length, ?_⟩
  simp only [parseIpv4, bind_eq_ok, ensure_eq_ok, pure, Except.pure, Except.ok.injEq,
    hagree.length]
  refine ⟨(), hlen, first, (hagree.byteAt (by omega)).trans hfirst, (), hversion, (),
    hlength.symm ▸ hihl, (), hlength.symm ▸ hoptions, totalLen,
    (hagree.u16At (by omega)).trans htotalLen, (), hlength.symm ▸ htotal, (), hcaptured, src,
    (hagree.slice (by omega)).trans hsrc, dst, (hagree.slice (by omega)).trans hdst, protocol,
    (hagree.byteAt (by omega)).trans hprotocol, frag, (hagree.u16At (by omega)).trans hfrag, new,
    ?_, id, (hagree.u16At (by omega)).trans hid, rfl⟩
  rw [hlength]
  exact slice_eq_ok.mpr ⟨⟨htotal, hagree.length.symm ▸ hcaptured⟩, hinside⟩

/-- The slices of two fields after their exchange. -/
theorem slice_exchange (h : i + 2 * n ≤ b.length) :
    slice (exchange b i n) i (i + n) = slice b (i + n) (i + n + n) ∧
      slice (exchange b i n) (i + n) (i + n + n) = slice b i (i + n) := by
  have hagree : Agree b (exchange b i n) i (i + 2 * n) := agree_exchange h
  obtain ⟨hfirst, hsecond⟩ := exchange_inside h
  unfold slice
  rw [hagree.length, if_pos ⟨by omega, by omega⟩, if_pos ⟨by omega, by omega⟩,
    if_pos ⟨by omega, by omega⟩, if_pos ⟨by omega, by omega⟩, hfirst, hsecond]
  exact ⟨rfl, rfl⟩

theorem parseIpv4_exchange {packet : Bytes} {header : Ipv4} (h : parseIpv4 packet = .ok header) :
    (exchange packet 12 4).length = packet.length ∧
      parseIpv4 (exchange packet 12 4) =
        .ok { header with src := header.dst, dst := header.src } := by
  simp only [parseIpv4, bind_eq_ok, ensure_eq_ok, pure, Except.pure, Except.ok.injEq] at h
  obtain ⟨-, hlen, first, hfirst, -, hversion, -, hihl, -, hoptions, totalLen, htotalLen, -, htotal,
    -, hcaptured, src, hsrc, dst, hdst, protocol, hprotocol, frag, hfrag, payload, hpayload, id,
    hid, rfl⟩ := h
  have hagree : Agree packet (exchange packet 12 4) 12 20 := agree_exchange (by omega)
  obtain ⟨hfields, hfields'⟩ := slice_exchange (b := packet) (i := 12) (n := 4) (by omega)
  refine ⟨hagree.length, ?_⟩
  simp only [parseIpv4, bind_eq_ok, ensure_eq_ok, pure, Except.pure, Except.ok.injEq,
    hagree.length]
  exact ⟨(), hlen, first, (hagree.byteAt (by omega)).trans hfirst, (), hversion, (), hihl, (),
    hoptions, totalLen, (hagree.u16At (by omega)).trans htotalLen, (), htotal, (), hcaptured, dst,
    hfields.trans hdst, src, hfields'.trans hsrc, protocol,
    (hagree.byteAt (by omega)).trans hprotocol, frag, (hagree.u16At (by omega)).trans hfrag,
    payload, (hagree.slice (by omega)).trans hpayload, id, (hagree.u16At (by omega)).trans hid,
    rfl⟩

theorem walkExtensions_spec {texts : ExtensionTexts} {packet : Bytes} {limit fuel : ℕ}
    {e e' : Extensions} (h : walkExtensions texts packet limit fuel e = .ok e') :
    e.offset ≤ e'.offset ∧ ∀ packet' i j, Agree packet packet' i j →
      e'.offset ≤ i ∨ j ≤ e.offset → walkExtensions texts packet' limit fuel e = .ok e' := by
  induction fuel generalizing e with
  | zero => cases h
  | succ fuel ih =>
      rw [walkExtensions] at h
      simp only [walkExtensions]
      split_ifs at h ⊢
      · simp only [bind_eq_ok, ensure_eq_ok] at h
        obtain ⟨-, hheader, next, hnext, len, hlen, -, hbody, h⟩ := h
        obtain ⟨hle, hall⟩ := ih h
        dsimp only at hle hall
        refine ⟨by omega, fun packet' i j hagree hplace ↦ ?_⟩
        simp only [bind_eq_ok, ensure_eq_ok]
        exact ⟨(), hheader, next, (hagree.byteAt (by omega)).trans hnext, len,
          (hagree.byteAt (by omega)).trans hlen, (), hbody, hall packet' i j hagree (by omega)⟩
      · simp only [bind_eq_ok, ensure_eq_ok] at h
        obtain ⟨-, hheader, next, hnext, len, hlen, -, hbody, h⟩ := h
        obtain ⟨hle, hall⟩ := ih h
        dsimp only at hle hall
        refine ⟨by omega, fun packet' i j hagree hplace ↦ ?_⟩
        simp only [bind_eq_ok, ensure_eq_ok]
        exact ⟨(), hheader, next, (hagree.byteAt (by omega)).trans hnext, len,
          (hagree.byteAt (by omega)).trans hlen, (), hbody, hall packet' i j hagree (by omega)⟩
      · obtain rfl := Except.ok.inj h
        exact ⟨le_rfl, fun _ _ _ _ _ ↦ rfl⟩

theorem parseIpv6_agree {packet packet' : Bytes} {header : Ipv6}
    (h : parseIpv6 packet = .ok header) (hagree : Agree packet packet' i j) (hi : 40 ≤ i) :
    parseIpv6 packet' = .ok header := by
  simp only [parseIpv6, bind_eq_ok, ensure_eq_ok, hagree.length] at h ⊢
  obtain ⟨-, hlen, first, hfirst, -, hversion, payloadLen, hpayloadLen, -, hcaptured, src, hsrc,
    dst, hdst, next, hnext, h⟩ := h
  exact ⟨(), hlen, first, (hagree.byteAt (by omega)).trans hfirst, (), hversion, payloadLen,
    (hagree.u16At (by omega)).trans hpayloadLen, (), hcaptured, src,
    (hagree.slice (by omega)).trans hsrc, dst, (hagree.slice (by omega)).trans hdst, next,
    (hagree.byteAt (by omega)).trans hnext, h⟩

theorem parseIpv6_exchange {packet : Bytes} {header : Ipv6} (h : parseIpv6 packet = .ok header) :
    Agree packet (exchange packet 8 16) 8 40 ∧
      parseIpv6 (exchange packet 8 16) =
        .ok { header with src := header.dst, dst := header.src } := by
  simp only [parseIpv6, bind_eq_ok, ensure_eq_ok, pure, Except.pure, Except.ok.injEq] at h
  obtain ⟨-, hlen, first, hfirst, -, hversion, payloadLen, hpayloadLen, -, hcaptured, src, hsrc,
    dst, hdst, next, hnext, rfl⟩ := h
  have hagree : Agree packet (exchange packet 8 16) 8 40 := agree_exchange (by omega)
  obtain ⟨hfields, hfields'⟩ := slice_exchange (b := packet) (i := 8) (n := 16) (by omega)
  refine ⟨hagree, ?_⟩
  simp only [parseIpv6, bind_eq_ok, ensure_eq_ok, pure, Except.pure, Except.ok.injEq,
    hagree.length]
  exact ⟨(), hlen, first, (hagree.byteAt (by omega)).trans hfirst, (), hversion, payloadLen,
    (hagree.u16At (by omega)).trans hpayloadLen, (), hcaptured, dst, hfields.trans hdst, src,
    hfields'.trans hsrc, next, (hagree.byteAt (by omega)).trans hnext, rfl⟩

theorem parseFragmentHeader_splice {packet : Bytes} {offset ipLen : ℕ} {header : FragmentHeader}
    (h : parseFragmentHeader packet offset ipLen = .ok header) {new : Bytes}
    (hnew : new.length = header.payload.length) :
    offset + 8 + new.length = ipLen ∧ ipLen ≤ packet.length ∧
      parseFragmentHeader (splice packet (offset + 8) new) offset ipLen =
        .ok { header with payload := new } := by
  simp only [parseFragmentHeader, bind_eq_ok, ensure_eq_ok, pure, Except.pure, Except.ok.injEq] at h
  obtain ⟨-, hheader, next, hnext, frag, hfrag, id, hid, payload, hpayload, rfl⟩ := h
  obtain ⟨⟨-, hlen⟩, rfl⟩ := slice_eq_ok.mp hpayload
  rw [List.length_drop, List.length_take] at hnew
  have hagree : Agree packet (splice packet (offset + 8) new) (offset + 8)
      (offset + 8 + new.length) := agree_splice (by omega)
  have hend : offset + 8 + new.length = ipLen := by omega
  have hinside := splice_inside (b := packet) (i := offset + 8) (w := new) (by omega)
  rw [hend] at hinside
  refine ⟨hend, hlen, ?_⟩
  simp only [parseFragmentHeader, bind_eq_ok, ensure_eq_ok, pure, Except.pure, Except.ok.injEq]
  exact ⟨(), hheader, next, (hagree.byteAt (by omega)).trans hnext, frag,
    (hagree.u16At (by omega)).trans hfrag, id, (hagree.u32At (by omega)).trans hid, new,
    slice_eq_ok.mpr ⟨⟨hheader, hagree.length.symm ▸ hlen⟩, hinside⟩, rfl⟩

theorem parseFragmentHeader_agree {packet packet' : Bytes} {offset ipLen : ℕ}
    {header : FragmentHeader} (h : parseFragmentHeader packet offset ipLen = .ok header)
    (hagree : Agree packet packet' i j) (hj : j ≤ offset) :
    parseFragmentHeader packet' offset ipLen = .ok header := by
  simp only [parseFragmentHeader, bind_eq_ok, ensure_eq_ok] at h ⊢
  obtain ⟨-, hheader, next, hnext, frag, hfrag, id, hid, payload, hpayload, h⟩ := h
  exact ⟨(), hheader, next, (hagree.byteAt (by omega)).trans hnext, frag,
    (hagree.u16At (by omega)).trans hfrag, id, (hagree.u32At (by omega)).trans hid, payload,
    (hagree.slice (by omega)).trans hpayload, h⟩

theorem skipRoutes_spec {gre : Bytes} {fuel offset finish : ℕ}
    (h : skipRoutes gre fuel offset = .ok finish) :
    offset ≤ finish ∧ ∀ gre' j, Agree gre gre' finish j →
      skipRoutes gre' fuel offset = .ok finish := by
  induction fuel generalizing offset with
  | zero => cases h
  | succ fuel ih =>
      rw [skipRoutes] at h
      simp only [bind_eq_ok, ensure_eq_ok] at h
      obtain ⟨-, hentry, af, haf, len, hlen, h⟩ := h
      have hreads : ∀ gre' j, offset + 4 ≤ finish → Agree gre gre' finish j →
          u16At gre' offset = .ok af ∧ byteAt gre' (offset + 3) = .ok len := fun gre' j hle hagree ↦
        ⟨(hagree.u16At (by omega)).trans haf, (hagree.byteAt (by omega)).trans hlen⟩
      by_cases hlast : af = 0 ∧ len.toNat = 0
      · rw [if_pos hlast] at h
        obtain rfl := Except.ok.inj h
        refine ⟨by omega, fun gre' j hagree ↦ ?_⟩
        obtain ⟨haf', hlen'⟩ := hreads gre' j le_rfl hagree
        rw [skipRoutes]
        simp only [bind_eq_ok, ensure_eq_ok, hagree.length]
        exact ⟨(), hentry, af, haf', len, hlen', by rw [if_pos hlast]; rfl⟩
      · rw [if_neg hlast] at h
        simp only [bind_eq_ok, ensure_eq_ok] at h
        obtain ⟨-, hdata, h⟩ := h
        obtain ⟨hle, hrest⟩ := ih h
        refine ⟨by omega, fun gre' j hagree ↦ ?_⟩
        obtain ⟨haf', hlen'⟩ := hreads gre' j (by omega) hagree
        rw [skipRoutes]
        simp only [bind_eq_ok, ensure_eq_ok, hagree.length]
        refine ⟨(), hentry, af, haf', len, hlen', ?_⟩
        rw [if_neg hlast]
        simp only [bind_eq_ok, ensure_eq_ok]
        exact ⟨(), hdata, hrest gre' j hagree⟩

theorem greRest_spec {gre : Bytes} {routed : Prop} [Decidable routed] {proto : UInt16}
    {key : UInt64} {offset : ℕ} {header : Gre}
    (h : greRest gre routed proto key offset = .ok (some header)) :
    ∃ finish, offset ≤ finish ∧ finish ≤ gre.length ∧
      header = { proto := proto, key, inner := gre.drop finish } ∧
      ∀ gre' j, Agree gre gre' finish j →
        greRest gre' routed proto key offset =
          .ok (some { proto := proto, key, inner := gre'.drop finish }) := by
  simp only [greRest, bind_eq_ok, ensure_eq_ok, slice_eq_ok, pure, Except.pure, Except.ok.injEq,
    Option.some.injEq] at h
  obtain ⟨finish, hroute, -, hfinish, rest, ⟨-, rfl⟩, rfl⟩ := h
  rw [List.take_length]
  have hskip : offset ≤ finish ∧ ∀ gre' j, Agree gre gre' finish j →
      (if routed then skipRoutes gre' (gre'.length + 1) offset else pure offset) = .ok finish := by
    split_ifs at hroute ⊢
    · obtain ⟨hle, hall⟩ := skipRoutes_spec hroute
      exact ⟨hle, fun gre' j hagree ↦ hagree.length.symm ▸ hall gre' j hagree⟩
    · exact ⟨(Except.ok.inj hroute).le, fun _ _ _ ↦ hroute⟩
  refine ⟨finish, hskip.1, hfinish, rfl, fun gre' j hagree ↦ ?_⟩
  simp only [greRest, bind_eq_ok, ensure_eq_ok, slice_eq_ok, pure, Except.pure, Except.ok.injEq,
    Option.some.injEq]
  refine ⟨finish, hskip.2 gre' j hagree, (), hagree.length.symm ▸ hfinish, gre'.drop finish,
    ⟨⟨hagree.length.symm ▸ hfinish, le_rfl⟩, ?_⟩, rfl⟩
  rw [List.take_length]

theorem greKey_spec {gre : Bytes} {keyed : Prop} [Decidable keyed] {offset : ℕ}
    {x : UInt64 × ℕ} (h : greKey gre keyed offset = .ok x) :
    offset ≤ x.2 ∧ x.2 ≤ offset + 4 ∧
      ∀ gre' i j, x.2 ≤ i → Agree gre gre' i j → greKey gre' keyed offset = .ok x := by
  unfold greKey at h ⊢
  split_ifs at h ⊢
  · simp only [bind_eq_ok, ensure_eq_ok, pure, Except.pure, Except.ok.injEq] at h
    obtain ⟨-, hlen, key, hkey, rfl⟩ := h
    refine ⟨by omega, le_rfl, fun gre' i j hle hagree ↦ ?_⟩
    simp only [bind_eq_ok, ensure_eq_ok, hagree.length]
    exact ⟨(), hlen, key, (hagree.u32At (by omega)).trans hkey, rfl⟩
  · obtain rfl := Except.ok.inj h
    exact ⟨le_rfl, Nat.le_add_right _ _, fun _ _ _ _ _ ↦ rfl⟩

theorem parseGre_splice {gre : Bytes} {header : Gre} (h : parseGre gre = .ok (some header))
    {new : Bytes} (hnew : new.length = header.inner.length) :
    (splice gre (gre.length - header.inner.length) new).length = gre.length ∧
      parseGre (splice gre (gre.length - header.inner.length) new) =
        .ok (some { header with inner := new }) := by
  rw [parseGre_eq] at h
  simp only [bind_eq_ok, ensure_eq_ok] at h
  obtain ⟨-, hlen, flags, hflags, h⟩ := h
  by_cases hversion : flags &&& 0x0007 ≠ 0
  · rw [if_pos hversion] at h
    cases h
  · rw [if_neg hversion] at h
    simp only [bind_eq_ok] at h
    obtain ⟨proto, hproto, x, hkey, h⟩ := h
    obtain ⟨hle, hshort, hkeys⟩ := greKey_spec hkey
    obtain ⟨finish, hoffset, hfinish, rfl, hrest⟩ := greRest_spec h
    have hstart : 4 ≤ x.2 := by
      refine le_trans ?_ hle
      split_ifs <;> decide
    have hword : x.2 ≤ u64Max := by
      refine hshort.trans ?_
      split_ifs <;> decide
    have hx : x.2 ≤ finish := by
      refine le_trans ?_ hoffset
      split_ifs
      · exact le_satAdd hword
      · exact le_rfl
    rw [List.length_drop] at hnew
    have hsplit : gre.length - (gre.drop finish).length = finish := by
      rw [List.length_drop]
      omega
    dsimp only
    rw [hsplit]
    have hagree : Agree gre (splice gre finish new) finish (finish + new.length) :=
      agree_splice (by omega)
    have hinside := splice_inside (b := gre) (w := new) hfinish
    rw [show finish + new.length = gre.length by omega, ← hagree.length, List.take_length]
      at hinside
    refine ⟨hagree.length, ?_⟩
    rw [parseGre_eq]
    simp only [bind_eq_ok, ensure_eq_ok, hagree.length]
    refine ⟨(), hlen, flags, (hagree.u16At (by omega)).trans hflags, ?_⟩
    rw [if_neg hversion]
    simp only [bind_eq_ok]
    refine ⟨proto, (hagree.u16At (by omega)).trans hproto, x, hkeys _ _ _ hx hagree, ?_⟩
    rw [hrest _ _ hagree, hinside]

/-- What a tunnel carries is turned around as well. -/
def InnerReflects (inner : Link → ℕ → Bytes → UInt64 → SharedFragmentCache → Decoded)
    (turned : Link → Bytes → Bytes) (whole : Link → Bytes → Bool) (depth : ℕ) : Prop :=
  depth < maxTunnelDepth → ∀ link wireLen bytes domain cache, whole link bytes = true →
    Reflects bytes (turned link bytes) (inner link wireLen bytes domain cache)
      (inner link wireLen (turned link bytes) domain cache)

variable {α : Type} {d : PacketDecoder} {depth : ℕ} {cache : SharedFragmentCache}
  {inner : Link → ℕ → Bytes → UInt64 → SharedFragmentCache → Decoded}
  {turned : Link → Bytes → Bytes} {whole : Link → Bytes → Bool}

/-- A packet comes from a header that was read. -/
theorem andThen_packet {x : Except DecodeError α} {f : α → Decoded} {p : ParsedPacket}
    (h : (andThen x cache f).1 = .ok (.packet p)) : ∃ a, x = .ok a ∧ (f a).1 = .ok (.packet p) := by
  cases x with
  | error e => cases h
  | ok a => exact ⟨a, rfl, h⟩

namespace PacketDecoder

/-- The packet of a UDP header that is not decoded any further. -/
def udpPacket (d : PacketDecoder) (wireLen : ℕ) (src dst : IpAddr) (header : Udp)
    (domain : UInt64) : ParsedPacket where
  tsNs := d.tsNs
  key := (FlowKey.canonicalWithDomain ⟨src, header.srcPort⟩ ⟨dst, header.dstPort⟩ .udp domain).1
  direction :=
    (FlowKey.canonicalWithDomain ⟨src, header.srcPort⟩ ⟨dst, header.dstPort⟩ .udp domain).2
  seq := none
  ack := none
  flags := {}
  payload := header.payload
  wireLen := wireLen

theorem plain_udpPacket {header : Udp} (h : Plain (d.udpPacket wireLen src dst header domain)) :
    ¬IsVxlanPort header.srcPort ∧ ¬IsVxlanPort header.dstPort := by
  have hprotocol : (d.udpPacket wireLen src dst header domain).key.protocol = .udp := by
    unfold udpPacket FlowKey.canonicalWithDomain
    split_ifs <;> rfl
  have hcanonical : FlowKey.canonicalWithDomain ⟨src, header.srcPort⟩ ⟨dst, header.dstPort⟩ .udp
      domain = ((d.udpPacket wireLen src dst header domain).key,
        (d.udpPacket wireLen src dst header domain).direction) := rfl
  obtain ⟨hsource, hdestination⟩ := endpoints_of_canonical hcanonical
  have hports := h hprotocol
  rwa [hsource, hdestination] at hports

/-- A tunnel, or the packet of the header. -/
theorem decodeUdp_cases {udp : Bytes} {header : Udp} (hheader : parseUdp udp = .ok header)
    {p : ParsedPacket}
    (hp : (d.decodeUdp inner depth wireLen src dst udp domain cache).1 = .ok (.packet p)) :
    (depth < maxTunnelDepth ∧ d.tunnelDecapsulation = true ∧ IsVxlanPort header.dstPort ∧
      ∃ v, parseVxlan header.payload = .ok (some v) ∧
        (inner .ethernet wireLen v.inner (mixTunnelDomain domain 0x56584c41 src dst v.vni)
          cache).1 = .ok (.packet p)) ∨
      p = d.udpPacket wireLen src dst header domain := by
  obtain ⟨header', hheader', hp⟩ := andThen_packet hp
  obtain rfl := Except.ok.inj (hheader.symm.trans hheader')
  dsimp only at hp
  by_cases htunnel : d.tunnelDecapsulation = true ∧ depth < maxTunnelDepth ∧
      IsVxlanPort header.dstPort
  · rw [if_pos htunnel] at hp
    obtain ⟨carried, hvxlan, hp⟩ := andThen_packet hp
    cases carried with
    | some v => exact .inl ⟨htunnel.2.1, htunnel.1, htunnel.2.2, v, hvxlan, hp⟩
    | none => exact .inr (InnerOutcome.packet.inj (Except.ok.inj hp)).symm
  · rw [if_neg htunnel] at hp
    exact .inr (InnerOutcome.packet.inj (Except.ok.inj hp)).symm

theorem reflects_decodeUdp (hinner : InnerReflects inner turned whole depth) {udp : Bytes}
    (hwhole : wholeIpPayload whole 17 udp = true) :
    Reflects udp (mirrorUdp turned udp)
      (d.decodeUdp inner depth wireLen src dst udp domain cache)
      (d.decodeUdp inner depth wireLen dst src (mirrorUdp turned udp) domain cache) := by
  intro p hp hplain
  obtain ⟨header, hheader, -⟩ := andThen_packet hp
  rcases decodeUdp_cases hheader hp with ⟨hdepth, hdecapsulate, hport, v, hvxlan, hp⟩ | rfl
  · have hcarried : whole .ethernet v.inner = true := by
      simpa [wholeIpPayload, hheader, hvxlan, hport] using hwhole
    obtain ⟨hlen, p', hp', hmirrored⟩ := hinner hdepth _ _ _ _ _ hcarried p hp hplain
    obtain ⟨hend, hvxlan'⟩ := parseVxlan_splice hvxlan hlen
    obtain ⟨hsame, hheader'⟩ := parseUdp_splice hheader hend
    have hturned : mirrorUdp turned udp = splice udp 16 (turned .ethernet v.inner) := by
      simp only [mirrorUdp, hheader, hvxlan, if_pos hport]
    rw [hturned]
    refine ⟨hsame, p', ?_, hmirrored⟩
    simp only [decodeUdp, hheader', andThen]
    rw [if_pos ⟨hdecapsulate, hdepth, hport⟩]
    simp only [hvxlan', mixTunnelDomain_comm]
    exact hp'
  · obtain ⟨hsource, hdestination⟩ := plain_udpPacket hplain
    obtain ⟨hsame, hheader'⟩ := parseUdp_exchange hheader
    have hturned : mirrorUdp turned udp = exchange udp 0 2 := by
      simp only [mirrorUdp, hheader, if_neg hdestination]
    rw [hturned]
    refine ⟨hsame, d.udpPacket wireLen dst src
      { header with srcPort := header.dstPort, dstPort := header.srcPort } domain, ?_,
      mirrored_of_canonical rfl rfl⟩
    simp only [decodeUdp, hheader', andThen]
    rw [if_neg fun htunnel ↦ hsource htunnel.2.2]
    rfl

theorem decodeGre_eq (hdepth : depth < maxTunnelDepth) {gre : Bytes} {header : Gre}
    (h : parseGre gre = .ok (some header)) {link : Link} (hlink : greLink header.proto = some link) :
    decodeGre inner depth wireLen src dst gre domain cache =
      inner link wireLen header.inner (mixTunnelDomain domain 0x47524520 src dst header.key)
        cache := by
  unfold decodeGre
  rw [if_neg (not_le.mpr hdepth), h]
  unfold greLink at hlink
  simp only [andThen]
  split_ifs at hlink ⊢
  all_goals
    obtain rfl := Option.some.inj hlink
    rfl

theorem reflects_decodeGre (hinner : InnerReflects inner turned whole depth)
    (hdepth : depth < maxTunnelDepth) {gre : Bytes}
    (hwhole : wholeIpPayload whole 47 gre = true) :
    Reflects gre (mirrorGre turned gre)
      (decodeGre inner depth wireLen src dst gre domain cache)
      (decodeGre inner depth wireLen dst src (mirrorGre turned gre) domain cache) := by
  intro p hp hplain
  have hparsed : ∃ header, parseGre gre = .ok (some header) ∧
      ∃ link, greLink header.proto = some link := by
    unfold decodeGre at hp
    rw [if_neg (not_le.mpr hdepth)] at hp
    obtain ⟨carried, hcarried, hp⟩ := andThen_packet hp
    cases carried with
    | none => cases hp
    | some header =>
        refine ⟨header, hcarried, ?_⟩
        unfold greLink
        dsimp only at hp
        split_ifs at hp ⊢
        · exact ⟨_, rfl⟩
        · exact ⟨_, rfl⟩
        · exact ⟨_, rfl⟩
        · cases hp
  obtain ⟨header, hheader, link, hlink⟩ := hparsed
  rw [decodeGre_eq hdepth hheader hlink] at hp
  have hcarried : whole link header.inner = true := by
    simpa [wholeIpPayload, hheader, hlink] using hwhole
  obtain ⟨hlen, p', hp', hmirrored⟩ := hinner hdepth _ _ _ _ _ hcarried p hp hplain
  obtain ⟨hsame, hheader'⟩ := parseGre_splice hheader hlen
  have hturned : mirrorGre turned gre =
      splice gre (gre.length - header.inner.length) (turned link header.inner) := by
    simp only [mirrorGre, hheader, hlink]
  rw [hturned]
  refine ⟨hsame, p', ?_, hmirrored⟩
  rw [decodeGre_eq hdepth hheader' hlink, mixTunnelDomain_comm]
  exact hp'

theorem reflects_decodeIpPayload (hinner : InnerReflects inner turned whole depth)
    {protocol : UInt8} {payload : Bytes} (hwhole : wholeIpPayload whole protocol payload = true) :
    Reflects payload (mirrorIpPayload turned protocol payload)
      (d.decodeIpPayload inner depth wireLen src dst protocol payload domain cache)
      (d.decodeIpPayload inner depth wireLen dst src protocol
        (mirrorIpPayload turned protocol payload) domain cache) := by
  unfold decodeIpPayload mirrorIpPayload
  by_cases htcp : protocol = 6
  · simp only [if_pos htcp]
    exact reflects_parseTcp payload cache
  · simp only [if_neg htcp]
    by_cases hudp : protocol = 17
    · simp only [if_pos hudp]
      exact reflects_decodeUdp hinner (hudp ▸ hwhole)
    · simp only [if_neg hudp]
      by_cases htunnel : d.tunnelDecapsulation = true ∧ depth < maxTunnelDepth
      · simp only [if_pos htunnel]
        by_cases hgre : protocol = 47
        · simp only [if_pos hgre]
          exact reflects_decodeGre hinner htunnel.2 (hgre ▸ hwhole)
        · simp only [if_neg hgre, mixTunnelDomain_comm _ _ src dst]
          unfold wholeIpPayload at hwhole
          rw [if_neg hudp, if_neg hgre] at hwhole
          by_cases hipv4 : protocol = 4
          · simp only [if_pos hipv4] at hwhole ⊢
            exact hinner htunnel.2 _ _ _ _ _ hwhole
          · simp only [if_neg hipv4] at hwhole ⊢
            by_cases hipv6 : protocol = 41
            · simp only [if_pos hipv6] at hwhole ⊢
              exact hinner htunnel.2 _ _ _ _ _ hwhole
            · simp only [if_neg hipv6]
              exact fun p hp _ ↦ nomatch hp
      · simp only [if_neg htunnel]
        exact fun p hp _ ↦ nomatch hp

theorem decodeIpv4_of_whole {packet : Bytes} {header : Ipv4} (h : parseIpv4 packet = .ok header)
    (hoffset : header.offset = 0) (hmore : header.more = false) :
    d.decodeIpv4 inner depth wireLen packet domain cache =
      d.decodeIpPayload inner depth wireLen header.src header.dst header.protocol header.payload
        domain cache := by
  unfold decodeIpv4
  rw [h]
  simp only [andThen]
  rw [if_neg (by simp [hoffset, hmore])]

theorem reflects_decodeIpv4 (hinner : InnerReflects inner turned whole depth) {packet : Bytes}
    (hwhole : wholeIpv4 whole packet = true) :
    Reflects packet (mirrorIpv4 turned packet)
      (d.decodeIpv4 inner depth wireLen packet domain cache)
      (d.decodeIpv4 inner depth wireLen (mirrorIpv4 turned packet) domain cache) := by
  intro p hp hplain
  obtain ⟨header, hheader, -⟩ := andThen_packet hp
  simp only [wholeIpv4, hheader, Bool.and_eq_true, decide_eq_true_eq, Bool.not_eq_true'] at hwhole
  obtain ⟨⟨hoffset, hmore⟩, hpayload⟩ := hwhole
  rw [decodeIpv4_of_whole hheader hoffset hmore] at hp
  obtain ⟨hlen, p', hp', hmirrored⟩ := reflects_decodeIpPayload hinner hpayload p hp hplain
  obtain ⟨hsame, hheader'⟩ := parseIpv4_splice hheader hlen
  obtain ⟨hsame', hheader''⟩ := parseIpv4_exchange hheader'
  have hturned : mirrorIpv4 turned packet = exchange (splice packet (headerLength packet)
      (mirrorIpPayload turned header.protocol header.payload)) 12 4 := by
    simp only [mirrorIpv4, hheader]
  rw [hturned]
  refine ⟨hsame'.trans hsame, p', ?_, hmirrored⟩
  rw [decodeIpv4_of_whole hheader'' hoffset hmore]
  exact hp'

theorem reflects_postFragment (hinner : InnerReflects inner turned whole depth) {next : UInt8}
    {payload : Bytes} (hwhole : wholePostFragment whole next payload = true) :
    Reflects payload (mirrorPostFragment turned next payload)
      (d.decodeIpv6PostFragment inner depth src dst next domain wireLen payload cache)
      (d.decodeIpv6PostFragment inner depth dst src next domain wireLen
        (mirrorPostFragment turned next payload) cache) := by
  intro p hp hplain
  obtain ⟨e, he, hp⟩ := andThen_packet hp
  by_cases hfragment : e.next = 44
  · rw [if_pos hfragment] at hp
    cases hp
  · rw [if_neg hfragment] at hp
    obtain ⟨rest, hrest, hp⟩ := andThen_packet hp
    obtain ⟨⟨hle, -⟩, rfl⟩ := slice_eq_ok.mp hrest
    rw [List.take_length] at hp
    simp only [wholePostFragment, he] at hwhole
    obtain ⟨hlen, p', hp', hmirrored⟩ := reflects_decodeIpPayload hinner hwhole p hp hplain
    rw [List.length_drop] at hlen
    obtain ⟨new, hnew⟩ : ∃ new, new = mirrorIpPayload turned e.next (payload.drop e.offset) :=
      ⟨_, rfl⟩
    rw [← hnew] at hlen hp'
    have hturned : mirrorPostFragment turned next payload = splice payload e.offset new := by
      simp only [mirrorPostFragment, he, hnew]
    have hagree : Agree payload (splice payload e.offset new) e.offset (e.offset + new.length) :=
      agree_splice (by omega)
    have he' := (walkExtensions_spec he).2 _ _ _ hagree (.inl le_rfl)
    have hinside := splice_inside (b := payload) (i := e.offset) (w := new) hle
    rw [show e.offset + new.length = payload.length by omega] at hinside
    rw [hturned]
    refine ⟨hagree.length, p', ?_, hmirrored⟩
    unfold decodeIpv6PostFragment
    rw [hagree.length, he']
    simp only [andThen]
    rw [if_neg hfragment, slice_eq_ok.mpr ⟨⟨hle, hagree.length.ge⟩, hinside⟩]
    exact hp'

/-- The headers of an edited packet: the payload is replaced, then the addresses are
exchanged. -/
theorem ipv6_edited {packet : Bytes} {header : Ipv6} {e : Extensions} {start : ℕ} {new : Bytes}
    (hheader : parseIpv6 packet = .ok header)
    (he : walkExtensions ipv6Texts packet header.ipLen (header.ipLen + 1) ⟨header.next, 40⟩ =
      .ok e)
    (hstart : e.offset ≤ start) (hend : start + new.length ≤ packet.length) :
    Agree (splice packet start new) (exchange (splice packet start new) 8 16) 8 40 ∧
      (exchange (splice packet start new) 8 16).length = packet.length ∧
      parseIpv6 (exchange (splice packet start new) 8 16) =
        .ok { header with src := header.dst, dst := header.src } ∧
      walkExtensions ipv6Texts (exchange (splice packet start new) 8 16) header.ipLen
        (header.ipLen + 1) ⟨header.next, 40⟩ = .ok e := by
  obtain ⟨hle, hwalk⟩ := walkExtensions_spec he
  dsimp only at hle hwalk
  have hagree : Agree packet (splice packet start new) start (start + new.length) :=
    agree_splice hend
  obtain ⟨hagree', hheader'⟩ := parseIpv6_exchange (parseIpv6_agree hheader hagree (by omega))
  have he' := hwalk _ _ _ hagree (.inl hstart)
  exact ⟨hagree', hagree'.length.trans hagree.length, hheader',
    (walkExtensions_spec he').2 _ _ _ hagree' (.inr le_rfl)⟩

theorem reflects_decodeIpv6 (hinner : InnerReflects inner turned whole depth) {packet : Bytes}
    (hwhole : wholeIpv6 whole packet = true) :
    Reflects packet (mirrorIpv6 turned packet)
      (d.decodeIpv6 inner depth wireLen packet domain cache)
      (d.decodeIpv6 inner depth wireLen (mirrorIpv6 turned packet) domain cache) := by
  intro p hp hplain
  obtain ⟨header, hheader, hp⟩ := andThen_packet hp
  obtain ⟨e, he, hp⟩ := andThen_packet hp
  have hle : 40 ≤ e.offset := (walkExtensions_spec he).1
  by_cases hfragment : e.next = 44
  · rw [if_pos hfragment] at hp
    obtain ⟨fragment, hparsed, hp⟩ := andThen_packet hp
    simp only [wholeIpv6, hheader, he, if_pos hfragment, hparsed, Bool.and_eq_true,
      decide_eq_true_eq, Bool.not_eq_true'] at hwhole
    obtain ⟨hatomic, hpayload⟩ := hwhole
    simp only [if_pos hatomic] at hp
    obtain ⟨hlen, p', hp', hmirrored⟩ := reflects_postFragment hinner hpayload p hp hplain
    obtain ⟨hend, hcaptured, hparsed'⟩ := parseFragmentHeader_splice hparsed hlen
    have hturned : mirrorIpv6 turned packet = exchange (splice packet (e.offset + 8)
        (mirrorPostFragment turned fragment.next fragment.payload)) 8 16 := by
      simp only [mirrorIpv6, hheader, he, if_pos hfragment, hparsed]
    obtain ⟨hagree, hsame, hheader', he'⟩ :=
      ipv6_edited hheader he (Nat.le_add_right e.offset 8) (hend.trans_le hcaptured)
    rw [hturned]
    refine ⟨hsame, p', ?_, hmirrored⟩
    unfold decodeIpv6
    rw [hheader']
    simp only [andThen]
    rw [he']
    simp only [if_pos hfragment]
    rw [parseFragmentHeader_agree hparsed' hagree hle]
    simp only [if_pos hatomic]
    exact hp'
  · rw [if_neg hfragment] at hp
    by_cases hbeyond : header.ipLen < e.offset
    · rw [if_pos hbeyond] at hp
      cases hp
    · rw [if_neg hbeyond] at hp
      obtain ⟨payload, hslice, hp⟩ := andThen_packet hp
      obtain ⟨⟨hstart, hcaptured⟩, rfl⟩ := slice_eq_ok.mp hslice
      simp only [wholeIpv6, hheader, he, if_neg hfragment] at hwhole
      obtain ⟨hlen, p', hp', hmirrored⟩ := reflects_decodeIpPayload hinner hwhole p hp hplain
      obtain ⟨new, hnew⟩ : ∃ new, new =
          mirrorIpPayload turned e.next ((packet.take header.ipLen).drop e.offset) := ⟨_, rfl⟩
      rw [← hnew, List.length_drop, List.length_take] at hlen
      rw [← hnew] at hp'
      have hturned : mirrorIpv6 turned packet = exchange (splice packet e.offset new) 8 16 := by
        simp only [mirrorIpv6, hheader, he, if_neg hfragment, hnew]
      have hend : e.offset + new.length = header.ipLen := by omega
      obtain ⟨hagree, hsame, hheader', he'⟩ :=
        ipv6_edited hheader he le_rfl (hend.trans_le hcaptured)
      have hinside := splice_inside (b := packet) (i := e.offset) (w := new)
        (hstart.trans hcaptured)
      rw [hend] at hinside
      have hslice' : slice (exchange (splice packet e.offset new) 8 16) e.offset header.ipLen =
          .ok new := by
        rw [hagree.slice (.inr hle)]
        refine slice_eq_ok.mpr ⟨⟨hstart, ?_⟩, hinside⟩
        rw [length_splice (hend.trans_le hcaptured)]
        exact hcaptured
      rw [hturned]
      refine ⟨hsame, p', ?_, hmirrored⟩
      unfold decodeIpv6
      rw [hheader']
      simp only [andThen]
      rw [he']
      simp only [if_neg hfragment, if_neg hbeyond]
      rw [hslice']
      exact hp'

/-- What follows the tags is replaced. -/
theorem reflects_l3 {frame : Bytes} {header : Ethernet}
    (hheader : parseEthernet frame domain = .ok header) {new : Bytes} {p : ParsedPacket}
    {f : Bytes → Decoded}
    (hnew : Reflects (frame.drop header.l3Offset) new (f (frame.drop header.l3Offset)) (f new))
    (hp : (f (frame.drop header.l3Offset)).1 = .ok (.packet p)) (hplain : Plain p) :
    (splice frame header.l3Offset new).length = frame.length ∧
      parseEthernet (splice frame header.l3Offset new) domain = .ok header ∧
      slice (splice frame header.l3Offset new) header.l3Offset
        (splice frame header.l3Offset new).length = .ok new ∧
      ∃ p', (f new).1 = .ok (.packet p') ∧ Mirrored p p' := by
  obtain ⟨hlen, hreflected⟩ := hnew p hp hplain
  have hle := parseEthernet_offset_le hheader
  rw [List.length_drop] at hlen
  have hagree : Agree frame (splice frame header.l3Offset new) header.l3Offset
      (header.l3Offset + new.length) := agree_splice (by omega)
  have hinside := splice_inside (b := frame) (w := new) hle
  rw [show header.l3Offset + new.length = frame.length by omega] at hinside
  refine ⟨hagree.length, (parseEthernet_spec hheader).1 _ _ hagree, ?_, hreflected⟩
  rw [hagree.length]
  exact slice_eq_ok.mpr ⟨⟨hle, hagree.length.ge⟩, hinside⟩

theorem reflects_decodeEthernetBytes (hinner : InnerReflects inner turned whole depth)
    {frame : Bytes} (hwhole : wholeEthernet whole frame = true) :
    Reflects frame (mirrorEthernet turned frame)
      (d.decodeEthernetBytes inner depth wireLen frame domain cache)
      (d.decodeEthernetBytes inner depth wireLen (mirrorEthernet turned frame) domain cache) := by
  intro p hp hplain
  unfold decodeEthernetBytes at hp ⊢
  split_ifs at hp ⊢ with hdepth
  · cases hp
  · obtain ⟨header, hheader, hp⟩ := andThen_packet hp
    obtain ⟨l3, hslice, hp⟩ := andThen_packet hp
    obtain ⟨-, rfl⟩ := slice_eq_ok.mp hslice
    rw [List.take_length] at hp
    obtain ⟨-, domain', hzero⟩ := parseEthernet_spec hheader
    simp only [wholeEthernet, hzero] at hwhole
    by_cases hipv4 : header.etherType = etherTypeIpv4
    · rw [if_pos hipv4] at hp hwhole
      have hturned : mirrorEthernet turned frame = splice frame header.l3Offset
          (mirrorIpv4 turned (frame.drop header.l3Offset)) := by
        simp only [mirrorEthernet, hzero, if_pos hipv4]
      obtain ⟨hsame, hheader', hslice', p', hp', hmirrored⟩ := reflects_l3 hheader
        (f := fun l3 ↦ d.decodeIpv4 inner depth wireLen l3 header.domain cache)
        (reflects_decodeIpv4 hinner hwhole) hp hplain
      rw [hturned]
      refine ⟨hsame, p', ?_, hmirrored⟩
      rw [hheader']
      simp only [andThen]
      rw [hslice']
      simp only [if_pos hipv4]
      exact hp'
    · rw [if_neg hipv4] at hp hwhole
      by_cases hipv6 : header.etherType = etherTypeIpv6
      · rw [if_pos hipv6] at hp hwhole
        have hturned : mirrorEthernet turned frame = splice frame header.l3Offset
            (mirrorIpv6 turned (frame.drop header.l3Offset)) := by
          simp only [mirrorEthernet, hzero, if_neg hipv4, if_pos hipv6]
        obtain ⟨hsame, hheader', hslice', p', hp', hmirrored⟩ := reflects_l3 hheader
          (f := fun l3 ↦ d.decodeIpv6 inner depth wireLen l3 header.domain cache)
          (reflects_decodeIpv6 hinner hwhole) hp hplain
        rw [hturned]
        refine ⟨hsame, p', ?_, hmirrored⟩
        rw [hheader']
        simp only [andThen]
        rw [hslice']
        simp only [if_neg hipv4, if_pos hipv6]
        exact hp'
      · rw [if_neg hipv6] at hp
        cases hp

theorem innerReflects_decodeLink (d : PacketDecoder) (fuel depth : ℕ) (link : Link)
    (wireLen : ℕ) (bytes : Bytes) (domain : UInt64) (cache : SharedFragmentCache)
    (hwhole : wholeLink fuel link bytes = true) :
    Reflects bytes (mirrorLink fuel link bytes)
      (d.decodeLink fuel depth link wireLen bytes domain cache)
      (d.decodeLink fuel depth link wireLen (mirrorLink fuel link bytes) domain cache) := by
  induction fuel generalizing depth link wireLen bytes domain cache with
  | zero => exact fun p hp _ ↦ nomatch hp
  | succ fuel ih =>
      have hinner : InnerReflects (d.decodeLink fuel (depth + 1)) (mirrorLink fuel)
          (wholeLink fuel) depth :=
        fun _ link wireLen bytes domain cache ↦ ih (depth + 1) link wireLen bytes domain cache
      cases link with
      | ethernet => exact reflects_decodeEthernetBytes hinner hwhole
      | ipv4 => exact reflects_decodeIpv4 hinner hwhole
      | ipv6 => exact reflects_decodeIpv6 hinner hwhole

end PacketDecoder

end Reflection

section Directions

open PacketDecoder

theorem decode_mirror (d : PacketDecoder) (wireLen : ℕ) (frame : Bytes)
    (cache : SharedFragmentCache) (p : ParsedPacket) (hwhole : unfragmented frame = true)
    (hp : (d.decode wireLen frame cache).1 = .ok (.packet p))
    (hplain : p.key.protocol = .udp →
      ¬IsVxlanPort p.sourceEndpoint.port ∧ ¬IsVxlanPort p.destinationEndpoint.port) :
    ∃ p', (d.decode wireLen (mirror frame) cache).1 = .ok (.packet p') ∧ p'.key = p.key ∧
      (∀ seed n, Flow.shardOf seed n p'.key = Flow.shardOf seed n p.key) ∧
      (p.sourceEndpoint ≠ p.destinationEndpoint → p'.direction = p.direction.opposite ∧
        p'.sourceEndpoint = p.destinationEndpoint ∧
        p'.destinationEndpoint = p.sourceEndpoint) := by
  obtain ⟨-, p', hp', hmirrored⟩ :=
    innerReflects_decodeLink d _ _ _ wireLen frame 0 cache hwhole p hp hplain
  refine ⟨p', hp', hmirrored.key, fun seed n ↦ by rw [hmirrored.key], fun hne ↦ ?_⟩
  exact ⟨hmirrored.direction hne, hmirrored.source, hmirrored.destination⟩

/-- A segment in a VXLAN tunnel in a VLAN. -/
def tunneledFrame : Bytes :=
  List.replicate 12 0 ++ [0x81, 0x00, 0, 7, 0x08, 0x00] ++
    [0x45, 0, 0, 91, 0, 0, 0, 0, 64, 17, 0, 0, 192, 168, 0, 1, 192, 168, 0, 2] ++
    [0xc0, 0, 0x12, 0xb5, 0, 71, 0, 0] ++ [0x08, 0, 0, 0, 0, 0, 42, 0] ++
    List.replicate 12 0 ++ [0x08, 0x00] ++
    [0x45, 0, 0, 41, 0, 0, 0, 0, 64, 6, 0, 0, 10, 0, 0, 9, 10, 0, 0, 2] ++
    [0x04, 0xd2, 0, 80, 0, 0, 0, 1, 0, 0, 0, 0, 0x50, 0x18, 0, 0, 0, 0, 0, 0, 65]

example : mirror tunneledFrame =
    List.replicate 12 0 ++ [0x81, 0x00, 0, 7, 0x08, 0x00] ++
      [0x45, 0, 0, 91, 0, 0, 0, 0, 64, 17, 0, 0, 192, 168, 0, 2, 192, 168, 0, 1] ++
      [0xc0, 0, 0x12, 0xb5, 0, 71, 0, 0] ++ [0x08, 0, 0, 0, 0, 0, 42, 0] ++
      List.replicate 12 0 ++ [0x08, 0x00] ++
      [0x45, 0, 0, 41, 0, 0, 0, 0, 64, 6, 0, 0, 10, 0, 0, 2, 10, 0, 0, 9] ++
      [0, 80, 0x04, 0xd2, 0, 0, 0, 1, 0, 0, 0, 0, 0x50, 0x18, 0, 0, 0, 0, 0, 0, 65] := by
  decide +kernel

def tunneledPacket : ParsedPacket where
  tsNs := 1
  key := ⟨⟨.v4 0x0a000002, 80⟩, ⟨.v4 0x0a000009, 1234⟩, .tcp, 3103006541436943041⟩
  direction := .bToA
  seq := some 1
  ack := some 0
  flags := { psh := true, ack := true }
  payload := [65]
  wireLen := 109

theorem decode_mirror_tunneledFrame :
    ∃ p', (decode ⟨true, 1, 1⟩ 109 (mirror tunneledFrame)
        (.new (fun _ ↦ 0) 67108864 4096 30000000000 fun _ ↦ 0)).1 = .ok (.packet p') ∧
      p'.key = tunneledPacket.key ∧ p'.direction = .aToB := by
  have hp : (decode ⟨true, 1, 1⟩ 109 tunneledFrame
      (.new (fun _ ↦ 0) 67108864 4096 30000000000 fun _ ↦ 0)).1 =
        .ok (.packet tunneledPacket) := by
    rfl
  obtain ⟨p', hp', hkey, -, hother⟩ := decode_mirror ⟨true, 1, 1⟩ 109 tunneledFrame
    (.new (fun _ ↦ 0) 67108864 4096 30000000000 fun _ ↦ 0) tunneledPacket (by decide +kernel) hp
    (by decide)
  exact ⟨p', hp', hkey, (hother (by decide)).1⟩

end Directions

end Bazalt.Capture
