import Bazalt.Capture.Decoder
import Bazalt.Topology.Throttle

/-!
# The source that the XDP program sees

The program finds the IPv4 header of a frame on its own.  It skips two VLAN tags, of two
EtherTypes; the packet decoder skips four, of four EtherTypes.  Behind other tags the program finds
no source at all.
-/

namespace Bazalt.Topology

open Capture

section Bytes

variable {frame : Bytes} {i : ℕ}

theorem toNat_ofBytes (high low : UInt8) :
    (high.toUInt16 <<< 8 ||| low.toUInt16).toNat = high.toNat * 256 + low.toNat := by
  have hhigh := high.toNat_lt
  have hlow := low.toNat_lt
  rw [UInt16.toNat_or, UInt16.toNat_shiftLeft, UInt8.toNat_toUInt16, UInt8.toNat_toUInt16]
  have height : (8 : UInt16).toNat % 16 = 8 := by decide
  have hshift : high.toNat <<< 8 % 2 ^ 16 = high.toNat <<< 8 := by
    rw [Nat.shiftLeft_eq]
    exact Nat.mod_eq_of_lt (by omega)
  rw [height, hshift, ← Nat.shiftLeft_add_eq_or_of_lt (by omega), Nat.shiftLeft_eq]

theorem getD_of_byteAt {x : UInt8} (h : byteAt frame i = .ok x) : frame.getD i 0 = x := by
  rw [List.getD_eq_getElem?_getD, byteAt_eq_ok.mp h]
  rfl

theorem readBe16_of_u16At {x : UInt16} (h : u16At frame i = .ok x) : readBe16 frame i = x.toNat := by
  obtain ⟨high, hhigh, low, hlow, rfl⟩ := u16At_eq_ok.mp h
  rw [readBe16, getD_of_byteAt hhigh, getD_of_byteAt hlow, toNat_ofBytes]

/-- Four bytes as an address. -/
theorem ofBe_slice {packet bytes : Bytes} (h : slice packet i (i + 4) = .ok bytes) :
    ofBe bytes = readBe16 packet i * 2 ^ 16 + readBe16 packet (i + 2) := by
  obtain ⟨⟨-, hle⟩, rfl⟩ := slice_eq_ok.mp h
  have hfour : (packet.take (i + 4)).drop i =
      [packet.getD i 0, packet.getD (i + 1) 0, packet.getD (i + 2) 0, packet.getD (i + 3) 0] := by
    apply List.ext_getElem
    · simp only [List.length_drop, List.length_take, List.length_cons, List.length_nil]
      omega
    · intro j hj hj'
      rw [List.getElem_drop, List.getElem_take]
      simp only [List.length_cons, List.length_nil] at hj'
      interval_cases j <;> simp only [List.getElem_cons_zero, List.getElem_cons_succ] <;>
        exact (List.getD_eq_getElem _ _ _).symm
  rw [hfour]
  simp only [ofBe, List.foldl_cons, List.foldl_nil, readBe16]
  ring

theorem readBe16_drop (packet : Bytes) (k i : ℕ) :
    readBe16 (packet.drop k) i = readBe16 packet (k + i) := by
  simp only [readBe16, List.getD_eq_getElem?_getD, List.getElem?_drop, Nat.add_assoc]

end Bytes

/-! ## VLAN tags -/

/-- The EtherTypes of the tags that the decoder skips in its rounds. -/
def vlanTags (frame : Bytes) : ℕ → UInt16 → ℕ → List UInt16
  | 0, _, _ => []
  | rounds + 1, etherType, offset =>
      if IsVlanTag etherType then
        etherType :: vlanTags frame rounds (UInt16.ofNat (readBe16 frame (offset + 2))) (offset + 4)
      else []

/-- The tags of a frame. -/
def frameTags (frame : Bytes) : List UInt16 := vlanTags frame 4 (UInt16.ofNat (readBe16 frame 12)) 14

/-- The tags that the program skips as well. -/
def XdpSkips (n : ℕ) (tags : List UInt16) : Prop :=
  tags.length ≤ n ∧ ∀ tag ∈ tags, isVlan tag.toNat = true

def skipVlanTimes (frame : Bytes) : ℕ → ℕ × ℕ → Option (ℕ × ℕ)
  | 0, s => some s
  | n + 1, s => (skipVlan frame s.1 s.2).bind (skipVlanTimes frame n)

theorem skipVlanTimes_of_not {frame : Bytes} {proto offset : ℕ} (h : isVlan proto = false) (n : ℕ) :
    skipVlanTimes frame n (proto, offset) = some (proto, offset) := by
  have hone : skipVlan frame proto offset = some (proto, offset) := by
    rw [skipVlan, h]
    rfl
  induction n with
  | zero => rfl
  | succ n ih =>
      rw [skipVlanTimes, hone]
      exact ih

theorem not_isVlan {etherType : UInt16} (h : ¬ IsVlanTag etherType) :
    isVlan etherType.toNat = false := by
  rw [← Bool.not_eq_true]
  intro hvlan
  rcases Bool.or_eq_true_iff.mp hvlan with hproto | hproto
  · exact h (.inl (UInt16.toNat_inj.mp (beq_iff_eq.mp hproto)))
  · exact h (.inr (.inl (UInt16.toNat_inj.mp (beq_iff_eq.mp hproto))))

theorem xdpSkips_of_not {frame : Bytes} {rounds offset : ℕ} {etherType : UInt16}
    (h : ¬ IsVlanTag etherType) (n : ℕ) : XdpSkips n (vlanTags frame rounds etherType offset) := by
  have hnil : vlanTags frame rounds etherType offset = [] := by
    cases rounds with
    | zero => rfl
    | succ rounds => exact if_neg h
  rw [hnil]
  exact ⟨Nat.zero_le n, by simp⟩

/-- The program gets behind the tags with the decoder, or stays in front of one. -/
theorem skipVlanTimes_of_skipVlans {frame : Bytes} {rounds : ℕ} {e e' : Ethernet} (n : ℕ)
    (h : skipVlans frame rounds e = .ok e') (hend : ¬ IsVlanTag e'.etherType) :
    (XdpSkips n (vlanTags frame rounds e.etherType e.l3Offset) →
      skipVlanTimes frame n (e.etherType.toNat, e.l3Offset) =
        some (e'.etherType.toNat, e'.l3Offset)) ∧
    (¬ XdpSkips n (vlanTags frame rounds e.etherType e.l3Offset) →
      ∃ (tag : UInt16) (offset : ℕ), IsVlanTag tag ∧
        skipVlanTimes frame n (e.etherType.toNat, e.l3Offset) = some (tag.toNat, offset)) := by
  induction rounds generalizing e n with
  | zero =>
      obtain rfl := Except.ok.inj h
      exact ⟨fun _ ↦ skipVlanTimes_of_not (not_isVlan hend) n,
        fun hno ↦ absurd (xdpSkips_of_not hend n) hno⟩
  | succ rounds ih =>
      rw [skipVlans] at h
      by_cases htag : IsVlanTag e.etherType
      · rw [if_pos htag] at h
        simp only [bind_eq_ok, ensure_eq_ok] at h
        obtain ⟨-, hlen, tci, -, etherType, hnext, h⟩ := h
        rw [vlanTags, if_pos htag, readBe16_of_u16At hnext, UInt16.ofNat_toNat]
        cases n with
        | zero =>
            refine ⟨fun hskips ↦ absurd hskips.1 (by simp), fun _ ↦ ?_⟩
            exact ⟨e.etherType, e.l3Offset, htag, rfl⟩
        | succ n =>
            cases hvlan : isVlan e.etherType.toNat with
            | false =>
                refine ⟨fun hskips ↦ ?_, fun _ ↦ ?_⟩
                · have hall := hskips.2 e.etherType List.mem_cons_self
                  rw [hvlan] at hall
                  cases hall
                · exact ⟨e.etherType, e.l3Offset, htag, skipVlanTimes_of_not hvlan (n + 1)⟩
            | true =>
                have hone : skipVlan frame e.etherType.toNat e.l3Offset =
                    some (etherType.toNat, e.l3Offset + 4) := by
                  rw [skipVlan, if_pos hvlan, if_neg (not_lt.mpr hlen), readBe16_of_u16At hnext]
                have hcons : XdpSkips (n + 1) (e.etherType ::
                      vlanTags frame rounds etherType (e.l3Offset + 4)) ↔
                    XdpSkips n (vlanTags frame rounds etherType (e.l3Offset + 4)) := by
                  simp [XdpSkips, hvlan]
                rw [hcons, skipVlanTimes, hone]
                exact ih n h
      · rw [if_neg htag] at h
        obtain rfl := Except.ok.inj h
        exact ⟨fun _ ↦ skipVlanTimes_of_not (not_isVlan hend) n,
          fun hno ↦ absurd (xdpSkips_of_not hend n) hno⟩

/-! ## The source -/

section Source

variable {frame : Bytes} {proto offset : ℕ}

theorem sourceAddr_of_other (h : skipVlanTimes frame 2 (readBe16 frame 12, 14) = some (proto, offset))
    (hproto : proto ≠ 0x0800) : sourceAddr frame = none := by
  obtain ⟨first, hfirst, h⟩ := Option.bind_eq_some_iff.mp h
  obtain ⟨second, hsecond, h⟩ := Option.bind_eq_some_iff.mp h
  obtain rfl := Option.some.inj h
  unfold sourceAddr
  by_cases hlen : 14 ≤ frame.length
  · simp [guard, hlen, hfirst, hsecond, hproto]
  · simp [guard, hlen]

theorem sourceAddr_of_ipv4 (h : skipVlanTimes frame 2 (readBe16 frame 12, 14) = some (0x0800, offset))
    (hframe : 14 ≤ frame.length) (hlen : offset + 20 ≤ frame.length)
    (hversion : (frame.getD offset 0).toNat / 16 = 4)
    (hihl : 5 ≤ (frame.getD offset 0).toNat % 16) : sourceAddr frame =
      some (BitVec.ofNat 32
        (readBe16 frame (offset + 12) * 2 ^ 16 + readBe16 frame (offset + 14))) := by
  obtain ⟨first, hfirst, h⟩ := Option.bind_eq_some_iff.mp h
  obtain ⟨second, hsecond, h⟩ := Option.bind_eq_some_iff.mp h
  obtain rfl := Option.some.inj h
  rw [List.getD_eq_getElem?_getD] at hversion hihl
  unfold sourceAddr
  simp [guard, hframe, hlen, hfirst, hsecond, hversion, hihl]

/-- What the program looks at in a header that the decoder accepts. -/
theorem parseIpv4_source {packet : Bytes} {h : Ipv4} (hp : parseIpv4 packet = .ok h) :
    20 ≤ packet.length ∧ (packet.getD 0 0).toNat / 16 = 4 ∧ 5 ≤ (packet.getD 0 0).toNat % 16 ∧
      h.src = .v4 (BitVec.ofNat 32 (readBe16 packet 12 * 2 ^ 16 + readBe16 packet 14)) := by
  simp only [parseIpv4, bind_eq_ok, ensure_eq_ok, pure, Except.pure, Except.ok.injEq] at hp
  obtain ⟨-, hlen, first, hfirst, -, hversion, -, hihl, -, -, totalLen, -, -, -, -, -, src, hsrc,
    dst, -, protocol, -, frag, -, payload, -, id, -, rfl⟩ := hp
  rw [getD_of_byteAt hfirst, ← ofBe_slice hsrc]
  refine ⟨hlen, ?_, ?_, rfl⟩
  · have hnat := congrArg UInt8.toNat hversion
    rw [UInt8.toNat_shiftRight, Nat.shiftRight_eq_div_pow] at hnat
    exact hnat
  · have hmask : first.toNat &&& 15 = first.toNat % 16 := Nat.and_two_pow_sub_one_eq_mod _ 4
    rw [UInt8.toNat_and] at hihl
    change 20 ≤ (first.toNat &&& 15) * 4 at hihl
    omega

end Source

/-! ## Packets -/

/-- The content of a packet is not looked at for another packet. -/
def Untunnelled (d : PacketDecoder) (h : Ipv4) : Prop :=
  d.tunnelDecapsulation = true → h.protocol ≠ 4 ∧ h.protocol ≠ 41 ∧ h.protocol ≠ 47 ∧
    (h.protocol = 17 → ∀ udp, parseUdp h.payload = .ok udp → IsVxlanPort udp.dstPort →
      parseVxlan udp.payload = .ok none)

/-- An IPv4 frame that is neither a fragment nor a tunnel. -/
structure PlainIpv4 (d : PacketDecoder) (frame : Bytes) (e : Ethernet) (h : Ipv4) : Prop where
  ethernet : parseEthernet frame 0 = .ok e
  etherType : e.etherType = etherTypeIpv4
  header : parseIpv4 (frame.drop e.l3Offset) = .ok h
  offset : h.offset = 0
  more : h.more = false
  untunnelled : Untunnelled d h

theorem parseTcp_source {tsNs wireLen : ℕ} {src dst : IpAddr} {tcp : Bytes} {l2Domain : UInt64}
    {p : ParsedPacket} (hp : parseTcp tsNs wireLen src dst tcp l2Domain = .ok p) :
    p.sourceEndpoint.ip = src := by
  simp only [parseTcp, bind_eq_ok, pure, Except.pure, Except.ok.injEq] at hp
  obtain ⟨-, -, srcPort, -, dstPort, -, seq, -, ack, -, first, -, -, -, -, -, bits, -,
    payload, -, hpacket⟩ := hp
  have hkey : FlowKey.canonicalWithDomain ⟨src, srcPort⟩ ⟨dst, dstPort⟩ .tcp l2Domain =
      (p.key, p.direction) := by rw [← hpacket]
  rw [(endpoints_of_canonical hkey).1]

section Payload

variable {d : PacketDecoder} {inner : Link → ℕ → Bytes → UInt64 → SharedFragmentCache → Decoded}
  {wireLen : ℕ} {h : Ipv4} {domain : UInt64} {cache : SharedFragmentCache} {p : ParsedPacket}

theorem decodeUdp_source (huntunnelled : Untunnelled d h) (hudp : h.protocol = 17)
    (hp : (d.decodeUdp inner 0 wireLen h.src h.dst h.payload domain cache).1 = .ok (.packet p)) :
    p.sourceEndpoint.ip = h.src := by
  unfold PacketDecoder.decodeUdp andThen at hp
  cases hparse : parseUdp h.payload with
  | error error => simp [hparse] at hp
  | ok udp =>
      -- the packet of a datagram that is taken as it is
      have hplain : ∀ {key direction}, FlowKey.canonicalWithDomain ⟨h.src, udp.srcPort⟩
          ⟨h.dst, udp.dstPort⟩ .udp domain = (key, direction) →
          ({ tsNs := d.tsNs, key := key, direction := direction, seq := none, ack := none, flags := {},
             payload := udp.payload, wireLen := wireLen } : ParsedPacket) = p →
            p.sourceEndpoint.ip = h.src := by
        rintro key direction hkey rfl
        rw [(endpoints_of_canonical hkey).1]
      simp only [hparse] at hp
      split_ifs at hp with htunnel
      · have hvxlan := (huntunnelled htunnel.1).2.2.2 hudp udp hparse htunnel.2.2
        simp only [hvxlan] at hp
        exact hplain rfl (InnerOutcome.packet.inj (Except.ok.inj hp))
      · exact hplain rfl (InnerOutcome.packet.inj (Except.ok.inj hp))

theorem decodeIpPayload_source (huntunnelled : Untunnelled d h)
    (hp : (d.decodeIpPayload inner 0 wireLen h.src h.dst h.protocol h.payload domain cache).1 =
      .ok (.packet p)) : p.sourceEndpoint.ip = h.src := by
  unfold PacketDecoder.decodeIpPayload at hp
  split_ifs at hp with htcp hudp htunnel hgre hipip hsixin4
  · cases hparse : parseTcp d.tsNs wireLen h.src h.dst h.payload domain with
    | error error => simp [hparse, Except.map] at hp
    | ok packet =>
        simp only [hparse, Except.map, Except.ok.injEq, InnerOutcome.packet.injEq] at hp
        exact hp ▸ parseTcp_source hparse
  · exact decodeUdp_source huntunnelled hudp hp
  · exact absurd hgre (huntunnelled htunnel.1).2.2.1
  · exact absurd hipip (huntunnelled htunnel.1).1
  · exact absurd hsixin4 (huntunnelled htunnel.1).2.1
  · cases Except.ok.inj hp
  · cases Except.ok.inj hp

/-- The source of the packet is the source of its IPv4 header. -/
theorem decode_source {frame : Bytes} {e : Ethernet} (hplain : PlainIpv4 d frame e h)
    (hp : (d.decode wireLen frame cache).1 = .ok (.packet p)) : p.sourceEndpoint.ip = h.src := by
  unfold PacketDecoder.decode PacketDecoder.decodeLink PacketDecoder.decodeEthernetBytes
    andThen at hp
  dsimp only at hp
  rw [if_neg (by decide)] at hp
  simp only [hplain.ethernet] at hp
  cases hslice : slice frame e.l3Offset frame.length with
  | error error => simp [hslice] at hp
  | ok l3 =>
      have hl3 : l3 = frame.drop e.l3Offset := by
        obtain ⟨-, heq⟩ := slice_eq_ok.mp hslice
        rw [← heq, List.take_length]
      subst hl3
      simp only [hslice, hplain.etherType, if_true] at hp
      unfold PacketDecoder.decodeIpv4 andThen at hp
      simp only [hplain.header] at hp
      rw [if_neg (by simp [hplain.offset, hplain.more])] at hp
      exact decodeIpPayload_source hplain.untunnelled hp

end Payload

/-- The program looks the source of the packet up exactly behind at most two tags of the EtherTypes
that it knows.  Behind others it lets the frame pass. -/
theorem sourceAddr_eq_iff (d : PacketDecoder) (wireLen : ℕ) (frame : Bytes)
    (cache : SharedFragmentCache) (e : Ethernet) (h : Ipv4) (p : ParsedPacket)
    (hplain : PlainIpv4 d frame e h) (hp : (d.decode wireLen frame cache).1 = .ok (.packet p)) :
    ((∃ addr, p.sourceEndpoint.ip = .v4 addr ∧ sourceAddr frame = some addr) ↔
      XdpSkips 2 (frameTags frame)) ∧
    (¬ XdpSkips 2 (frameTags frame) → ∀ trie now sample,
      bazaltThrottle trie now sample frame = (.pass, trie)) := by
  have hethernet := hplain.ethernet
  simp only [parseEthernet, bind_eq_ok, ensure_eq_ok] at hethernet
  obtain ⟨-, hframe, etherType, hfirst, hvlans⟩ := hethernet
  have hend : ¬ IsVlanTag e.etherType := by
    rw [hplain.etherType]
    decide
  obtain ⟨hskips, hstays⟩ := skipVlanTimes_of_skipVlans 2 hvlans hend
  dsimp only at hskips hstays
  have htags : vlanTags frame 4 etherType 14 = frameTags frame := by
    rw [frameTags, readBe16_of_u16At hfirst, UInt16.ofNat_toNat]
  rw [htags, ← readBe16_of_u16At hfirst] at hskips hstays
  have hnone : ¬ XdpSkips 2 (frameTags frame) → sourceAddr frame = none := by
    intro hno
    obtain ⟨tag, offset, htag, hskip⟩ := hstays hno
    apply sourceAddr_of_other hskip
    intro hproto
    have heq : tag = etherTypeIpv4 := UInt16.toNat_inj.mp hproto
    rw [heq] at htag
    exact absurd htag (by decide)
  refine ⟨⟨fun hsome ↦ ?_, fun hyes ↦ ?_⟩, fun hno trie now sample ↦ ?_⟩
  · obtain ⟨_, _, haddr⟩ := hsome
    by_contra hno
    rw [hnone hno] at haddr
    cases haddr
  · obtain ⟨hlen, hversion, hihl, hsrc⟩ := parseIpv4_source hplain.header
    have hskip := hskips hyes
    rw [hplain.etherType] at hskip
    rw [List.length_drop] at hlen
    have hzero : (frame.drop e.l3Offset).getD 0 0 = frame.getD e.l3Offset 0 := by
      simp [List.getD_eq_getElem?_getD]
    rw [hzero] at hversion hihl
    rw [readBe16_drop, readBe16_drop] at hsrc
    exact ⟨_, (decode_source hplain hp).trans hsrc,
      sourceAddr_of_ipv4 hskip hframe (by omega) hversion hihl⟩
  · rw [bazaltThrottle, hnone hno]
    rfl

def vlanTag (etherType : UInt16) : Bytes := [(etherType >>> 8).toUInt8, etherType.toUInt8, 0, 100]

/-- A TCP segment from 10.0.0.7 behind tags of these EtherTypes. -/
def taggedFrame (tags : List UInt16) : Bytes :=
  List.replicate 12 0 ++ tags.flatMap vlanTag ++ [0x08, 0x00] ++
    [0x45, 0, 0, 40, 0, 0, 0, 0, 64, 6, 0, 0, 10, 0, 0, 7, 10, 0, 0, 1] ++
    [0x9c, 0x40, 0, 80, 0, 0, 0, 1, 0, 0, 0, 0, 0x50, 0x02, 0, 0, 0, 0, 0, 0]

def liveDecoder : PacketDecoder := ⟨true, 1, 1⟩

def emptyCache : SharedFragmentCache := .new (fun _ ↦ 0) 67108864 4096 30000000000 fun _ ↦ 0

/-- Everything from 10.0.0.7 is dropped. -/
def dropAll : Rules ThrottleValue :=
  (Rules.set (fun _ ↦ none)) ⟨0x0a000007, 32⟩ (some { rule := ⟨100, 0⟩ })

theorem plainIpv4_taggedFrame (tags : List UInt16) (e : Ethernet)
    (hethernet : parseEthernet (taggedFrame tags) 0 = .ok e) (hetherType : e.etherType = etherTypeIpv4)
    (h : Ipv4) (hheader : parseIpv4 ((taggedFrame tags).drop e.l3Offset) = .ok h)
    (hoffset : h.offset = 0) (hmore : h.more = false) (htcp : h.protocol = 6) :
    PlainIpv4 liveDecoder (taggedFrame tags) e h := by
  refine ⟨hethernet, hetherType, hheader, hoffset, hmore, fun _ ↦ ?_⟩
  rw [htcp]
  exact ⟨by decide, by decide, by decide, fun hudp ↦ absurd hudp (by decide)⟩

/-- QinQ with the EtherTypes of the standards. -/
theorem sourceAddr_eq_iff_qinq :
    sourceAddr (taggedFrame [0x88a8, 0x8100]) = some 0x0a000007 ∧
      ∃ p, (liveDecoder.decode 62 (taggedFrame [0x88a8, 0x8100]) emptyCache).1 = .ok (.packet p) ∧
        ((∃ addr, p.sourceEndpoint.ip = .v4 addr ∧
            sourceAddr (taggedFrame [0x88a8, 0x8100]) = some addr) ↔
          XdpSkips 2 (frameTags (taggedFrame [0x88a8, 0x8100]))) :=
  ⟨by decide +kernel, _, rfl, (sourceAddr_eq_iff liveDecoder 62 (taggedFrame [0x88a8, 0x8100])
    emptyCache _ _ _ (plainIpv4_taggedFrame [0x88a8, 0x8100] _ rfl rfl _ rfl rfl rfl rfl) rfl).1⟩

/-- Behind a tag of EtherType 0x9100 nothing of the source is dropped. -/
theorem not_sourceAddr_eq_oldTag :
    ∃ e h p, PlainIpv4 liveDecoder (taggedFrame [0x9100]) e h ∧
      (liveDecoder.decode 58 (taggedFrame [0x9100]) emptyCache).1 = .ok (.packet p) ∧
        p.sourceEndpoint.ip = .v4 0x0a000007 ∧ sourceAddr (taggedFrame [0x9100]) = none ∧
          (bazaltThrottle dropAll 1 0 (taggedFrame [0x9100])).1 = .pass ∧
            (bazaltThrottle dropAll 1 0 (taggedFrame [])).1 = .drop := by
  refine ⟨_, _, _, plainIpv4_taggedFrame [0x9100] _ rfl rfl _ rfl rfl rfl rfl, rfl, ?_, ?_, ?_, ?_⟩
  · decide +kernel
  · decide +kernel
  · decide +kernel
  · decide +kernel

end Bazalt.Topology
