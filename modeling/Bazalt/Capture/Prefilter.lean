import Bazalt.Capture.Decoder
import Bazalt.Services.Registry

/-!
# The service prefilter

Before a frame is decoded, a cheap look at its IPv4 header and its ports may reject it.
What is rejected would not have been shown after decoding either, but for two rules of the
prefilter's own: without services it rejects every frame, fragments as well, and it admits
local egress by its source port alone.
-/

namespace Bazalt.Services.ServiceMap

def isEmpty (m : ServiceMap) : Bool :=
  (List.range 65536).all fun n ↦ (m (UInt16.ofNat n)).isNone

theorem isEmpty_iff {m : ServiceMap} : m.isEmpty = true ↔ ∀ port, m.containsKey port = false := by
  simp only [isEmpty, List.all_eq_true, List.mem_range, containsKey, Option.isNone_iff_eq_none,
    Option.isSome_eq_false_iff]
  constructor
  · intro h port
    have hport := h port.toNat port.toNat_lt
    rwa [UInt16.ofNat_toNat] at hport
  · exact fun h n _ ↦ h (UInt16.ofNat n)

theorem isEmpty_eq_false {m : ServiceMap} {port : UInt16} (h : m.containsKey port = true) :
    m.isEmpty = false := by
  rw [← Bool.not_eq_true, isEmpty_iff]
  exact fun hall ↦ by simp [hall port] at h

end Bazalt.Services.ServiceMap

namespace Bazalt.Capture

open Services

inductive CaptureMode where
  | afXdp
  | pcapLive
  | pcapFile
  | disabled
  deriving DecidableEq, Repr

structure ServicePacketScope where
  destination : Bool
  flow : Bool
  deriving DecidableEq, Repr

def packetScope (services : ServiceMap) (packet : ParsedPacket) : ServicePacketScope :=
  let destination := services.containsKey packet.destinationEndpoint.port
  let source := services.containsKey packet.sourceEndpoint.port
  { destination := destination, flow := destination || source }

def serviceFlowVisible (scope : ServicePacketScope) (mode : CaptureMode) (localEgress : Bool) :
    Bool :=
  match mode with
  | .pcapLive => if localEgress then scope.flow else scope.destination
  | .afXdp => scope.destination
  | .pcapFile => scope.flow
  | .disabled => false

/-- The direction that the capture loop gives to the prefilter. -/
def frameDirection (mode : CaptureMode) (localEgress : Bool) : Option Bool :=
  match mode with
  | .pcapLive => some localEgress
  | .afXdp => some false
  | .pcapFile => none
  | .disabled => none

/-- The prefilter's own loop over VLAN tags; it gives up on a truncated one. -/
def skipTags (frame : Bytes) : ℕ → UInt16 → ℕ → Except DecodeError (Option (UInt16 × ℕ))
  | 0, etherType, offset => .ok (some (etherType, offset))
  | rounds + 1, etherType, offset =>
      if IsVlanTag etherType then
        if frame.length < offset + 4 then .ok none
        else do
          let etherType ← u16At frame (offset + 2)
          skipTags frame rounds etherType (offset + 4)
      else .ok (some (etherType, offset))

def serviceMatch (services : ServiceMap) (localEgress : Option Bool) (srcPort dstPort : UInt16) :
    Bool :=
  match localEgress with
  | some true => services.containsKey srcPort
  | some false => services.containsKey dstPort
  | none => services.containsKey srcPort || services.containsKey dstPort

/-- The last decision, by the protocol and the ports at `l4`. -/
def transportMayBelong (frame : Bytes) (services : ServiceMap) (tunnelDecapsulation : Bool)
    (localEgress : Option Bool) (protocol : UInt8) (l4 : ℕ) : Except DecodeError Bool :=
  if protocol = 6 ∨ protocol = 17 then
    if frame.length < l4 + 4 then .ok true
    else do
      let srcPort ← u16At frame l4
      let dstPort ← u16At frame (l4 + 2)
      if serviceMatch services localEgress srcPort dstPort then return true
      else return tunnelDecapsulation && decide (protocol = 17) && decide (IsVxlanPort dstPort)
  else if protocol = 47 ∨ protocol = 4 ∨ protocol = 41 then .ok tunnelDecapsulation
  else .ok false

def ipv4MayBelong (frame : Bytes) (services : ServiceMap) (tunnelDecapsulation : Bool)
    (localEgress : Option Bool) (offset : ℕ) : Except DecodeError Bool :=
  if frame.length < offset + 20 then .ok true
  else do
    let first ← byteAt frame offset
    if first >>> 4 ≠ 4 then return true
    else
      let ihl := (first &&& 0x0f).toNat * 4
      if ihl < 20 ∨ frame.length < offset + ihl then return true
      else
        let frag ← u16At frame (offset + 6)
        if frag &&& 0x3fff ≠ 0 then return true
        else
          let protocol ← byteAt frame (offset + 9)
          transportMayBelong frame services tunnelDecapsulation localEgress protocol (offset + ihl)

def frameMayBelongToService (frame : Bytes) (services : ServiceMap) (tunnelDecapsulation : Bool)
    (localEgress : Option Bool) : Except DecodeError Bool :=
  if services.isEmpty then .ok false
  else if frame.length < 14 then .ok true
  else do
    let etherType ← u16At frame 12
    match ← skipTags frame 4 etherType 14 with
    | none => return true
    | some (etherType, offset) =>
        if etherType ≠ 0x0800 then return true
        else ipv4MayBelong frame services tunnelDecapsulation localEgress offset

/-- What the transport header of a rejected frame says. -/
structure TransportRejected (frame : Bytes) (services : ServiceMap) (tunnelDecapsulation : Bool)
    (localEgress : Option Bool) (protocol : UInt8) (l4 : ℕ) : Prop where
  ports : protocol = 6 ∨ protocol = 17 → ∃ srcPort dstPort, u16At frame l4 = .ok srcPort ∧
    u16At frame (l4 + 2) = .ok dstPort ∧
    serviceMatch services localEgress srcPort dstPort = false ∧
    ¬(tunnelDecapsulation = true ∧ protocol = 17 ∧ IsVxlanPort dstPort)
  tunnel : protocol = 47 ∨ protocol = 4 ∨ protocol = 41 → tunnelDecapsulation = false

theorem transportRejected {frame : Bytes} {services : ServiceMap} {tunnelDecapsulation : Bool}
    {localEgress : Option Bool} {protocol : UInt8} {l4 : ℕ}
    (h : transportMayBelong frame services tunnelDecapsulation localEgress protocol l4 =
      .ok false) :
    TransportRejected frame services tunnelDecapsulation localEgress protocol l4 := by
  unfold transportMayBelong at h
  split_ifs at h with hports hshort htunnel
  · cases h
  · simp only [bind_eq_ok] at h
    obtain ⟨srcPort, hsrc, dstPort, hdst, h⟩ := h
    split_ifs at h with hmatch
    · simp [pure, Except.pure] at h
    · refine ⟨fun _ ↦ ⟨srcPort, dstPort, hsrc, hdst, by simpa using hmatch, ?_⟩, ?_⟩
      · rintro ⟨hdecap, hudp, hvxlan⟩
        simp [pure, Except.pure, hdecap, hudp, hvxlan] at h
      · rcases hports with rfl | rfl <;> simp
  · exact ⟨fun hp ↦ absurd hp hports, fun _ ↦ Except.ok.inj h⟩
  · exact ⟨fun hp ↦ absurd hp hports, fun hp ↦ absurd hp htunnel⟩

/-- What the prefilter has read of an IPv4 frame that it rejects. -/
structure Ipv4Rejected (frame : Bytes) (services : ServiceMap) (tunnelDecapsulation : Bool)
    (localEgress : Option Bool) (offset : ℕ) : Prop where
  frag : ∃ frag, u16At frame (offset + 6) = .ok frag ∧ frag &&& 0x3fff = 0
  transport : ∃ first protocol, byteAt frame offset = .ok first ∧
    byteAt frame (offset + 9) = .ok protocol ∧
    TransportRejected frame services tunnelDecapsulation localEgress protocol
      (offset + (first &&& 0x0f).toNat * 4)

theorem ipv4Rejected {frame : Bytes} {services : ServiceMap} {tunnelDecapsulation : Bool}
    {localEgress : Option Bool} {offset : ℕ}
    (h : ipv4MayBelong frame services tunnelDecapsulation localEgress offset = .ok false) :
    Ipv4Rejected frame services tunnelDecapsulation localEgress offset := by
  unfold ipv4MayBelong at h
  split_ifs at h with hshort
  · cases h
  obtain ⟨first, hfirst, h⟩ := bind_eq_ok.mp h
  dsimp only at h
  split_ifs at h with hversion hihl
  · simp [pure, Except.pure] at h
  · simp [pure, Except.pure] at h
  obtain ⟨frag, hfrag, h⟩ := bind_eq_ok.mp h
  split_ifs at h with hfragment
  · simp [pure, Except.pure] at h
  obtain ⟨protocol, hprotocol, h⟩ := bind_eq_ok.mp h
  exact ⟨⟨frag, hfrag, not_not.mp hfragment⟩, first, protocol, hfirst, hprotocol,
    transportRejected h⟩

theorem frameRejected {frame : Bytes} {services : ServiceMap} {tunnelDecapsulation : Bool}
    {localEgress : Option Bool} (hservices : services.isEmpty = false)
    (h : frameMayBelongToService frame services tunnelDecapsulation localEgress = .ok false) :
    ∃ etherType offset, u16At frame 12 = .ok etherType ∧
      skipTags frame 4 etherType 14 = .ok (some (0x0800, offset)) ∧
      Ipv4Rejected frame services tunnelDecapsulation localEgress offset := by
  unfold frameMayBelongToService at h
  rw [if_neg (by simp [hservices])] at h
  split_ifs at h with hshort
  · cases h
  obtain ⟨etherType, hetherType, h⟩ := bind_eq_ok.mp h
  obtain ⟨skipped, hskip, h⟩ := bind_eq_ok.mp h
  cases skipped with
  | none => simp [pure, Except.pure] at h
  | some p =>
      obtain ⟨inner, offset⟩ := p
      simp only at h
      split_ifs at h with hipv4
      · simp [pure, Except.pure] at h
      · rw [not_not.mp hipv4] at hskip
        exact ⟨etherType, offset, hetherType, hskip, ipv4Rejected h⟩

/-- Both loops over VLAN tags end at the same place. -/
theorem skipVlans_of_skipTags {frame : Bytes} {rounds : ℕ} {e : Ethernet} {etherType : UInt16}
    {offset : ℕ}
    (h : skipTags frame rounds e.etherType e.l3Offset = .ok (some (etherType, offset)))
    (he : e.l3Offset ≤ frame.length) :
    ∃ domain, skipVlans frame rounds e = .ok ⟨etherType, offset, domain⟩ ∧
      offset ≤ frame.length := by
  induction rounds generalizing e with
  | zero =>
      simp only [skipTags, Except.ok.injEq, Option.some.injEq, Prod.mk.injEq] at h
      obtain ⟨rfl, rfl⟩ := h
      exact ⟨e.domain, rfl, he⟩
  | succ rounds ih =>
      unfold skipTags at h
      split_ifs at h with htag hshort
      · cases h
      · obtain ⟨inner, hinner, h⟩ := bind_eq_ok.mp h
        have hlen : e.l3Offset + 4 ≤ frame.length := by omega
        have htci : ∃ tci, u16At frame e.l3Offset = .ok tci := by
          refine ⟨_, u16At_eq_ok.mpr ⟨frame[e.l3Offset], ?_, frame[e.l3Offset + 1], ?_, rfl⟩⟩
          · exact byteAt_eq_ok.mpr (List.getElem?_eq_getElem _)
          · exact byteAt_eq_ok.mpr (List.getElem?_eq_getElem _)
        obtain ⟨tci, htci⟩ := htci
        obtain ⟨domain, hskip, hoffset⟩ := ih (e := ⟨inner, e.l3Offset + 4,
          mixDomain e.domain 0x564c414e (tci &&& 0x0fff).toUInt64⟩) h hlen
        refine ⟨domain, ?_, hoffset⟩
        rw [skipVlans, if_pos htag]
        exact bind_eq_ok.mpr ⟨(), ensure_eq_ok.mpr hlen, bind_eq_ok.mpr ⟨tci, htci,
          bind_eq_ok.mpr ⟨inner, hinner, hskip⟩⟩⟩
      · simp only [Except.ok.injEq, Option.some.injEq, Prod.mk.injEq] at h
        obtain ⟨rfl, rfl⟩ := h
        exact ⟨e.domain, by rw [skipVlans, if_neg htag], he⟩

/-- What is left to show of the result of a rejected frame: the cache is as before, nothing
is pending, and a packet has ports that do not match. -/
structure Unseen (services : ServiceMap) (localEgress : Option Bool) (cache : SharedFragmentCache)
    (r : Decoded) : Prop where
  cache : r.2 = cache
  not_pending : r.1 ≠ .ok .pendingFragment
  ports : ∀ packet, r.1 = .ok (.packet packet) → serviceMatch services localEgress
    packet.sourceEndpoint.port packet.destinationEndpoint.port = false

theorem Unseen.error {services : ServiceMap} {localEgress : Option Bool}
    {cache : SharedFragmentCache} (e : DecodeError) :
    Unseen services localEgress cache (.error e, cache) :=
  ⟨rfl, by simp, by simp⟩

theorem Unseen.ignored {services : ServiceMap} {localEgress : Option Bool}
    {cache : SharedFragmentCache} : Unseen services localEgress cache (.ok .ignored, cache) :=
  ⟨rfl, by simp, by simp⟩

theorem Unseen.andThen {services : ServiceMap} {localEgress : Option Bool}
    {cache : SharedFragmentCache} {α : Type} {r : Except DecodeError α} {f : α → Decoded}
    (h : ∀ a, r = .ok a → Unseen services localEgress cache (f a)) :
    Unseen services localEgress cache (andThen r cache f) := by
  cases r with
  | error e => exact .error e
  | ok a => exact h a rfl

section Decoding

variable {services : ServiceMap} {localEgress : Option Bool} {d : PacketDecoder}
  {inner : Link → ℕ → Bytes → UInt64 → SharedFragmentCache → Decoded} {depth : ℕ}
  {frame : Bytes} {cache : SharedFragmentCache}

/-- A payload of the frame from `l4` on, and a header that the prefilter has rejected. -/
theorem unseen_decodeIpPayload {protocol : UInt8} {l4 wireLen : ℕ} {src dst : IpAddr}
    {payload : Bytes} {l2Domain : UInt64}
    (hrejected : TransportRejected frame services d.tunnelDecapsulation localEgress protocol l4)
    (hpayload : ∀ k x, u16At payload k = .ok x → u16At frame (l4 + k) = .ok x) :
    Unseen services localEgress cache
      (d.decodeIpPayload inner depth wireLen src dst protocol payload l2Domain cache) := by
  unfold PacketDecoder.decodeIpPayload
  split_ifs with htcp hudp htunnel hgre hipip hsix
  · obtain ⟨srcPort, dstPort, hsrc, hdst, hmatch, -⟩ := hrejected.ports (.inl htcp)
    refine ⟨rfl, ?_, ?_⟩
    · cases parseTcp d.tsNs wireLen src dst payload l2Domain <;> simp [Except.map]
    · intro packet hpacket
      cases hparse : parseTcp d.tsNs wireLen src dst payload l2Domain with
      | error e => simp [hparse, Except.map] at hpacket
      | ok p =>
          obtain rfl : p = packet := by simpa [hparse, Except.map] using hpacket
          obtain ⟨hs, hd⟩ := parseTcp_ports hparse
          have hs' := (hpayload 0 _ hs).symm.trans hsrc
          have hd' := (hpayload 2 _ hd).symm.trans hdst
          rwa [Except.ok.inj hs', Except.ok.inj hd']
  · obtain ⟨srcPort, dstPort, hsrc, hdst, hmatch, hvxlan⟩ := hrejected.ports (.inr hudp)
    refine .andThen fun header hheader ↦ ?_
    obtain ⟨hs, hd⟩ := parseUdp_ports hheader
    have hs' := Except.ok.inj ((hpayload 0 _ hs).symm.trans hsrc)
    have hd' := Except.ok.inj ((hpayload 2 _ hd).symm.trans hdst)
    dsimp only
    rw [if_neg (fun h ↦ hvxlan ⟨h.1, hudp, hd' ▸ h.2.2⟩)]
    refine ⟨rfl, by simp, fun packet hpacket ↦ ?_⟩
    have hkey : FlowKey.canonicalWithDomain ⟨src, header.srcPort⟩ ⟨dst, header.dstPort⟩ .udp
        l2Domain = (packet.key, packet.direction) := by
      simp only [Except.ok.injEq, InnerOutcome.packet.injEq] at hpacket
      rw [← hpacket]
    obtain ⟨hsource, hdestination⟩ := endpoints_of_canonical hkey
    rwa [hsource, hdestination, hs', hd']
  · exact absurd (hrejected.tunnel (.inl hgre)) (by simp [htunnel.1])
  · exact absurd (hrejected.tunnel (.inr (.inl hipip))) (by simp [htunnel.1])
  · exact absurd (hrejected.tunnel (.inr (.inr hsix))) (by simp [htunnel.1])
  · exact .ignored
  · exact .ignored

theorem not_fragment_of_masked {header : Ipv4} (h : header.frag &&& 0x3fff = 0) :
    ¬(header.offset ≠ 0 ∨ header.more = true) := by
  have hoffset : header.frag &&& 0x1fff = 0 := by
    rw [show (0x1fff : UInt16) = 0x3fff &&& 0x1fff from rfl, ← UInt16.and_assoc, h]
    rfl
  have hmore : header.frag &&& 0x2000 = 0 := by
    rw [show (0x2000 : UInt16) = 0x3fff &&& 0x2000 from rfl, ← UInt16.and_assoc, h]
    rfl
  simp [Ipv4.offset, Ipv4.more, hoffset, hmore]

theorem unseen_decodeIpv4 {offset wireLen : ℕ} {domain : UInt64}
    (hrejected : Ipv4Rejected frame services d.tunnelDecapsulation localEgress offset) :
    Unseen services localEgress cache
      (d.decodeIpv4 inner depth wireLen (frame.drop offset) domain cache) := by
  obtain ⟨⟨frag, hfrag, hmask⟩, first, protocol, hfirst, hprotocol, htransport⟩ := hrejected
  refine .andThen fun header hheader ↦ ?_
  obtain ⟨hprotocol', hfrag', first', totalLen, hfirst', hpayload⟩ := parseIpv4_readFrom hheader
  rw [byteAt_drop, hprotocol] at hprotocol'
  rw [u16At_drop, hfrag] at hfrag'
  rw [byteAt_drop, Nat.add_zero, hfirst] at hfirst'
  obtain rfl := Except.ok.inj hfirst'
  dsimp only
  rw [if_neg (not_fragment_of_masked (Except.ok.inj hfrag' ▸ hmask)),
    ← Except.ok.inj hprotocol']
  refine unseen_decodeIpPayload htransport fun k x hx ↦ ?_
  have hread := u16At_of_u16At_slice hpayload hx
  rwa [u16At_drop, ← Nat.add_assoc] at hread

theorem unseen_decode (hservices : services.isEmpty = false) {wireLen : ℕ}
    (h : frameMayBelongToService frame services d.tunnelDecapsulation localEgress = .ok false) :
    Unseen services localEgress cache (d.decode wireLen frame cache) := by
  obtain ⟨etherType, offset, hetherType, hskip, hrejected⟩ := frameRejected hservices h
  show Unseen _ _ _ (d.decodeEthernetBytes _ 0 wireLen frame 0 cache)
  unfold PacketDecoder.decodeEthernetBytes
  rw [if_neg (by decide)]
  refine .andThen fun header hheader ↦ .andThen fun l3 hl3 ↦ ?_
  simp only [parseEthernet, bind_eq_ok, ensure_eq_ok, hetherType, Except.ok.injEq] at hheader
  obtain ⟨-, hlen, read, hread, hvlans⟩ := hheader
  rw [← hread] at hvlans
  obtain ⟨domain, hskipped, -⟩ := skipVlans_of_skipTags (e := ⟨etherType, 14, 0⟩) hskip hlen
  obtain rfl := Except.ok.inj (hskipped.symm.trans hvlans)
  obtain ⟨-, rfl⟩ := slice_eq_ok.mp hl3
  have hipv4 : (0x0800 : UInt16) = etherTypeIpv4 := rfl
  dsimp only
  rw [if_pos hipv4, List.take_length]
  exact unseen_decodeIpv4 hrejected

end Decoding

/-- A packet whose ports do not match is visible only as local egress to a service. -/
theorem of_serviceFlowVisible {services : ServiceMap} {mode : CaptureMode} {localEgress : Bool}
    {packet : ParsedPacket}
    (hmatch : serviceMatch services (frameDirection mode localEgress) packet.sourceEndpoint.port
      packet.destinationEndpoint.port = false)
    (hvisible : serviceFlowVisible (packetScope services packet) mode localEgress = true) :
    mode = .pcapLive ∧ localEgress = true ∧
      services.containsKey packet.sourceEndpoint.port = false ∧
      services.containsKey packet.destinationEndpoint.port = true := by
  cases mode with
  | afXdp => simp_all [serviceMatch, frameDirection, serviceFlowVisible, packetScope]
  | pcapLive =>
      cases localEgress <;>
        simp_all [serviceMatch, frameDirection, serviceFlowVisible, packetScope]
  | pcapFile => simp_all [serviceMatch, frameDirection, serviceFlowVisible, packetScope]
  | disabled => simp [serviceFlowVisible] at hvisible

theorem not_serviceFlowVisible_of_isEmpty {services : ServiceMap} (h : services.isEmpty = true)
    (packet : ParsedPacket) (mode : CaptureMode) (localEgress : Bool) :
    serviceFlowVisible (packetScope services packet) mode localEgress = false := by
  have habsent := ServiceMap.isEmpty_iff.mp h
  cases mode <;> simp [serviceFlowVisible, packetScope, habsent]

/-- A frame that the prefilter rejects leaves nothing behind when there are services, and
decodes to no visible packet other than local egress from another port to a service. -/
theorem prefilter_sound (services : ServiceMap) (d : PacketDecoder) (mode : CaptureMode)
    (localEgress : Bool) (wireLen : ℕ) (frame : Bytes) (cache : SharedFragmentCache)
    (h : frameMayBelongToService frame services d.tunnelDecapsulation
      (frameDirection mode localEgress) = .ok false) :
    (services.isEmpty = false → (d.decode wireLen frame cache).2 = cache ∧
      (d.decode wireLen frame cache).1 ≠ .ok .pendingFragment) ∧
    ∀ packet, (d.decode wireLen frame cache).1 = .ok (.packet packet) →
      serviceFlowVisible (packetScope services packet) mode localEgress = true →
      mode = .pcapLive ∧ localEgress = true ∧
        services.containsKey packet.sourceEndpoint.port = false ∧
        services.containsKey packet.destinationEndpoint.port = true := by
  cases hservices : services.isEmpty with
  | true =>
      refine ⟨by simp, fun packet _ hvisible ↦ ?_⟩
      rw [not_serviceFlowVisible_of_isEmpty hservices] at hvisible
      cases hvisible
  | false =>
      have hunseen : Unseen services _ cache (d.decode wireLen frame cache) :=
        unseen_decode hservices h
      exact ⟨fun _ ↦ ⟨hunseen.cache, hunseen.not_pending⟩, fun packet hpacket hvisible ↦
        of_serviceFlowVisible (hunseen.ports packet hpacket) hvisible⟩

/-- The frame of a TCP segment without data from 192.168.0.2 to 192.168.0.10. -/
def ipv4Tcp (srcPort dstPort frag : UInt16) : Bytes :=
  let be (x : UInt16) : Bytes := [(x >>> 8).toUInt8, x.toUInt8]
  List.replicate 12 0 ++ be 0x0800 ++ [0x45, 0] ++ be 40 ++ [0, 0] ++ be frag ++
    [64, 6, 0, 0, 192, 168, 0, 2, 192, 168, 0, 10] ++ be srcPort ++ be dstPort ++
    List.replicate 8 0 ++ [0x50] ++ List.replicate 7 0

def webServices : ServiceMap := ServiceMap.ofList [{ port := 8080, name := "svc-8080" }]

def noFragments : SharedFragmentCache where
  shardOf _ := 0
  shards _ := .new 65536 64 1000000000 0

def frameDecoder : PacketDecoder := { tunnelDecapsulation := true, tsNs := 1, now := 0 }

theorem webServices_not_empty : webServices.isEmpty = false :=
  @ServiceMap.isEmpty_eq_false _ 8080 (by decide)

/-- A request of this host to port 9999 of another one. -/
theorem prefilter_sound_off_service :
    frameMayBelongToService (ipv4Tcp 40000 9999 0) webServices true
      (frameDirection .pcapLive true) = .ok false ∧
    (frameDecoder.decode 54 (ipv4Tcp 40000 9999 0) noFragments).2 = noFragments := by
  have hrejected : frameMayBelongToService (ipv4Tcp 40000 9999 0) webServices true
      (frameDirection .pcapLive true) = .ok false := by
    rw [frameMayBelongToService, webServices_not_empty]
    decide
  exact ⟨hrejected, ((prefilter_sound webServices frameDecoder .pcapLive true 54
    (ipv4Tcp 40000 9999 0) noFragments hrejected).1 webServices_not_empty).1⟩

/-- A request of this host to a service port is rejected, though it decodes to a visible
packet; and without services a fragment is rejected that decoding would have kept. -/
theorem prefilter_rejects_visible_packet_and_fragment :
    (frameMayBelongToService (ipv4Tcp 40000 8080 0) webServices true
        (frameDirection .pcapLive true) = .ok false ∧
      ∃ packet, (frameDecoder.decode 54 (ipv4Tcp 40000 8080 0) noFragments).1 =
          .ok (.packet packet) ∧
        serviceFlowVisible (packetScope webServices packet) .pcapLive true = true) ∧
    (frameMayBelongToService (ipv4Tcp 40000 8080 1) (ServiceMap.ofList []) true
        (frameDirection .pcapLive false) = .ok false ∧
      (frameDecoder.decode 54 (ipv4Tcp 40000 8080 1) noFragments).1 = .ok .pendingFragment ∧
      (frameDecoder.decode 54 (ipv4Tcp 40000 8080 1) noFragments).2 ≠ noFragments) := by
  refine ⟨⟨?_, ?_⟩, ?_, ?_, ?_⟩
  · rw [frameMayBelongToService, webServices_not_empty]
    decide
  · refine ⟨_, rfl, by decide +kernel⟩
  · rw [frameMayBelongToService, ServiceMap.isEmpty_iff.mpr fun _ ↦ rfl]
    rfl
  · decide +kernel
  · intro h
    have hbytes := congrArg (fun c ↦ (c.shards 0).bytes) h
    revert hbytes
    decide +kernel

end Bazalt.Capture
