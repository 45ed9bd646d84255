import Bazalt.Capture.Decoder

/-!
# Safety of the packet decoder

Whatever bytes are captured, the decoder reads nothing outside of them, and all of its loops
end.  It ends with an outcome or with an error that it returns itself.
-/

namespace Bazalt.Capture

section Reads

variable {α β : Type} {b : Bytes} {i j : ℕ}

/-- No read was out of bounds and no loop ran out of fuel. -/
def Faultless (r : Except DecodeError α) : Prop :=
  ∀ e, r = .error e → ∃ message, e = .bail message

theorem faultless_ok (a : α) : Faultless (.ok a) := fun _ h ↦ nomatch h

theorem faultless_pure (a : α) : Faultless (pure a) := faultless_ok a

theorem faultless_bail (message : String) :
    Faultless (.error (.bail message) : Except DecodeError α) := by
  intro e h
  obtain rfl := Except.error.inj h
  exact ⟨message, rfl⟩

theorem Faultless.bind {x : Except DecodeError α} {f : α → Except DecodeError β}
    (hx : Faultless x) (hf : ∀ a, x = .ok a → Faultless (f a)) : Faultless (x >>= f) := by
  cases x with
  | error e =>
      obtain ⟨message, rfl⟩ := hx e rfl
      exact faultless_bail message
  | ok a => exact hf a rfl

/-- What comes after a check may rely on it. -/
theorem faultless_ensure {p : Prop} [Decidable p] (message : String)
    {f : Unit → Except DecodeError β} (hf : p → Faultless (f ())) :
    Faultless (ensure p message >>= f) := by
  refine .bind ?_ fun u hu ↦ hf (ensure_eq_ok.mp hu)
  unfold ensure
  split_ifs
  · exact faultless_ok ()
  · exact faultless_bail message

theorem faultless_byteAt (h : i < b.length) : Faultless (byteAt b i) := by
  rw [byteAt_eq_ok.mpr (List.getElem?_eq_getElem h)]
  exact faultless_ok _

theorem faultless_u16At (h : i + 1 < b.length) : Faultless (u16At b i) :=
  (faultless_byteAt (by omega)).bind fun _ _ ↦
    (faultless_byteAt h).bind fun _ _ ↦ faultless_pure _

theorem faultless_u32At (h : i + 3 < b.length) : Faultless (u32At b i) :=
  (faultless_u16At (by omega)).bind fun _ _ ↦
    (faultless_u16At (by omega)).bind fun _ _ ↦ faultless_pure _

theorem faultless_slice (hij : i ≤ j) (hj : j ≤ b.length) : Faultless (slice b i j) := by
  rw [slice_eq_ok.mpr ⟨⟨hij, hj⟩, rfl⟩]
  exact faultless_ok _

end Reads

section Headers

theorem faultless_skipVlans (frame : Bytes) (rounds : ℕ) (e : Ethernet) :
    Faultless (skipVlans frame rounds e) := by
  induction rounds generalizing e with
  | zero => exact faultless_ok e
  | succ rounds ih =>
      rw [skipVlans]
      split_ifs
      · refine faultless_ensure _ fun hlen ↦ ?_
        refine (faultless_u16At (by omega)).bind fun tci _ ↦ ?_
        exact (faultless_u16At (by omega)).bind fun etherType _ ↦ ih _
      · exact faultless_ok e

/-- The tags end inside of the frame. -/
theorem skipVlans_offset_le {frame : Bytes} {rounds : ℕ} {e e' : Ethernet}
    (hle : e.l3Offset ≤ frame.length) (h : skipVlans frame rounds e = .ok e') :
    e'.l3Offset ≤ frame.length := by
  induction rounds generalizing e with
  | zero =>
      obtain rfl := Except.ok.inj h
      exact hle
  | succ rounds ih =>
      rw [skipVlans] at h
      split_ifs at h
      · simp only [bind_eq_ok, ensure_eq_ok] at h
        obtain ⟨-, hlen, tci, -, etherType, -, h⟩ := h
        exact ih hlen h
      · obtain rfl := Except.ok.inj h
        exact hle

theorem faultless_parseEthernet (frame : Bytes) (domain : UInt64) :
    Faultless (parseEthernet frame domain) := by
  refine faultless_ensure _ fun hlen ↦ ?_
  exact (faultless_u16At (by omega)).bind fun etherType _ ↦ faultless_skipVlans _ _ _

theorem parseEthernet_offset_le {frame : Bytes} {domain : UInt64} {e : Ethernet}
    (h : parseEthernet frame domain = .ok e) : e.l3Offset ≤ frame.length := by
  simp only [parseEthernet, bind_eq_ok, ensure_eq_ok] at h
  obtain ⟨-, hlen, etherType, -, h⟩ := h
  exact skipVlans_offset_le hlen h

theorem faultless_parseIpv4 (packet : Bytes) : Faultless (parseIpv4 packet) := by
  refine faultless_ensure _ fun hlen ↦ ?_
  refine (faultless_byteAt (by omega)).bind fun first _ ↦ ?_
  refine faultless_ensure _ fun _ ↦ ?_
  refine faultless_ensure _ fun hihl ↦ ?_
  refine faultless_ensure _ fun _ ↦ ?_
  refine (faultless_u16At (by omega)).bind fun totalLen _ ↦ ?_
  refine faultless_ensure _ fun htotal ↦ ?_
  refine faultless_ensure _ fun hcaptured ↦ ?_
  refine (faultless_slice (by omega) (by omega)).bind fun src _ ↦ ?_
  refine (faultless_slice (by omega) (by omega)).bind fun dst _ ↦ ?_
  refine (faultless_byteAt (by omega)).bind fun protocol _ ↦ ?_
  refine (faultless_u16At (by omega)).bind fun frag _ ↦ ?_
  refine (faultless_slice htotal hcaptured).bind fun payload _ ↦ ?_
  exact (faultless_u16At (by omega)).bind fun id _ ↦ faultless_pure _

theorem faultless_parseIpv6 (packet : Bytes) : Faultless (parseIpv6 packet) := by
  refine faultless_ensure _ fun hlen ↦ ?_
  refine (faultless_byteAt (by omega)).bind fun first _ ↦ ?_
  refine faultless_ensure _ fun _ ↦ ?_
  refine (faultless_u16At (by omega)).bind fun payloadLen _ ↦ ?_
  refine faultless_ensure _ fun _ ↦ ?_
  refine (faultless_slice (by omega) (by omega)).bind fun src _ ↦ ?_
  refine (faultless_slice (by omega) (by omega)).bind fun dst _ ↦ ?_
  exact (faultless_byteAt (by omega)).bind fun next _ ↦ faultless_pure _

theorem parseIpv6_ipLen {packet : Bytes} {h : Ipv6} (hp : parseIpv6 packet = .ok h) :
    40 ≤ h.ipLen ∧ h.ipLen ≤ packet.length := by
  simp only [parseIpv6, bind_eq_ok, ensure_eq_ok, pure, Except.pure, Except.ok.injEq] at hp
  obtain ⟨-, -, first, -, -, -, payloadLen, -, -, hlen, src, -, dst, -, next, -, rfl⟩ := hp
  exact ⟨le_satAdd (by decide), hlen⟩

/-- Every extension header takes the walk eight bytes on. -/
theorem faultless_walkExtensions (texts : ExtensionTexts) {packet : Bytes} {limit : ℕ}
    (hlimit : limit ≤ packet.length) {fuel : ℕ} {e : Extensions} (hle : e.offset ≤ limit)
    (hfuel : limit < e.offset + fuel) : Faultless (walkExtensions texts packet limit fuel e) := by
  induction fuel generalizing e with
  | zero => omega
  | succ fuel ih =>
      rw [walkExtensions]
      split_ifs
      · refine faultless_ensure _ fun hheader ↦ ?_
        refine (faultless_byteAt (by omega)).bind fun next _ ↦ ?_
        refine (faultless_byteAt (by omega)).bind fun len _ ↦ ?_
        refine faultless_ensure _ fun hbody ↦ ?_
        exact ih hbody (by dsimp only; omega)
      · refine faultless_ensure _ fun hheader ↦ ?_
        refine (faultless_byteAt (by omega)).bind fun next _ ↦ ?_
        refine (faultless_byteAt (by omega)).bind fun len _ ↦ ?_
        refine faultless_ensure _ fun hbody ↦ ?_
        exact ih hbody (by dsimp only; omega)
      · exact faultless_ok e

theorem walkExtensions_offset_le {texts : ExtensionTexts} {packet : Bytes} {limit fuel : ℕ}
    {e e' : Extensions} (hle : e.offset ≤ limit)
    (h : walkExtensions texts packet limit fuel e = .ok e') : e'.offset ≤ limit := by
  induction fuel generalizing e with
  | zero => cases h
  | succ fuel ih =>
      rw [walkExtensions] at h
      split_ifs at h
      · simp only [bind_eq_ok, ensure_eq_ok] at h
        obtain ⟨-, -, next, -, len, -, -, hbody, h⟩ := h
        exact ih hbody h
      · simp only [bind_eq_ok, ensure_eq_ok] at h
        obtain ⟨-, -, next, -, len, -, -, hbody, h⟩ := h
        exact ih hbody h
      · obtain rfl := Except.ok.inj h
        exact hle

theorem faultless_parseFragmentHeader {packet : Bytes} {offset ipLen : ℕ}
    (hlen : ipLen ≤ packet.length) : Faultless (parseFragmentHeader packet offset ipLen) := by
  refine faultless_ensure _ fun hheader ↦ ?_
  refine (faultless_byteAt (by omega)).bind fun next _ ↦ ?_
  refine (faultless_u16At (by omega)).bind fun frag _ ↦ ?_
  refine (faultless_u32At (by omega)).bind fun id _ ↦ ?_
  exact (faultless_slice hheader hlen).bind fun payload _ ↦ faultless_pure _

theorem faultless_parseTcp (tsNs wireLen : ℕ) (src dst : IpAddr) (tcp : Bytes) (domain : UInt64) :
    Faultless (parseTcp tsNs wireLen src dst tcp domain) := by
  refine faultless_ensure _ fun hlen ↦ ?_
  refine (faultless_u16At (by omega)).bind fun srcPort _ ↦ ?_
  refine (faultless_u16At (by omega)).bind fun dstPort _ ↦ ?_
  refine (faultless_u32At (by omega)).bind fun seq _ ↦ ?_
  refine (faultless_u32At (by omega)).bind fun ack _ ↦ ?_
  refine (faultless_byteAt (by omega)).bind fun dataOffset _ ↦ ?_
  refine faultless_ensure _ fun _ ↦ ?_
  refine faultless_ensure _ fun hoptions ↦ ?_
  refine (faultless_byteAt (by omega)).bind fun bits _ ↦ ?_
  exact (faultless_slice hoptions le_rfl).bind fun payload _ ↦ faultless_pure _

theorem faultless_parseUdp (udp : Bytes) : Faultless (parseUdp udp) := by
  refine faultless_ensure _ fun hlen ↦ ?_
  refine (faultless_u16At (by omega)).bind fun srcPort _ ↦ ?_
  refine (faultless_u16At (by omega)).bind fun dstPort _ ↦ ?_
  refine (faultless_u16At (by omega)).bind fun udpLen _ ↦ ?_
  refine faultless_ensure _ fun hheader ↦ ?_
  refine faultless_ensure _ fun hcaptured ↦ ?_
  exact (faultless_slice hheader hcaptured).bind fun payload _ ↦ faultless_pure _

theorem faultless_parseVxlan (vxlan : Bytes) : Faultless (parseVxlan vxlan) := by
  unfold parseVxlan
  split_ifs with hlen
  · refine (faultless_byteAt (by omega)).bind fun flags _ ↦ ?_
    split_ifs
    · refine (faultless_byteAt (by omega)).bind fun high _ ↦ ?_
      refine (faultless_byteAt (by omega)).bind fun middle _ ↦ ?_
      refine (faultless_byteAt (by omega)).bind fun low _ ↦ ?_
      exact (faultless_slice hlen le_rfl).bind fun inner _ ↦ faultless_pure _
    · exact faultless_pure _
  · exact faultless_ok _

/-- Every routing entry takes the loop four bytes on. -/
theorem faultless_skipRoutes {gre : Bytes} {fuel offset : ℕ} (hpos : 0 < fuel)
    (hfuel : gre.length < offset + fuel) : Faultless (skipRoutes gre fuel offset) := by
  induction fuel generalizing offset with
  | zero => omega
  | succ fuel ih =>
      rw [skipRoutes]
      refine faultless_ensure _ fun hentry ↦ ?_
      refine (faultless_u16At (by omega)).bind fun af _ ↦ ?_
      refine (faultless_byteAt (by omega)).bind fun len _ ↦ ?_
      dsimp only
      split_ifs
      · exact faultless_pure _
      · refine faultless_ensure _ fun hdata ↦ ?_
        exact ih (by omega) (by omega)

/-- What follows the optional fields: the source route, if there is one, and the payload. -/
def greRest (gre : Bytes) (routed : Prop) [Decidable routed] (proto : UInt16) (key : UInt64)
    (offset : ℕ) : Except DecodeError (Option Gre) :=
  (if routed then skipRoutes gre (gre.length + 1) offset else pure offset) >>= fun offset ↦ do
    ensure (offset ≤ gre.length) "truncated GRE header"
    let inner ← slice gre offset gre.length
    return some { proto := proto, key, inner }

def greKey (gre : Bytes) (keyed : Prop) [Decidable keyed] (offset : ℕ) :
    Except DecodeError (UInt64 × ℕ) :=
  if keyed then do
    ensure (offset + 4 ≤ gre.length) "truncated GRE key"
    let key ← u32At gre offset
    pure (key.toUInt64, offset + 4)
  else pure (0, offset)

/-- The header in three parts. -/
theorem parseGre_eq (gre : Bytes) : parseGre gre = (do
    ensure (4 ≤ gre.length) "truncated GRE header"
    let flags ← u16At gre 0
    if flags &&& 0x0007 ≠ 0 then return none
    else
      let proto ← u16At gre 2
      let x ← greKey gre (flags &&& 0x2000 ≠ 0) (if flags &&& 0xc000 ≠ 0 then satAdd 4 4 else 4)
      greRest gre (flags &&& 0x4000 ≠ 0) proto x.1
        (if flags &&& 0x1000 ≠ 0 then satAdd x.2 4 else x.2)) := by
  unfold parseGre greKey greRest
  congr 1
  funext _
  congr 1
  funext flags
  split_ifs <;> simp only [bind_assoc, pure_bind]

theorem faultless_greRest (gre : Bytes) (routed : Prop) [Decidable routed] (proto : UInt16)
    (key : UInt64) (offset : ℕ) : Faultless (greRest gre routed proto key offset) := by
  have hroute : Faultless
      (if routed then skipRoutes gre (gre.length + 1) offset else pure offset) := by
    split_ifs
    · exact faultless_skipRoutes (by omega) (by omega)
    · exact faultless_pure _
  refine hroute.bind fun offset _ ↦ faultless_ensure _ fun hle ↦ ?_
  exact (faultless_slice hle le_rfl).bind fun inner _ ↦ faultless_pure _

theorem faultless_greKey (gre : Bytes) (keyed : Prop) [Decidable keyed] (offset : ℕ) :
    Faultless (greKey gre keyed offset) := by
  unfold greKey
  split_ifs
  · refine faultless_ensure _ fun hkey ↦ ?_
    exact (faultless_u32At (by omega)).bind fun key _ ↦ faultless_pure _
  · exact faultless_pure _

theorem faultless_parseGre (gre : Bytes) : Faultless (parseGre gre) := by
  rw [parseGre_eq]
  refine faultless_ensure _ fun hlen ↦ ?_
  refine (faultless_u16At (by omega)).bind fun flags _ ↦ ?_
  split_ifs
  all_goals first
    | exact faultless_pure _
    | exact (faultless_u16At (by omega)).bind fun proto _ ↦
        (faultless_greKey _ _ _).bind fun x _ ↦ faultless_greRest _ _ _ _ _

end Headers

section Layers

variable {α : Type} {d : PacketDecoder} {depth : ℕ} {cache : SharedFragmentCache}
  {inner : Link → ℕ → Bytes → UInt64 → SharedFragmentCache → Decoded}

theorem faultless_andThen {r : Except DecodeError α} {f : α → Decoded} (hr : Faultless r)
    (hf : ∀ a, r = .ok a → Faultless (f a).1) : Faultless (andThen r cache f).1 := by
  cases r with
  | error e => exact fun e' h ↦ hr e' (congrArg _ (Except.error.inj h))
  | ok a => exact hf a rfl

/-- What a tunnel carries is decoded without a fault, if a tunnel may be entered. -/
def InnerSafe (depth : ℕ) (inner : Link → ℕ → Bytes → UInt64 → SharedFragmentCache → Decoded) :
    Prop :=
  depth < maxTunnelDepth → ∀ link wireLen bytes domain cache,
    Faultless (inner link wireLen bytes domain cache).1

namespace PacketDecoder

theorem faultless_decodeUdp (hinner : InnerSafe depth inner) (wireLen : ℕ) (src dst : IpAddr)
    (udp : Bytes) (domain : UInt64) (cache : SharedFragmentCache) :
    Faultless (d.decodeUdp inner depth wireLen src dst udp domain cache).1 := by
  refine faultless_andThen (faultless_parseUdp udp) fun header _ ↦ ?_
  dsimp only
  split_ifs with hvxlan
  · refine faultless_andThen (faultless_parseVxlan _) fun vxlan _ ↦ ?_
    cases vxlan with
    | none => exact faultless_ok _
    | some vxlan => exact hinner hvxlan.2.1 _ _ _ _ _
  · exact faultless_ok _

theorem faultless_decodeGre (hinner : InnerSafe depth inner) (wireLen : ℕ) (src dst : IpAddr)
    (gre : Bytes) (domain : UInt64) (cache : SharedFragmentCache) :
    Faultless (decodeGre inner depth wireLen src dst gre domain cache).1 := by
  unfold decodeGre
  split_ifs with hdepth
  · exact faultless_ok _
  · refine faultless_andThen (faultless_parseGre gre) fun header _ ↦ ?_
    cases header with
    | none => exact faultless_ok _
    | some header =>
        dsimp only
        split_ifs
        · exact hinner (not_le.mp hdepth) _ _ _ _ _
        · exact hinner (not_le.mp hdepth) _ _ _ _ _
        · exact hinner (not_le.mp hdepth) _ _ _ _ _
        · exact faultless_ok _

theorem faultless_decodeIpPayload (hinner : InnerSafe depth inner) (wireLen : ℕ)
    (src dst : IpAddr) (protocol : UInt8) (payload : Bytes) (domain : UInt64)
    (cache : SharedFragmentCache) :
    Faultless (d.decodeIpPayload inner depth wireLen src dst protocol payload domain cache).1 := by
  unfold decodeIpPayload
  split_ifs with htcp hudp htunnel
  · have htcp := faultless_parseTcp d.tsNs wireLen src dst payload domain
    cases hr : parseTcp d.tsNs wireLen src dst payload domain with
    | error e => exact fun e' h ↦ htcp e' (by simpa [hr, Except.map] using h)
    | ok packet => exact faultless_ok _
  · exact faultless_decodeUdp hinner _ _ _ _ _ _
  · exact faultless_decodeGre hinner _ _ _ _ _ _
  · exact hinner htunnel.2 _ _ _ _ _
  · exact hinner htunnel.2 _ _ _ _ _
  · exact faultless_ok _
  · exact faultless_ok _

theorem faultless_decodeFragment (key : FragmentKey) (offset : ℕ) (more : Bool) (payload : Bytes)
    (wireLen : ℕ) {whole : ℕ → Bytes → SharedFragmentCache → Decoded}
    (hwhole : ∀ wireLen payload cache, Faultless (whole wireLen payload cache).1)
    (cache : SharedFragmentCache) :
    Faultless (d.decodeFragment key offset more payload wireLen whole cache).1 := by
  unfold decodeFragment
  dsimp only
  split
  · exact faultless_ok _
  · exact faultless_ok _
  · exact faultless_ok _
  · exact hwhole _ _ _

theorem faultless_decodeIpv4 (hinner : InnerSafe depth inner) (wireLen : ℕ) (packet : Bytes)
    (domain : UInt64) (cache : SharedFragmentCache) :
    Faultless (d.decodeIpv4 inner depth wireLen packet domain cache).1 := by
  refine faultless_andThen (faultless_parseIpv4 packet) fun header _ ↦ ?_
  dsimp only
  split_ifs
  · exact faultless_decodeFragment _ _ _ _ _
      (fun _ _ _ ↦ faultless_decodeIpPayload hinner _ _ _ _ _ _ _) _
  · exact faultless_decodeIpPayload hinner _ _ _ _ _ _ _

theorem faultless_decodeIpv6PostFragment (hinner : InnerSafe depth inner) (src dst : IpAddr)
    (next : UInt8) (domain : UInt64) (wireLen : ℕ) (payload : Bytes)
    (cache : SharedFragmentCache) :
    Faultless (d.decodeIpv6PostFragment inner depth src dst next domain wireLen payload cache).1 := by
  refine faultless_andThen
    (faultless_walkExtensions _ le_rfl (Nat.zero_le _) (by dsimp only; omega)) fun e he ↦ ?_
  split_ifs
  · exact faultless_ok _
  · refine faultless_andThen
      (faultless_slice (walkExtensions_offset_le (Nat.zero_le _) he) le_rfl) fun rest _ ↦ ?_
    exact faultless_decodeIpPayload hinner _ _ _ _ _ _ _

theorem faultless_decodeIpv6 (hinner : InnerSafe depth inner) (wireLen : ℕ) (packet : Bytes)
    (domain : UInt64) (cache : SharedFragmentCache) :
    Faultless (d.decodeIpv6 inner depth wireLen packet domain cache).1 := by
  refine faultless_andThen (faultless_parseIpv6 packet) fun header hheader ↦ ?_
  obtain ⟨hle, hlen⟩ := parseIpv6_ipLen hheader
  refine faultless_andThen (faultless_walkExtensions _ hlen hle (by dsimp only; omega))
    fun e he ↦ ?_
  have hend := walkExtensions_offset_le hle he
  split_ifs with hfragment hbeyond
  · refine faultless_andThen (faultless_parseFragmentHeader hlen) fun fragment _ ↦ ?_
    dsimp only
    split_ifs
    · exact faultless_decodeIpv6PostFragment hinner _ _ _ _ _ _ _
    · exact faultless_decodeFragment _ _ _ _ _
        (fun _ _ _ ↦ faultless_decodeIpv6PostFragment hinner _ _ _ _ _ _ _) _
  · exact faultless_bail _
  · refine faultless_andThen (faultless_slice hend hlen) fun payload _ ↦ ?_
    exact faultless_decodeIpPayload hinner _ _ _ _ _ _ _

theorem faultless_decodeEthernetBytes (hinner : InnerSafe depth inner) (wireLen : ℕ)
    (frame : Bytes) (domain : UInt64) (cache : SharedFragmentCache) :
    Faultless (d.decodeEthernetBytes inner depth wireLen frame domain cache).1 := by
  unfold decodeEthernetBytes
  split_ifs
  · exact faultless_ok _
  · refine faultless_andThen (faultless_parseEthernet frame domain) fun header hheader ↦ ?_
    refine faultless_andThen (faultless_slice (parseEthernet_offset_le hheader) le_rfl)
      fun l3 _ ↦ ?_
    split_ifs
    · exact faultless_decodeIpv4 hinner _ _ _ _
    · exact faultless_decodeIpv6 hinner _ _ _ _
    · exact faultless_ok _

/-- There is fuel for every level of tunnels. -/
theorem faultless_decodeLink {fuel depth : ℕ} (hdepth : depth ≤ maxTunnelDepth)
    (hfuel : maxTunnelDepth < fuel + depth) (link : Link) (wireLen : ℕ) (bytes : Bytes)
    (domain : UInt64) (cache : SharedFragmentCache) :
    Faultless (d.decodeLink fuel depth link wireLen bytes domain cache).1 := by
  induction fuel generalizing depth link wireLen bytes domain cache with
  | zero => omega
  | succ fuel ih =>
      have hinner : InnerSafe depth (d.decodeLink fuel (depth + 1)) :=
        fun hlt link wireLen bytes domain cache ↦ ih hlt (by omega) _ _ _ _ _
      cases link with
      | ethernet => exact faultless_decodeEthernetBytes hinner _ _ _ _
      | ipv4 => exact faultless_decodeIpv4 hinner _ _ _ _
      | ipv6 => exact faultless_decodeIpv6 hinner _ _ _ _

theorem decode_safe (d : PacketDecoder) (wireLen : ℕ) (frame : Bytes)
    (cache : SharedFragmentCache) :
    (d.decode wireLen frame cache).1 ≠ .error .outOfBounds ∧
      (d.decode wireLen frame cache).1 ≠ .error .outOfFuel := by
  have hsafe : Faultless (d.decode wireLen frame cache).1 :=
    faultless_decodeLink (Nat.zero_le _) (Nat.lt_succ_self _) _ _ _ _ _
  refine ⟨fun h ↦ ?_, fun h ↦ ?_⟩
  all_goals
    obtain ⟨message, hbail⟩ := hsafe _ h
    cases hbail

end PacketDecoder

end Layers

end Bazalt.Capture
