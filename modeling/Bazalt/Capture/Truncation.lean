import Bazalt.Capture.DecoderSafety

/-!
# Truncated captures

A frame of which only a prefix was captured is decoded to an error, or to what the whole
frame is decoded to.  The length on the wire is carried along and decides nothing.
-/

namespace Bazalt.Capture

open Lib

section WireLengths

def FragmentState.unweighed (s : FragmentState) : FragmentState := { s with wireBytes := 0 }

def FragmentCache.unweighed (c : FragmentCache) : FragmentCache :=
  { c with states := c.states.map fun e ↦ (e.1, e.2.unweighed) }

def FragmentInsert.unweighed : FragmentInsert → FragmentInsert
  | .complete payload _ => .complete payload 0
  | r => r

def SharedFragmentCache.unweighed (c : SharedFragmentCache) : SharedFragmentCache :=
  { c with shards := fun i ↦ (c.shards i).unweighed }

def InnerOutcome.unweighed : InnerOutcome → InnerOutcome
  | .packet p => .packet { p with wireLen := 0 }
  | r => r

/-- What decoding gives, without the lengths on the wire. -/
def Decoded.unweighed (r : Decoded) : Decoded := (r.1.map InnerOutcome.unweighed, r.2.unweighed)

namespace FragmentState

variable (s : FragmentState)

theorem declare_unweighed (more : Bool) (finish : ℕ) :
    s.unweighed.declare more finish = (s.declare more finish).map unweighed := by
  unfold declare
  by_cases hmore : more = true
  · rw [if_pos hmore, if_pos hmore]
    rfl
  · rw [if_neg hmore, if_neg hmore]
    by_cases hother : ∃ existing ∈ s.totalLen, existing ≠ finish
    · rw [if_pos (show ∃ existing ∈ s.unweighed.totalLen, _ from hother), if_pos hother]
      rfl
    · rw [if_neg (show ¬∃ existing ∈ s.unweighed.totalLen, _ from hother), if_neg hother]
      by_cases hbeyond : ∃ e ∈ s.pieces.entries, finish < satAdd e.1 e.2.data.length
      · rw [if_pos (show ∃ e ∈ s.unweighed.pieces.entries, _ from hbeyond), if_pos hbeyond]
        rfl
      · rw [if_neg (show ¬∃ e ∈ s.unweighed.pieces.entries, _ from hbeyond), if_neg hbeyond]
        rfl

theorem judge_unweighed (offset finish : ℕ) (more : Bool) (payload : Bytes) :
    s.unweighed.judge offset finish more payload = s.judge offset finish more payload :=
  rfl

theorem add_unweighed (offset : ℕ) (more : Bool) (payload : Bytes) (wireLen : ℕ) :
    (s.add offset more payload wireLen).unweighed = s.unweighed.add offset more payload 0 :=
  rfl

theorem complete?_unweighed : s.unweighed.complete? = s.complete? := rfl

end FragmentState

namespace FragmentCache

variable (c : FragmentCache) (key : FragmentKey)

theorem state?_unweighed : c.unweighed.state? key = (c.state? key).map FragmentState.unweighed := by
  simp only [state?, unweighed, List.find?_map, Option.map_map]
  rfl

theorem removeKey_unweighed : (c.removeKey key).unweighed = c.unweighed.removeKey key := by
  unfold removeKey
  rw [state?_unweighed]
  cases c.state? key with
  | none => rfl
  | some s =>
      simp only [unweighed, Option.map_some, List.filter_map]
      rfl

theorem setState_unweighed (s : FragmentState) :
    (c.setState key s).unweighed = c.unweighed.setState key s.unweighed := by
  simp only [setState, unweighed, List.map_map]
  congr 1
  refine List.map_congr_left fun e _ ↦ ?_
  simp only [Function.comp_apply]
  split_ifs <;> rfl

theorem foldl_removeKey_unweighed (keys : List FragmentKey) (c : FragmentCache) :
    (keys.foldl removeKey c).unweighed = keys.foldl removeKey c.unweighed := by
  induction keys generalizing c with
  | nil => rfl
  | cons key keys ih => rw [List.foldl_cons, List.foldl_cons, ih, removeKey_unweighed]

theorem maintenance_unweighed (now : ℕ) :
    c.unweighed.maintenance now = ((c.maintenance now).1.unweighed, (c.maintenance now).2) := by
  have hexpired : ((c.unweighed.states.filter fun e ↦
      decide (c.unweighed.timeout ≤ now - e.2.lastSeen)).map Prod.fst) =
      (c.states.filter fun e ↦ decide (c.timeout ≤ now - e.2.lastSeen)).map Prod.fst := by
    simp only [unweighed, List.filter_map, List.map_map]
    rfl
  simp only [maintenance]
  change (if now - c.lastCleanup < 1000000000 then _ else _) = _
  split_ifs
  · rfl
  · rw [foldl_removeKey_unweighed]
    rw [hexpired]
    rfl

theorem oldest?_unweighed : c.unweighed.oldest? = c.oldest? := by
  have hfold : ∀ (l : List (FragmentKey × FragmentState)) (best : Option _),
      ((l.map fun e ↦ (e.1, e.2.unweighed)).foldl older
        (best.map fun e ↦ (e.1, e.2.unweighed))).map Prod.fst =
      (l.foldl older best).map Prod.fst := by
    intro l
    induction l with
    | nil =>
        intro best
        cases best <;> rfl
    | cons a l ih =>
        intro best
        rw [List.map_cons, List.foldl_cons, List.foldl_cons, ← ih]
        cases best with
        | none => rfl
        | some b =>
            have hround : older (some (b.1, b.2.unweighed)) (a.1, a.2.unweighed) =
                (older (some b) a).map fun e ↦ (e.1, e.2.unweighed) := by
              change (if a.2.lastSeen < b.2.lastSeen then _ else _) =
                Option.map _ (if a.2.lastSeen < b.2.lastSeen then _ else _)
              split_ifs <;> rfl
            rw [Option.map_some, hround]
  exact hfold c.states none

theorem evict_unweighed (rounds : ℕ) (c : FragmentCache) (m : FragmentMaintenance) :
    evict rounds c.unweighed m = ((evict rounds c m).1.unweighed, (evict rounds c m).2) := by
  induction rounds generalizing c m with
  | zero => rfl
  | succ rounds ih =>
      have hlength : c.unweighed.states.length = c.states.length := List.length_map _
      rw [evict, evict, oldest?_unweighed, hlength]
      change (if c.maxBytes < c.bytes ∨ c.maxDatagrams < c.states.length then _ else _) = _
      split_ifs
      · cases c.oldest? with
        | none => rfl
        | some key =>
            dsimp only
            rw [← removeKey_unweighed, ih]
      · rfl

theorem tryComplete_unweighed :
    c.unweighed.tryComplete key =
      ((c.tryComplete key).1.unweighed, (c.tryComplete key).2.unweighed) := by
  unfold tryComplete
  rw [state?_unweighed]
  cases c.state? key with
  | none => rfl
  | some s =>
      dsimp only [Option.map_some]
      rw [FragmentState.complete?_unweighed]
      cases s.complete? with
      | none => rfl
      | some payload =>
          dsimp only
          rw [removeKey_unweighed]
          rfl

theorem enter_unweighed (now : ℕ) :
    c.unweighed.enter now key = ((c.enter now key).1.unweighed, (c.enter now key).2.unweighed) := by
  unfold enter
  rw [state?_unweighed]
  cases c.state? key with
  | none =>
      simp only [Option.map_none, unweighed, List.map_append]
      rfl
  | some s => rfl

theorem insert_unweighed (now : ℕ) (offset : ℕ) (more : Bool) (payload : Bytes) (wireLen : ℕ) :
    c.unweighed.insert now key offset more payload 0 =
      ((c.insert now key offset more payload wireLen).1.unweighed,
        (c.insert now key offset more payload wireLen).2.1.unweighed,
        (c.insert now key offset more payload wireLen).2.2) := by
  unfold insert
  rw [maintenance_unweighed]
  dsimp only
  generalize (c.maintenance now).1 = c₁
  generalize (c.maintenance now).2 = m
  split_ifs
  · rfl
  · rw [removeKey_unweighed]
    rfl
  · rw [enter_unweighed]
    dsimp only
    generalize (c₁.enter now key).1 = c₂
    generalize (c₁.enter now key).2 = s
    rw [FragmentState.declare_unweighed]
    cases s.declare more (offset + payload.length) with
    | none =>
        dsimp only [Option.map_none]
        rw [← setState_unweighed, ← removeKey_unweighed]
        rfl
    | some d =>
        dsimp only [Option.map_some]
        rw [FragmentState.judge_unweighed, ← setState_unweighed]
        cases d.judge offset (offset + payload.length) more payload with
        | invalid =>
            dsimp only
            rw [← removeKey_unweighed]
            rfl
        | overlap =>
            dsimp only
            rw [← removeKey_unweighed]
            rfl
        | duplicate =>
            dsimp only
            rw [tryComplete_unweighed]
        | new =>
            dsimp only
            rw [← FragmentState.add_unweighed d offset more payload wireLen, ← setState_unweighed]
            obtain ⟨c₃, hc₃⟩ : ∃ c₃ : FragmentCache, c₃ =
              { (c₂.setState key d).setState key (d.add offset more payload wireLen) with
                bytes := satAdd (c₂.setState key d).bytes
                  (satAdd payload.length fragmentPieceOverhead) } := ⟨_, rfl⟩
            have hleft : c₃.unweighed =
              { ((c₂.setState key d).setState key (d.add offset more payload wireLen)).unweighed with
                bytes := satAdd (c₂.setState key d).unweighed.bytes
                  (satAdd payload.length fragmentPieceOverhead) } := by
              rw [hc₃]
              rfl
            rw [← hleft, ← hc₃, tryComplete_unweighed]
            rcases c₃.tryComplete key with ⟨c₄, _ | ⟨whole, wireBytes⟩ | _ | _⟩
            · dsimp only [FragmentInsert.unweighed]
              have hlength : c₄.unweighed.states.length = c₄.states.length := List.length_map _
              rw [evict_unweighed, hlength]
            all_goals rfl

end FragmentCache

theorem SharedFragmentCache.insert_unweighed (c : SharedFragmentCache) (now : ℕ)
    (key : FragmentKey) (offset : ℕ) (more : Bool) (payload : Bytes) (wireLen : ℕ) :
    c.unweighed.insert now key offset more payload 0 =
      ((c.insert now key offset more payload wireLen).1.unweighed,
        (c.insert now key offset more payload wireLen).2.unweighed) := by
  have hshard : (c.unweighed.shards (c.unweighed.shardOf key)).insert now key offset more payload 0 =
      _ := (c.shards (c.shardOf key)).insert_unweighed key now offset more payload wireLen
  have hupdate : ∀ x : FragmentCache,
      Function.update c.unweighed.shards (c.shardOf key) x.unweighed =
        fun i ↦ (Function.update c.shards (c.shardOf key) x i).unweighed := by
    intro x
    funext i
    by_cases hi : i = c.shardOf key
    · subst hi
      rw [Function.update_self, Function.update_self]
    · rw [Function.update_of_ne hi, Function.update_of_ne hi]
      rfl
  simp only [SharedFragmentCache.insert, hshard]
  refine Prod.ext ?_ rfl
  exact congrArg (SharedFragmentCache.mk c.shardOf) (hupdate _)

/-- Lengths on the wire are carried along. -/
def Weightless (inner : Link → ℕ → Bytes → UInt64 → SharedFragmentCache → Decoded) : Prop :=
  ∀ link wireLen bytes domain cache,
    (inner link wireLen bytes domain cache).unweighed = inner link 0 bytes domain cache.unweighed

variable {α : Type} {d : PacketDecoder} {depth : ℕ} {cache : SharedFragmentCache}
  {inner : Link → ℕ → Bytes → UInt64 → SharedFragmentCache → Decoded}

theorem andThen_unweighed {r : Except DecodeError α} {f g : α → Decoded}
    (hf : ∀ a, (f a).unweighed = g a) :
    (andThen r cache f).unweighed = andThen r cache.unweighed g := by
  cases r with
  | error e => rfl
  | ok a => exact hf a

namespace PacketDecoder

theorem decodeUdp_unweighed (hinner : Weightless inner) (wireLen : ℕ) (src dst : IpAddr)
    (udp : Bytes) (domain : UInt64) (cache : SharedFragmentCache) :
    (d.decodeUdp inner depth wireLen src dst udp domain cache).unweighed =
      d.decodeUdp inner depth 0 src dst udp domain cache.unweighed := by
  refine andThen_unweighed fun header ↦ ?_
  dsimp only
  split_ifs
  · refine andThen_unweighed fun vxlan ↦ ?_
    cases vxlan with
    | none => rfl
    | some vxlan => exact hinner _ _ _ _ _
  · rfl

theorem decodeGre_unweighed (hinner : Weightless inner) (wireLen : ℕ) (src dst : IpAddr)
    (gre : Bytes) (domain : UInt64) (cache : SharedFragmentCache) :
    (decodeGre inner depth wireLen src dst gre domain cache).unweighed =
      decodeGre inner depth 0 src dst gre domain cache.unweighed := by
  unfold decodeGre
  split_ifs
  · rfl
  · refine andThen_unweighed fun header ↦ ?_
    cases header with
    | none => rfl
    | some header =>
        dsimp only
        split_ifs
        · exact hinner _ _ _ _ _
        · exact hinner _ _ _ _ _
        · exact hinner _ _ _ _ _
        · rfl

theorem bind_unweighed {x : Except DecodeError α} {f g : α → Except DecodeError ParsedPacket}
    (h : ∀ a, ((f a).map InnerOutcome.packet).map InnerOutcome.unweighed =
      (g a).map InnerOutcome.packet) :
    ((x >>= f).map InnerOutcome.packet).map InnerOutcome.unweighed =
      (x >>= g).map InnerOutcome.packet := by
  cases x with
  | error e => rfl
  | ok a => exact h a

theorem parseTcp_unweighed (tsNs wireLen : ℕ) (src dst : IpAddr) (tcp : Bytes) (domain : UInt64) :
    ((parseTcp tsNs wireLen src dst tcp domain).map InnerOutcome.packet).map
        InnerOutcome.unweighed =
      (parseTcp tsNs 0 src dst tcp domain).map InnerOutcome.packet := by
  refine bind_unweighed fun _ ↦ ?_
  refine bind_unweighed fun srcPort ↦ ?_
  refine bind_unweighed fun dstPort ↦ ?_
  refine bind_unweighed fun seq ↦ ?_
  refine bind_unweighed fun ack ↦ ?_
  refine bind_unweighed fun dataOffset ↦ ?_
  refine bind_unweighed fun _ ↦ ?_
  refine bind_unweighed fun _ ↦ ?_
  refine bind_unweighed fun bits ↦ ?_
  exact bind_unweighed fun payload ↦ rfl

theorem decodeIpPayload_unweighed (hinner : Weightless inner) (wireLen : ℕ)
    (src dst : IpAddr) (protocol : UInt8) (payload : Bytes) (domain : UInt64)
    (cache : SharedFragmentCache) :
    (d.decodeIpPayload inner depth wireLen src dst protocol payload domain cache).unweighed =
      d.decodeIpPayload inner depth 0 src dst protocol payload domain cache.unweighed := by
  unfold decodeIpPayload
  split_ifs
  · exact Prod.ext (parseTcp_unweighed _ _ _ _ _ _) rfl
  · exact decodeUdp_unweighed hinner _ _ _ _ _ _
  · exact decodeGre_unweighed hinner _ _ _ _ _ _
  · exact hinner _ _ _ _ _
  · exact hinner _ _ _ _ _
  · rfl
  · rfl

theorem decodeFragment_unweighed (key : FragmentKey) (offset : ℕ) (more : Bool) (payload : Bytes)
    (wireLen : ℕ) {whole : ℕ → Bytes → SharedFragmentCache → Decoded}
    (hwhole : ∀ wireLen payload cache,
      (whole wireLen payload cache).unweighed = whole 0 payload cache.unweighed)
    (cache : SharedFragmentCache) :
    (d.decodeFragment key offset more payload wireLen whole cache).unweighed =
      d.decodeFragment key offset more payload 0 whole cache.unweighed := by
  unfold decodeFragment
  rw [SharedFragmentCache.insert_unweighed cache d.now key offset more payload wireLen]
  dsimp only
  rcases cache.insert d.now key offset more payload wireLen with ⟨c, _ | ⟨p, w⟩ | _ | _⟩
  · rfl
  · exact hwhole _ _ _
  · rfl
  · rfl

theorem decodeIpv4_unweighed (hinner : Weightless inner) (wireLen : ℕ) (packet : Bytes)
    (domain : UInt64) (cache : SharedFragmentCache) :
    (d.decodeIpv4 inner depth wireLen packet domain cache).unweighed =
      d.decodeIpv4 inner depth 0 packet domain cache.unweighed := by
  refine andThen_unweighed fun header ↦ ?_
  dsimp only
  split_ifs
  · refine decodeFragment_unweighed _ _ _ _ _ (fun wireLen payload cache ↦ ?_) _
    exact decodeIpPayload_unweighed hinner _ _ _ _ _ _ _
  · exact decodeIpPayload_unweighed hinner _ _ _ _ _ _ _

theorem decodeIpv6PostFragment_unweighed (hinner : Weightless inner) (src dst : IpAddr)
    (next : UInt8) (domain : UInt64) (wireLen : ℕ) (payload : Bytes)
    (cache : SharedFragmentCache) :
    (d.decodeIpv6PostFragment inner depth src dst next domain wireLen payload cache).unweighed =
      d.decodeIpv6PostFragment inner depth src dst next domain 0 payload cache.unweighed := by
  refine andThen_unweighed fun e ↦ ?_
  split_ifs
  · rfl
  · exact andThen_unweighed fun rest ↦ decodeIpPayload_unweighed hinner _ _ _ _ _ _ _

theorem decodeIpv6_unweighed (hinner : Weightless inner) (wireLen : ℕ) (packet : Bytes)
    (domain : UInt64) (cache : SharedFragmentCache) :
    (d.decodeIpv6 inner depth wireLen packet domain cache).unweighed =
      d.decodeIpv6 inner depth 0 packet domain cache.unweighed := by
  refine andThen_unweighed fun header ↦ andThen_unweighed fun e ↦ ?_
  split_ifs
  · refine andThen_unweighed fun fragment ↦ ?_
    dsimp only
    split_ifs
    · exact decodeIpv6PostFragment_unweighed hinner _ _ _ _ _ _ _
    · refine decodeFragment_unweighed _ _ _ _ _ (fun wireLen payload cache ↦ ?_) _
      exact decodeIpv6PostFragment_unweighed hinner _ _ _ _ _ _ _
  · rfl
  · exact andThen_unweighed fun payload ↦ decodeIpPayload_unweighed hinner _ _ _ _ _ _ _

theorem decodeEthernetBytes_unweighed (hinner : Weightless inner) (wireLen : ℕ)
    (frame : Bytes) (domain : UInt64) (cache : SharedFragmentCache) :
    (d.decodeEthernetBytes inner depth wireLen frame domain cache).unweighed =
      d.decodeEthernetBytes inner depth 0 frame domain cache.unweighed := by
  unfold decodeEthernetBytes
  split_ifs
  · rfl
  · refine andThen_unweighed fun header ↦ andThen_unweighed fun l3 ↦ ?_
    split_ifs
    · exact decodeIpv4_unweighed hinner _ _ _ _
    · exact decodeIpv6_unweighed hinner _ _ _ _
    · rfl

theorem weightless_decodeLink (d : PacketDecoder) (fuel depth : ℕ) :
    Weightless (d.decodeLink fuel depth) := by
  induction fuel generalizing depth with
  | zero => exact fun _ _ _ _ _ ↦ rfl
  | succ fuel ih =>
      intro link wireLen bytes domain cache
      cases link with
      | ethernet => exact decodeEthernetBytes_unweighed (ih _) _ _ _ _
      | ipv4 => exact decodeIpv4_unweighed (ih _) _ _ _ _
      | ipv6 => exact decodeIpv6_unweighed (ih _) _ _ _ _

end PacketDecoder

end WireLengths

section Prefixes

variable {t f : Bytes} {i j : ℕ}

theorem byteAt_of_prefix (h : t <+: f) {x : UInt8} (ht : byteAt t i = .ok x) :
    byteAt f i = .ok x := by
  obtain ⟨rest, rfl⟩ := h
  rw [byteAt_eq_ok] at ht ⊢
  obtain ⟨hi, -⟩ := List.getElem?_eq_some_iff.mp ht
  rw [List.getElem?_append_left hi]
  exact ht

theorem u16At_of_prefix (h : t <+: f) {x : UInt16} (ht : u16At t i = .ok x) :
    u16At f i = .ok x := by
  obtain ⟨high, hhigh, low, hlow, rfl⟩ := u16At_eq_ok.mp ht
  exact u16At_eq_ok.mpr ⟨high, byteAt_of_prefix h hhigh, low, byteAt_of_prefix h hlow, rfl⟩

theorem u32At_of_prefix (h : t <+: f) {x : UInt32} (ht : u32At t i = .ok x) :
    u32At f i = .ok x := by
  simp only [u32At, bind_eq_ok] at ht ⊢
  obtain ⟨high, hhigh, low, hlow, hx⟩ := ht
  exact ⟨high, u16At_of_prefix h hhigh, low, u16At_of_prefix h hlow, hx⟩

theorem slice_of_prefix (h : t <+: f) {x : Bytes} (ht : slice t i j = .ok x) :
    slice f i j = .ok x := by
  obtain ⟨⟨hij, hj⟩, rfl⟩ := slice_eq_ok.mp ht
  refine slice_eq_ok.mpr ⟨⟨hij, hj.trans h.length_le⟩, ?_⟩
  obtain ⟨rest, rfl⟩ := h
  rw [List.take_append_of_le_length hj]

theorem skipVlans_of_prefix (h : t <+: f) {rounds : ℕ} {e e' : Ethernet}
    (ht : skipVlans t rounds e = .ok e') : skipVlans f rounds e = .ok e' := by
  induction rounds generalizing e with
  | zero => exact ht
  | succ rounds ih =>
      rw [skipVlans] at ht ⊢
      split_ifs at ht ⊢
      · simp only [bind_eq_ok, ensure_eq_ok] at ht ⊢
        obtain ⟨u, hlen, tci, htci, etherType, hetherType, ht⟩ := ht
        exact ⟨u, hlen.trans h.length_le, tci, u16At_of_prefix h htci, etherType,
          u16At_of_prefix h hetherType, ih ht⟩
      · exact ht

theorem parseEthernet_of_prefix (h : t <+: f) {domain : UInt64} {e : Ethernet}
    (ht : parseEthernet t domain = .ok e) : parseEthernet f domain = .ok e := by
  simp only [parseEthernet, bind_eq_ok, ensure_eq_ok] at ht ⊢
  obtain ⟨u, hlen, etherType, hetherType, ht⟩ := ht
  exact ⟨u, hlen.trans h.length_le, etherType, u16At_of_prefix h hetherType,
    skipVlans_of_prefix h ht⟩

/-- The payload ends where the header says, not where the capture does. -/
theorem parseIpv4_of_prefix (h : t <+: f) {header : Ipv4} (ht : parseIpv4 t = .ok header) :
    parseIpv4 f = .ok header := by
  have hle := h.length_le
  simp only [parseIpv4, bind_eq_ok, ensure_eq_ok] at ht ⊢
  obtain ⟨u₁, hlen, first, hfirst, u₂, hversion, u₃, hihl, u₄, hoptions, totalLen, htotalLen, u₅,
    htotal, u₆, hcaptured, src, hsrc, dst, hdst, protocol, hprotocol, frag, hfrag, payload,
    hpayload, id, hid, ht⟩ := ht
  exact ⟨u₁, hlen.trans hle, first, byteAt_of_prefix h hfirst, u₂, hversion, u₃, hihl, u₄,
    hoptions.trans hle, totalLen, u16At_of_prefix h htotalLen, u₅, htotal, u₆,
    hcaptured.trans hle, src, slice_of_prefix h hsrc, dst, slice_of_prefix h hdst, protocol,
    byteAt_of_prefix h hprotocol, frag, u16At_of_prefix h hfrag, payload,
    slice_of_prefix h hpayload, id, u16At_of_prefix h hid, ht⟩

theorem parseIpv6_of_prefix (h : t <+: f) {header : Ipv6} (ht : parseIpv6 t = .ok header) :
    parseIpv6 f = .ok header := by
  have hle := h.length_le
  simp only [parseIpv6, bind_eq_ok, ensure_eq_ok] at ht ⊢
  obtain ⟨u₁, hlen, first, hfirst, u₂, hversion, payloadLen, hpayloadLen, u₃, hcaptured, src, hsrc,
    dst, hdst, next, hnext, ht⟩ := ht
  exact ⟨u₁, hlen.trans hle, first, byteAt_of_prefix h hfirst, u₂, hversion, payloadLen,
    u16At_of_prefix h hpayloadLen, u₃, hcaptured.trans hle, src, slice_of_prefix h hsrc, dst,
    slice_of_prefix h hdst, next, byteAt_of_prefix h hnext, ht⟩

theorem walkExtensions_of_prefix (h : t <+: f) {texts : ExtensionTexts} {limit fuel : ℕ}
    {e e' : Extensions} (ht : walkExtensions texts t limit fuel e = .ok e') :
    walkExtensions texts f limit fuel e = .ok e' := by
  induction fuel generalizing e with
  | zero => cases ht
  | succ fuel ih =>
      rw [walkExtensions] at ht ⊢
      split_ifs at ht ⊢
      · simp only [bind_eq_ok, ensure_eq_ok] at ht ⊢
        obtain ⟨u, hheader, next, hnext, len, hlen, u', hbody, ht⟩ := ht
        exact ⟨u, hheader, next, byteAt_of_prefix h hnext, len, byteAt_of_prefix h hlen, u', hbody,
          ih ht⟩
      · simp only [bind_eq_ok, ensure_eq_ok] at ht ⊢
        obtain ⟨u, hheader, next, hnext, len, hlen, u', hbody, ht⟩ := ht
        exact ⟨u, hheader, next, byteAt_of_prefix h hnext, len, byteAt_of_prefix h hlen, u', hbody,
          ih ht⟩
      · exact ht

theorem parseFragmentHeader_of_prefix (h : t <+: f) {offset ipLen : ℕ} {header : FragmentHeader}
    (ht : parseFragmentHeader t offset ipLen = .ok header) :
    parseFragmentHeader f offset ipLen = .ok header := by
  simp only [parseFragmentHeader, bind_eq_ok, ensure_eq_ok] at ht ⊢
  obtain ⟨u, hheader, next, hnext, frag, hfrag, id, hid, payload, hpayload, ht⟩ := ht
  exact ⟨u, hheader, next, byteAt_of_prefix h hnext, frag, u16At_of_prefix h hfrag, id,
    u32At_of_prefix h hid, payload, slice_of_prefix h hpayload, ht⟩

end Prefixes

section Frames

variable {α : Type} {d : PacketDecoder} {depth : ℕ} {cache : SharedFragmentCache} {t f : Bytes}
  {inner : Link → ℕ → Bytes → UInt64 → SharedFragmentCache → Decoded}

/-- An error, or the same. -/
def FailsOrIs (r s : Decoded) : Prop := (∃ e, r.1 = .error e) ∨ r = s

theorem failsOrIs_andThen {r s : Except DecodeError α} {F G : α → Decoded}
    (hr : ∀ a, r = .ok a → s = .ok a) (hF : ∀ a, r = .ok a → FailsOrIs (F a) (G a)) :
    FailsOrIs (andThen r cache F) (andThen s cache G) := by
  cases hr' : r with
  | error e => exact .inl ⟨e, rfl⟩
  | ok a =>
      rw [hr a hr']
      exact hF a hr'

namespace PacketDecoder

theorem decodeIpv4_of_prefix (h : t <+: f) (wireLen : ℕ) (domain : UInt64)
    (cache : SharedFragmentCache) :
    FailsOrIs (d.decodeIpv4 inner depth wireLen t domain cache)
      (d.decodeIpv4 inner depth wireLen f domain cache) :=
  failsOrIs_andThen (fun _ ↦ parseIpv4_of_prefix h) fun _ _ ↦ .inr rfl

theorem decodeIpv6_of_prefix (h : t <+: f) (wireLen : ℕ) (domain : UInt64)
    (cache : SharedFragmentCache) :
    FailsOrIs (d.decodeIpv6 inner depth wireLen t domain cache)
      (d.decodeIpv6 inner depth wireLen f domain cache) := by
  refine failsOrIs_andThen (fun _ ↦ parseIpv6_of_prefix h) fun header _ ↦ ?_
  refine failsOrIs_andThen (fun _ ↦ walkExtensions_of_prefix h) fun e _ ↦ ?_
  split_ifs
  · exact failsOrIs_andThen (fun _ ↦ parseFragmentHeader_of_prefix h) fun _ _ ↦ .inr rfl
  · exact .inr rfl
  · exact failsOrIs_andThen (fun _ ↦ slice_of_prefix h) fun _ _ ↦ .inr rfl

theorem decodeEthernetBytes_of_prefix (h : t <+: f) (wireLen : ℕ) (domain : UInt64)
    (cache : SharedFragmentCache) :
    FailsOrIs (d.decodeEthernetBytes inner depth wireLen t domain cache)
      (d.decodeEthernetBytes inner depth wireLen f domain cache) := by
  unfold decodeEthernetBytes
  split_ifs
  · exact .inr rfl
  · refine failsOrIs_andThen (fun _ ↦ parseEthernet_of_prefix h) fun header hheader ↦ ?_
    have hle := parseEthernet_offset_le hheader
    rw [slice_eq_ok.mpr ⟨⟨hle, le_rfl⟩, rfl⟩,
      slice_eq_ok.mpr ⟨⟨hle.trans h.length_le, le_rfl⟩, rfl⟩, List.take_length, List.take_length]
    have hrest : t.drop header.l3Offset <+: f.drop header.l3Offset := h.drop _
    dsimp only [andThen]
    split_ifs
    · exact decodeIpv4_of_prefix hrest _ _ _
    · exact decodeIpv6_of_prefix hrest _ _ _
    · exact .inr rfl

/-- Whatever lengths on the wire the two captures report. -/
theorem decode_of_prefix (d : PacketDecoder) (t f : Bytes) (h : t <+: f) (wireLen wireLen' : ℕ)
    (cache : SharedFragmentCache) :
    (∃ e, (d.decode wireLen t cache).1 = .error e) ∨
      (d.decode wireLen t cache).unweighed = (d.decode wireLen' f cache).unweighed ∧
        (wireLen = wireLen' → d.decode wireLen t cache = d.decode wireLen' f cache) := by
  have hweightless : Weightless (d.decodeLink (maxTunnelDepth + 1) 0) := weightless_decodeLink d _ _
  have hsame : FailsOrIs (d.decode wireLen t cache) (d.decode wireLen f cache) :=
    decodeEthernetBytes_of_prefix h wireLen 0 cache
  rcases hsame with hfails | hsame
  · exact .inl hfails
  · refine .inr ⟨?_, fun hlen ↦ hlen ▸ hsame⟩
    rw [hsame]
    exact (hweightless .ethernet wireLen f 0 cache).trans
      (hweightless .ethernet wireLen' f 0 cache).symm

/-- A segment with one byte of payload. -/
def segmentFrame : Bytes :=
  List.replicate 12 0 ++ [0x08, 0x00] ++
    [0x45, 0, 0, 41, 0, 0, 0, 0, 64, 6, 0, 0, 10, 0, 0, 1, 10, 0, 0, 2] ++
    [0x04, 0xd2, 0, 80, 0, 0, 0, 1, 0, 0, 0, 0, 0x50, 0x18, 0, 0, 0, 0, 0, 0, 65]

/-- The capture leaves out the padding of the frame. -/
theorem decode_of_prefix_segmentFrame :
    (decode ⟨true, 1, 1⟩ 55 segmentFrame
        (.new (fun _ ↦ 0) 67108864 4096 30000000000 fun _ ↦ 0)).unweighed =
      (decode ⟨true, 1, 1⟩ 60 (segmentFrame ++ [0, 0, 0, 0, 0])
        (.new (fun _ ↦ 0) 67108864 4096 30000000000 fun _ ↦ 0)).unweighed := by
  rcases decode_of_prefix ⟨true, 1, 1⟩ segmentFrame (segmentFrame ++ [0, 0, 0, 0, 0])
    (List.prefix_append _ _) 55 60 (.new (fun _ ↦ 0) 67108864 4096 30000000000 fun _ ↦ 0) with
    ⟨e, he⟩ | ⟨hsame, -⟩
  · have hok : (decode ⟨true, 1, 1⟩ 55 segmentFrame
        (.new (fun _ ↦ 0) 67108864 4096 30000000000 fun _ ↦ 0)).1.isOk = true := by
      decide +kernel
    rw [he] at hok
    cases hok
  · exact hsame

end PacketDecoder

end Frames

end Bazalt.Capture
