import Bazalt.Capture.Prefilter
import Bazalt.Topology.Throttle

/-!
# The filter in the kernel

The ports of the services are compiled into a filter, so that the kernel hands over no other
frames.  A filter is a text in the language of the capture library.  What such a text says of a
frame is written beside it here, with one trap of the language: a load beyond the end of the frame
ends the program, and the frame is not taken, whatever the clauses after it say.

What the filter withholds would not have been shown.
-/

namespace Bazalt.Capture

open Services

/-! ## The language of filters -/

/-- A text, and what it says of a frame: nothing if it loads beyond the end. -/
structure Clause where
  text : String
  answer : Bytes → Option Bool

def loadHalf (frame : Bytes) (i : ℕ) : Option UInt16 := (u16At frame i).toOption

/-- What a frame with this EtherType is asked; of others the answer is no. -/
def askOf (etherType : UInt16) (ask : Bytes → Option Bool) (frame : Bytes) : Option Bool :=
  (loadHalf frame 12).bind fun t ↦ if t = etherType then ask frame else some false

namespace Clause

def etherProto (text : String) (n : UInt16) : Clause := ⟨text, askOf n fun _ ↦ some true⟩

def ip : Clause := etherProto "ip" 0x0800

def ip6 : Clause := etherProto "ip6" 0x86dd

def ipProto (n : UInt8) : Clause :=
  ⟨s!"ip proto {n}", askOf 0x0800 fun frame ↦ frame[23]?.map fun protocol ↦ decide (protocol = n)⟩

/-- `ip[6:2] & 0x3fff != 0`, asked of IPv4 only. -/
def ipFragment : Clause :=
  ⟨"ip and (ip[6:2] & 0x3fff != 0)",
    askOf 0x0800 fun frame ↦ (loadHalf frame 20).map fun frag ↦ decide (frag &&& 0x3fff ≠ 0)⟩

/-- The port at an offset of the transport header, behind the IPv4 header of a packet that is no
later fragment. -/
def ipv4Port (protocols : List UInt8) (offset : ℕ) (port : UInt16) (frame : Bytes) : Option Bool :=
  frame[23]?.bind fun protocol ↦
    if protocol ∈ protocols then
      (loadHalf frame 20).bind fun frag ↦
        if frag &&& 0x1fff ≠ 0 then some false
        else frame[14]?.bind fun first ↦
          (loadHalf frame (14 + (first &&& 0x0f).toNat * 4 + offset)).map fun p ↦ decide (p = port)
    else some false

/-- The port behind an IPv6 header without extensions. -/
def ipv6Port (protocols : List UInt8) (offset : ℕ) (port : UInt16) (frame : Bytes) : Option Bool :=
  frame[20]?.bind fun next ↦
    if next ∈ protocols then
      (loadHalf frame (54 + offset)).map fun p ↦ decide (p = port)
    else some false

def portAt (protocols : List UInt8) (offset : ℕ) (port : UInt16) (frame : Bytes) : Option Bool :=
  (loadHalf frame 12).bind fun t ↦
    if t = 0x0800 then ipv4Port protocols offset port frame
    else if t = 0x86dd then ipv6Port protocols offset port frame
    else some false

/-- TCP, UDP and SCTP. -/
def portProtocols : List UInt8 := [6, 17, 132]

def srcPort (port : UInt16) : Clause := ⟨s!"src port {port}", portAt portProtocols 0 port⟩

def dstPort (port : UInt16) : Clause := ⟨s!"dst port {port}", portAt portProtocols 2 port⟩

def udpDstPort (port : UInt16) : Clause := ⟨s!"udp dst port {port}", portAt [17] 2 port⟩

/-- Two digits of a number to the base 16. -/
def hexByte (b : UInt8) : String :=
  String.ofList [Nat.digitChar (b.toNat / 16), Nat.digitChar (b.toNat % 16)]

def formatMac (mac : Vector UInt8 6) : String := ":".intercalate (mac.toList.map hexByte)

def etherSrc (mac : Vector UInt8 6) : Clause :=
  ⟨s!"ether src {formatMac mac}", fun frame ↦
    if frame.length < 12 then none else some (decide ((frame.drop 6).take 6 = mac.toList))⟩

def paren (c : Clause) : Clause := ⟨s!"({c.text})", c.answer⟩

def both (a b : Clause) : Clause :=
  ⟨s!"{a.text} and {b.text}", fun frame ↦ (a.answer frame).bind fun x ↦
    if x then b.answer frame else some false⟩

/-- The clauses are asked from left to right. -/
def anyOf (clauses : List Clause) : Clause :=
  ⟨" or ".intercalate (clauses.map text), fun frame ↦
    clauses.foldr (fun c later ↦ (c.answer frame).bind fun x ↦ if x then some true else later)
      (some false)⟩

end Clause

/-! ## The expressions -/

open Clause

/-- What is asked when there is no service. -/
def noFrames : Clause := ⟨"ip and not ip", askOf 0x0800 fun _ ↦ some false⟩

/-- The setting, if it is not blank.  What it says is up to the library. -/
def extraClause (meaning : String → Bytes → Option Bool) (extra : Option String) : Option Clause :=
  ((extra.map fun text ↦ String.ofList (Lib.trim text.toList)).filter (· ≠ "")).map fun text ↦
    ⟨text, meaning text⟩

/-- The source port counts where the frame was sent by this host, as far as that is known. -/
def sourceClause (ports : List UInt16) : Option (Vector UInt8 6) → Clause
  | some mac => paren (both (paren (etherSrc mac)) (paren (anyOf (ports.map srcPort))))
  | none => paren (anyOf (ports.map srcPort))

def serviceClause (ports : List UInt16) (localMac : Option (Vector UInt8 6)) : Clause :=
  anyOf [paren (anyOf (ports.map dstPort)), sourceClause ports localMac]

def normalClause (service : Clause) : Option Clause → Clause
  | some extra => paren (both (paren service) (paren extra))
  | none => paren service

def tunnelClauses : List Clause :=
  [paren (anyOf [udpDstPort 4789, udpDstPort 8472]), paren (ipProto 47), paren (ipProto 4),
    paren (ipProto 41)]

def taggedClauses : List Clause :=
  [paren (etherProto "ether proto 0x8100" 0x8100), paren (etherProto "ether proto 0x88a8" 0x88a8),
    paren (etherProto "ether proto 0x9100" 0x9100), paren (etherProto "ether proto 0x9200" 0x9200)]

def livePortFilterExpression (ports : List UInt16) (extra : Option Clause)
    (localMac : Option (Vector UInt8 6)) : Clause :=
  if ports.isEmpty then noFrames
  else anyOf (normalClause (serviceClause ports localMac) extra ::
    paren ipFragment :: (tunnelClauses ++ (taggedClauses ++ [ip6])))

def liveFailOpenExpression : Clause := anyOf (ip :: ip6 :: taggedClauses)

example : (livePortFilterExpression [80, 443] (extraClause (fun _ _ ↦ none) (some " tcp "))
    (some #v[2, 0, 0, 0, 0, 0x1f])).text =
    "(((dst port 80 or dst port 443) or ((ether src 02:00:00:00:00:1f) and " ++
      "(src port 80 or src port 443))) and (tcp)) or (ip and (ip[6:2] & 0x3fff != 0)) or " ++
      "(udp dst port 4789 or udp dst port 8472) or (ip proto 47) or (ip proto 4) or " ++
      "(ip proto 41) or (ether proto 0x8100) or (ether proto 0x88a8) or (ether proto 0x9100) or " ++
      "(ether proto 0x9200) or ip6" := by
  decide +kernel

/-! ## Texts -/

/-- The first clause of a filter stands first in its text. -/
theorem text_anyOf_cons (c : Clause) (cs : List Clause) :
    ∃ rest, (anyOf (c :: cs)).text.toList = c.text.toList ++ rest ∧
      (cs = [] → rest = []) ∧ (cs ≠ [] → ∃ later, rest = ' ' :: later) := by
  cases cs with
  | nil => exact ⟨[], by simp [anyOf], fun _ ↦ rfl, fun h ↦ absurd rfl h⟩
  | cons d ds =>
      refine ⟨" or ".toList ++ (anyOf (d :: ds)).text.toList, ?_, fun h ↦ (by cases h), fun _ ↦ ?_⟩
      · simp [anyOf, String.intercalate_cons_cons]
      · exact ⟨_, rfl⟩

theorem text_paren (c : Clause) : (paren c).text.toList = '(' :: (c.text.toList ++ [')']) := by
  simp [paren, toString]

theorem text_dstPort (port : UInt16) :
    (dstPort port).text.toList = "dst port ".toList ++ Nat.toDigits 10 port.toNat := by
  simp [dstPort, toString]

/-- The text of a filter starts with the first port, and what is behind the port says whether
there is another. -/
theorem text_livePortFilterExpression (port : UInt16) (ports : List UInt16) :
    ∃ c rest, (livePortFilterExpression (port :: ports) none none).text.toList =
      "((dst port ".toList ++ (Nat.toDigits 10 port.toNat ++ c :: rest) ∧ c.isDigit = false ∧
        (c = ')' ↔ ports = []) := by
  obtain ⟨a, ha, hnone, hsome⟩ := text_anyOf_cons (dstPort port) (ports.map dstPort)
  obtain ⟨b, hb, -⟩ := text_anyOf_cons (paren (anyOf ((port :: ports).map dstPort)))
    [sourceClause (port :: ports) none]
  obtain ⟨d, hd, -⟩ := text_anyOf_cons (paren (serviceClause (port :: ports) none))
    (paren ipFragment :: (tunnelClauses ++ (taggedClauses ++ [ip6])))
  have htext : (livePortFilterExpression (port :: ports) none none).text.toList =
      "((dst port ".toList ++ (Nat.toDigits 10 port.toNat ++ (a ++ [')'] ++ b ++ [')'] ++ d)) := by
    rw [livePortFilterExpression, if_neg (by simp), normalClause, hd, text_paren, serviceClause, hb,
      text_paren, List.map_cons, ha, text_dstPort]
    simp
  cases ports with
  | nil =>
      rw [hnone rfl] at htext
      exact ⟨_, _, htext, by decide, by simp⟩
  | cons next ports =>
      obtain ⟨later, hlater⟩ := hsome (by simp)
      rw [hlater] at htext
      exact ⟨_, _, htext, by decide, by simp⟩

/-- The digits of a number end where the digits of the text end. -/
theorem span_digits (n : ℕ) {c : Char} {rest : List Char} (h : c.isDigit = false) :
    (Nat.toDigits 10 n ++ c :: rest).span Char.isDigit = (Nat.toDigits 10 n, c :: rest) := by
  have hdigits : ∀ d ∈ Nat.toDigits 10 n, d.isDigit = true :=
    fun d hd ↦ Nat.isDigit_of_mem_toDigits (by decide) (by decide) hd
  rw [List.span_eq_takeWhile_dropWhile, List.takeWhile_append_of_pos hdigits,
    List.dropWhile_append_of_pos hdigits, List.takeWhile_cons_of_neg (by simp [h]),
    List.dropWhile_cons_of_neg (by simp [h]), List.append_nil]

/-- The filter of one port is the filter of no other list. -/
theorem eq_of_text_eq {ports : List UInt16} {port : UInt16}
    (h : (livePortFilterExpression ports none none).text =
      (livePortFilterExpression [port] none none).text) : ports = [port] := by
  have hlist := congrArg String.toList h
  obtain ⟨c, rest, hone, hdigit, hc⟩ := text_livePortFilterExpression port []
  cases ports with
  | nil =>
      rw [hone] at hlist
      simp [livePortFilterExpression, noFrames] at hlist
  | cons first ports =>
      obtain ⟨c', rest', hmany, hdigit', hc'⟩ := text_livePortFilterExpression first ports
      rw [hone, hmany, List.append_cancel_left_eq] at hlist
      have hsame := congrArg (List.span Char.isDigit) hlist
      rw [span_digits _ hdigit, span_digits _ hdigit', Prod.mk.injEq, List.cons.injEq] at hsame
      obtain ⟨hdigits, rfl, -⟩ := hsame
      have hfirst : first.toNat = port.toNat := by
        apply Nat.repr_injective
        rw [Nat.repr_eq_ofList_toDigits, Nat.repr_eq_ofList_toDigits, hdigits]
      rw [hc'.mp (hc.mpr rfl), UInt16.toNat_inj.mp hfirst]

/-! ## Answers -/

theorem loadHalf_eq_some {frame : Bytes} {i : ℕ} {x : UInt16} :
    loadHalf frame i = some x ↔ u16At frame i = .ok x := by
  unfold loadHalf
  cases u16At frame i with
  | error e => simp [Except.toOption]
  | ok y => simp [Except.toOption]

theorem exists_byte (frame : Bytes) {i : ℕ} (h : i < frame.length) : ∃ x, frame[i]? = some x :=
  ⟨_, List.getElem?_eq_getElem h⟩

theorem exists_u16At (frame : Bytes) {i : ℕ} (h : i + 2 ≤ frame.length) :
    ∃ x, u16At frame i = .ok x := by
  refine ⟨_, u16At_eq_ok.mpr ⟨frame[i], ?_, frame[i + 1], ?_, rfl⟩⟩
  · exact byteAt_eq_ok.mpr (List.getElem?_eq_getElem _)
  · exact byteAt_eq_ok.mpr (List.getElem?_eq_getElem _)

theorem askOf_of_eq {frame : Bytes} {etherType : UInt16} (h : u16At frame 12 = .ok etherType)
    (ask : Bytes → Option Bool) : askOf etherType ask frame = ask frame := by
  rw [askOf, loadHalf_eq_some.mpr h, Option.bind_some, if_pos rfl]

theorem isSome_askOf {frame : Bytes} {t etherType : UInt16} (ask : Bytes → Option Bool)
    (h : u16At frame 12 = .ok t) (hask : t = etherType → (ask frame).isSome) :
    (askOf etherType ask frame).isSome := by
  rw [askOf, loadHalf_eq_some.mpr h, Option.bind_some]
  split_ifs with heq
  · exact hask heq
  · rfl

namespace Clause

variable {frame : Bytes}

theorem isSome_anyOf {clauses : List Clause} (h : ∀ c ∈ clauses, (c.answer frame).isSome) :
    ((anyOf clauses).answer frame).isSome := by
  induction clauses with
  | nil => rfl
  | cons c clauses ih =>
      obtain ⟨x, hx⟩ := Option.isSome_iff_exists.mp (h c List.mem_cons_self)
      have hlater := ih fun c' hc' ↦ h c' (List.mem_cons_of_mem _ hc')
      simp only [anyOf, List.foldr_cons, hx, Option.bind_some] at hlater ⊢
      split_ifs
      · rfl
      · exact hlater

theorem isSome_anyOf_map {ports : List UInt16} {clause : UInt16 → Clause}
    (h : ∀ port, ((clause port).answer frame).isSome) :
    ((anyOf (ports.map clause)).answer frame).isSome := by
  apply isSome_anyOf
  intro c hc
  obtain ⟨port, -, rfl⟩ := List.mem_map.mp hc
  exact h port

/-- A clause that says yes is heard when the others can be read. -/
theorem anyOf_of_mem {clauses : List Clause} (hread : ∀ c ∈ clauses, (c.answer frame).isSome)
    {c : Clause} (hc : c ∈ clauses) (h : c.answer frame = some true) :
    (anyOf clauses).answer frame = some true := by
  induction clauses with
  | nil => exact absurd hc List.not_mem_nil
  | cons c' clauses ih =>
      obtain ⟨x, hx⟩ := Option.isSome_iff_exists.mp (hread c' List.mem_cons_self)
      have hlater := ih fun c hc ↦ hread c (List.mem_cons_of_mem _ hc)
      simp only [anyOf, List.foldr_cons, hx, Option.bind_some] at hlater ⊢
      cases x with
      | true => rfl
      | false =>
          rcases List.mem_cons.mp hc with rfl | hmem
          · rw [hx] at h
            cases h
          · exact hlater hmem

theorem isSome_both {a b : Clause} (ha : (a.answer frame).isSome) (hb : (b.answer frame).isSome) :
    ((both a b).answer frame).isSome := by
  obtain ⟨x, hx⟩ := Option.isSome_iff_exists.mp ha
  simp only [both, hx, Option.bind_some]
  split_ifs
  · exact hb
  · rfl

theorem both_of_true {a b : Clause} (ha : a.answer frame = some true)
    (hb : b.answer frame = some true) : (both a b).answer frame = some true := by
  simp only [both, ha, Option.bind_some, if_true, hb]

end Clause

/-- Every load of the filter is within the frame. -/
structure Readable (frame : Bytes) : Prop where
  header : 14 ≤ frame.length
  ipv4 : u16At frame 12 = .ok 0x0800 → 34 ≤ frame.length ∧
    ∀ first protocol frag, frame[14]? = some first → frame[23]? = some protocol →
      u16At frame 20 = .ok frag → protocol ∈ portProtocols → frag &&& 0x1fff = 0 →
      14 + (first &&& 0x0f).toNat * 4 + 4 ≤ frame.length
  ipv6 : u16At frame 12 = .ok 0x86dd → 21 ≤ frame.length ∧
    ∀ next, frame[20]? = some next → next ∈ portProtocols → 58 ≤ frame.length

namespace Readable

variable {frame : Bytes} {protocols : List UInt8} {offset : ℕ}

theorem etherType (h : Readable frame) : ∃ t, u16At frame 12 = .ok t :=
  exists_u16At frame (by have := h.header; omega)

theorem isSome_ipv4Port (h : Readable frame) (ht : u16At frame 12 = .ok 0x0800)
    (hprotocols : protocols ⊆ portProtocols) (hoffset : offset ≤ 2) (port : UInt16) :
    (ipv4Port protocols offset port frame).isSome := by
  obtain ⟨hlen, htransport⟩ := h.ipv4 ht
  obtain ⟨protocol, hprotocol⟩ := exists_byte frame (i := 23) (by omega)
  obtain ⟨first, hfirst⟩ := exists_byte frame (i := 14) (by omega)
  obtain ⟨frag, hfrag⟩ := exists_u16At frame (i := 20) (by omega)
  rw [ipv4Port, hprotocol, Option.bind_some]
  split_ifs with hmem
  · rw [loadHalf_eq_some.mpr hfrag, Option.bind_some]
    split_ifs with hlater
    · rfl
    · have hend := htransport first protocol frag hfirst hprotocol hfrag (hprotocols hmem)
        (not_not.mp hlater)
      obtain ⟨p, hp⟩ := exists_u16At frame
        (i := 14 + (first &&& 0x0f).toNat * 4 + offset) (by omega)
      rw [hfirst, Option.bind_some, loadHalf_eq_some.mpr hp]
      rfl
  · rfl

theorem isSome_ipv6Port (h : Readable frame) (ht : u16At frame 12 = .ok 0x86dd)
    (hprotocols : protocols ⊆ portProtocols) (hoffset : offset ≤ 2) (port : UInt16) :
    (ipv6Port protocols offset port frame).isSome := by
  obtain ⟨hlen, htransport⟩ := h.ipv6 ht
  obtain ⟨next, hnext⟩ := exists_byte frame (i := 20) (by omega)
  rw [ipv6Port, hnext, Option.bind_some]
  split_ifs with hmem
  · have hend := htransport next hnext (hprotocols hmem)
    obtain ⟨p, hp⟩ := exists_u16At frame (i := 54 + offset) (by omega)
    rw [loadHalf_eq_some.mpr hp]
    rfl
  · rfl

theorem isSome_portAt (h : Readable frame) (hprotocols : protocols ⊆ portProtocols)
    (hoffset : offset ≤ 2) (port : UInt16) : (portAt protocols offset port frame).isSome := by
  obtain ⟨t, ht⟩ := h.etherType
  rw [portAt, loadHalf_eq_some.mpr ht, Option.bind_some]
  split_ifs with hip hip6
  · exact h.isSome_ipv4Port (hip ▸ ht) hprotocols hoffset port
  · exact h.isSome_ipv6Port (hip6 ▸ ht) hprotocols hoffset port
  · rfl

theorem isSome_etherProto (h : Readable frame) (text : String) (n : UInt16) :
    ((etherProto text n).answer frame).isSome := by
  obtain ⟨t, ht⟩ := h.etherType
  exact isSome_askOf (fun _ ↦ some true) ht fun _ ↦ rfl

theorem isSome_ipProto (h : Readable frame) (n : UInt8) : ((ipProto n).answer frame).isSome := by
  obtain ⟨t, ht⟩ := h.etherType
  simp only [ipProto]
  refine isSome_askOf _ ht fun hip ↦ ?_
  obtain ⟨hlen, -⟩ := h.ipv4 (hip ▸ ht)
  obtain ⟨protocol, hprotocol⟩ := exists_byte frame (i := 23) (by omega)
  rw [hprotocol]
  rfl

theorem isSome_ipFragment (h : Readable frame) : (ipFragment.answer frame).isSome := by
  obtain ⟨t, ht⟩ := h.etherType
  simp only [ipFragment]
  refine isSome_askOf _ ht fun hip ↦ ?_
  obtain ⟨hlen, -⟩ := h.ipv4 (hip ▸ ht)
  obtain ⟨frag, hfrag⟩ := exists_u16At frame (i := 20) (by omega)
  rw [loadHalf_eq_some.mpr hfrag]
  rfl

theorem isSome_dstPort (h : Readable frame) (port : UInt16) :
    ((dstPort port).answer frame).isSome :=
  h.isSome_portAt (List.Subset.refl _) (le_refl 2) port

theorem isSome_srcPort (h : Readable frame) (port : UInt16) :
    ((srcPort port).answer frame).isSome :=
  h.isSome_portAt (List.Subset.refl _) (Nat.zero_le 2) port

theorem isSome_udpDstPort (h : Readable frame) (port : UInt16) :
    ((udpDstPort port).answer frame).isSome :=
  h.isSome_portAt (by decide) (le_refl 2) port

theorem isSome_etherSrc (h : Readable frame) (mac : Vector UInt8 6) :
    ((etherSrc mac).answer frame).isSome := by
  have hlen := h.header
  simp only [etherSrc]
  rw [if_neg (by omega)]
  rfl

theorem isSome_serviceParts (h : Readable frame) (ports : List UInt16)
    (localMac : Option (Vector UInt8 6)) :
    ∀ c ∈ [paren (anyOf (ports.map dstPort)), sourceClause ports localMac],
      (c.answer frame).isSome := by
  have hsrc : ((anyOf (ports.map srcPort)).answer frame).isSome := isSome_anyOf_map h.isSome_srcPort
  intro c hc
  simp only [List.mem_cons, List.not_mem_nil, or_false] at hc
  rcases hc with rfl | rfl
  · exact isSome_anyOf_map h.isSome_dstPort
  · cases localMac with
    | none => exact hsrc
    | some mac => exact isSome_both (h.isSome_etherSrc mac) hsrc

theorem isSome_serviceClause (h : Readable frame) (ports : List UInt16)
    (localMac : Option (Vector UInt8 6)) : ((serviceClause ports localMac).answer frame).isSome :=
  isSome_anyOf (h.isSome_serviceParts ports localMac)

theorem isSome_normalClause (h : Readable frame) (ports : List UInt16)
    (localMac : Option (Vector UInt8 6)) {extra : Option Clause}
    (hextra : ∀ c ∈ extra, c.answer frame = some true) :
    ((normalClause (serviceClause ports localMac) extra).answer frame).isSome := by
  have hservice := h.isSome_serviceClause ports localMac
  cases extra with
  | none => exact hservice
  | some c =>
      refine isSome_both hservice ?_
      rw [show (paren c).answer frame = some true from hextra c rfl]
      rfl

theorem isSome_otherClauses (h : Readable frame) :
    ∀ c ∈ paren ipFragment :: (tunnelClauses ++ (taggedClauses ++ [ip6])),
      (c.answer frame).isSome := by
  intro c hc
  simp only [tunnelClauses, taggedClauses, List.mem_cons, List.mem_append, List.not_mem_nil,
    or_false] at hc
  rcases hc with rfl | (rfl | rfl | rfl | rfl) | (rfl | rfl | rfl | rfl) | rfl
  · exact h.isSome_ipFragment
  · refine isSome_anyOf fun c hc ↦ ?_
    simp only [List.mem_cons, List.not_mem_nil, or_false] at hc
    rcases hc with rfl | rfl
    · exact h.isSome_udpDstPort 4789
    · exact h.isSome_udpDstPort 8472
  · exact h.isSome_ipProto 47
  · exact h.isSome_ipProto 4
  · exact h.isSome_ipProto 41
  · exact h.isSome_etherProto _ _
  · exact h.isSome_etherProto _ _
  · exact h.isSome_etherProto _ _
  · exact h.isSome_etherProto _ _
  · exact h.isSome_etherProto _ _

end Readable

/-! ## What is shown of a frame -/

/-- `ethernet_source_mac`. -/
def ethernetSourceMac (frame : Bytes) : Option Bytes :=
  if frame.length < 12 then none else some ((frame.drop 6).take 6)

/-- `ignores_ethernet_frame`: the frame was sent by this host. -/
def ignoresEthernetFrame (localMac : Option (Vector UInt8 6)) (frame : Bytes) : Bool :=
  localMac.any fun mac ↦ decide (ethernetSourceMac frame = some mac.toList)

/-- Nothing is shown, and nothing waits for more. -/
structure Hidden (services : ServiceMap) (localEgress : Bool) (r : Decoded) : Prop where
  not_pending : r.1 ≠ .ok .pendingFragment
  not_visible : ∀ packet, r.1 = .ok (.packet packet) →
    serviceFlowVisible (packetScope services packet) .pcapLive localEgress = false

section

variable {services : ServiceMap} {localEgress : Bool} {d : PacketDecoder}
  {inner : Link → ℕ → Bytes → UInt64 → SharedFragmentCache → Decoded} {depth : ℕ}
  {frame : Bytes} {cache : SharedFragmentCache}

theorem Hidden.error (e : DecodeError) : Hidden services localEgress (.error e, cache) :=
  ⟨by simp, by simp⟩

theorem Hidden.ignored : Hidden services localEgress (.ok .ignored, cache) := ⟨by simp, by simp⟩

theorem Hidden.andThen {α : Type} {r : Except DecodeError α} {f : α → Decoded}
    (h : ∀ a, r = .ok a → Hidden services localEgress (f a)) :
    Hidden services localEgress (andThen r cache f) := by
  cases r with
  | error e => exact .error e
  | ok a => exact h a rfl

/-- What is to be shown of a packet that this host has sent, or received. -/
theorem Hidden.of_unseen {r : Decoded}
    (h : Unseen services (if localEgress then none else some false) cache r) :
    Hidden services localEgress r where
  not_pending := h.not_pending
  not_visible packet hpacket := by
    have hports := h.ports packet hpacket
    cases localEgress <;> simp_all [serviceMatch, serviceFlowVisible, packetScope]

/-- A payload that is too short for ports. -/
theorem hidden_decodeIpPayload {protocol : UInt8} {wireLen : ℕ} {src dst : IpAddr} {payload : Bytes}
    {l2Domain : UInt64} (hprotocol : protocol ∈ portProtocols) (hshort : payload.length < 4) :
    Hidden services localEgress
      (d.decodeIpPayload inner depth wireLen src dst protocol payload l2Domain cache) := by
  have htcp : parseTcp d.tsNs wireLen src dst payload l2Domain =
      .error (.bail "truncated tcp header") := by
    rw [parseTcp, ensure, if_neg (by omega)]
    rfl
  have hudp : parseUdp payload = .error (.bail "truncated udp header") := by
    rw [parseUdp, ensure, if_neg (by omega)]
    rfl
  simp only [portProtocols, List.mem_cons, List.not_mem_nil, or_false] at hprotocol
  rcases hprotocol with rfl | rfl | rfl
  · rw [PacketDecoder.decodeIpPayload, if_pos rfl, htcp]
    exact .error _
  · rw [PacketDecoder.decodeIpPayload, if_neg (by decide), if_pos rfl, PacketDecoder.decodeUdp,
      hudp]
    exact .error _
  · rw [PacketDecoder.decodeIpPayload, if_neg (by decide), if_neg (by decide)]
    split_ifs with htunnel hgre hipip hsix
    · exact absurd hgre (by decide)
    · exact absurd hipip (by decide)
    · exact absurd hsix (by decide)
    · exact .ignored
    · exact .ignored

/-- A first fragment that is too short for ports is invalid. -/
theorem hidden_decodeFragment {key : FragmentKey} {offset wireLen : ℕ} {payload : Bytes}
    {whole : ℕ → Bytes → SharedFragmentCache → Decoded} (hshort : payload.length < 4) :
    Hidden services localEgress (d.decodeFragment key offset true payload wireLen whole cache) := by
  have hdropped : (cache.insert d.now key offset true payload wireLen).2 = .droppedInvalid := by
    have hodd : payload = [] ∨ payload.length % 8 ≠ 0 := by
      rcases payload with - | ⟨b, payload⟩
      · exact .inl rfl
      · right
        rw [List.length_cons] at hshort ⊢
        omega
    simp only [SharedFragmentCache.insert, FragmentCache.insert]
    split_ifs
    · rfl
    · rfl
    · rename_i h
      exact absurd (.inr ⟨trivial, hodd⟩) h
  rw [PacketDecoder.decodeFragment]
  simp only [hdropped]
  exact .ignored

/-- Decoding a frame without a tag. -/
theorem decode_of_etherType {t : UInt16} {wireLen : ℕ} (hlen : 14 ≤ frame.length)
    (ht : u16At frame 12 = .ok t) (htag : ¬ IsVlanTag t) : d.decode wireLen frame cache =
      if t = etherTypeIpv4 then
        d.decodeIpv4 (d.decodeLink maxTunnelDepth 1) 0 wireLen (frame.drop 14) 0 cache
      else if t = etherTypeIpv6 then
        d.decodeIpv6 (d.decodeLink maxTunnelDepth 1) 0 wireLen (frame.drop 14) 0 cache
      else (.ok .ignored, cache) := by
  have hheader : parseEthernet frame 0 = .ok ⟨t, 14, 0⟩ := by
    rw [parseEthernet]
    refine bind_eq_ok.mpr ⟨(), ensure_eq_ok.mpr hlen, bind_eq_ok.mpr ⟨t, ht, ?_⟩⟩
    rw [skipVlans, if_neg htag]
  have hslice : slice frame 14 frame.length = .ok (frame.drop 14) :=
    slice_eq_ok.mpr ⟨⟨hlen, le_rfl⟩, by rw [List.take_length]⟩
  show d.decodeEthernetBytes _ 0 wireLen frame 0 cache = _
  rw [PacketDecoder.decodeEthernetBytes, if_neg (by decide), hheader]
  simp only [andThen, hslice]
  rfl

theorem decode_short {wireLen : ℕ} (hlen : frame.length < 14) :
    Hidden services localEgress (d.decode wireLen frame cache) := by
  have hheader : parseEthernet frame 0 = .error (.bail "truncated ethernet header") := by
    rw [parseEthernet, ensure, if_neg (by omega)]
    rfl
  show Hidden _ _ (d.decodeEthernetBytes _ 0 wireLen frame 0 cache)
  rw [PacketDecoder.decodeEthernetBytes, if_neg (by decide), hheader]
  exact .error _

/-- What the header of a decoded IPv4 packet tells about the frame. -/
theorem parseIpv4_frame {header : Ipv4} (h : parseIpv4 (frame.drop 14) = .ok header) :
    34 ≤ frame.length ∧ frame[23]? = some header.protocol ∧ u16At frame 20 = .ok header.frag ∧
      ∃ first, frame[14]? = some first ∧
        header.payload.length ≤ frame.length - (14 + (first &&& 0x0f).toNat * 4) := by
  obtain ⟨hprotocol, hfrag, first, totalLen, hfirst, hpayload⟩ := parseIpv4_readFrom h
  have hlen : 20 ≤ (frame.drop 14).length := by
    simp only [parseIpv4, bind_eq_ok, ensure_eq_ok] at h
    exact h.choose_spec.1
  obtain ⟨⟨hstart, hend⟩, hpayload⟩ := slice_eq_ok.mp hpayload
  have hshort : header.payload.length ≤ (frame.drop 14).length - (first &&& 0x0f).toNat * 4 := by
    rw [← hpayload, List.length_drop, List.length_take]
    omega
  rw [List.length_drop] at hlen hshort
  rw [byteAt_drop, byteAt_eq_ok] at hprotocol hfirst
  rw [u16At_drop] at hfrag
  exact ⟨by omega, hprotocol, hfrag, first, hfirst, by omega⟩

/-- A frame that the filter cannot read to its end has nothing to show. -/
theorem hidden_of_not_readable {wireLen : ℕ} (h : ¬ Readable frame) :
    Hidden services localEgress (d.decode wireLen frame cache) := by
  rcases Nat.lt_or_ge frame.length 14 with hlen | hlen
  · exact decode_short hlen
  obtain ⟨t, ht⟩ := exists_u16At frame (i := 12) (by omega)
  by_cases htag : IsVlanTag t
  · refine absurd ⟨hlen, fun hip ↦ ?_, fun hip6 ↦ ?_⟩ h
    · rw [Except.ok.inj (ht.symm.trans hip)] at htag
      exact absurd htag (by decide)
    · rw [Except.ok.inj (ht.symm.trans hip6)] at htag
      exact absurd htag (by decide)
  rw [decode_of_etherType hlen ht htag]
  split_ifs with hip hip6
  · refine .andThen fun header hheader ↦ ?_
    obtain ⟨hlen34, hprotocol, hfrag, first, hfirst, hpayload⟩ := parseIpv4_frame hheader
    -- the header can be read, so it is the ports that are beyond the end
    have hports : header.protocol ∈ portProtocols ∧ header.frag &&& 0x1fff = 0 ∧
        frame.length < 14 + (first &&& 0x0f).toNat * 4 + 4 := by
      by_contra hnot
      refine h ⟨hlen, fun _ ↦ ⟨hlen34, fun first' protocol frag hf hp hg hmem hmask ↦ ?_⟩,
        fun hip6 ↦ ?_⟩
      · obtain rfl : first = first' := Option.some.inj (hfirst.symm.trans hf)
        obtain rfl : header.protocol = protocol := Option.some.inj (hprotocol.symm.trans hp)
        obtain rfl : header.frag = frag := Except.ok.inj (hfrag.symm.trans hg)
        by_contra hend
        exact hnot ⟨hmem, hmask, by omega⟩
      · rw [hip] at ht
        exact absurd (Except.ok.inj (ht.symm.trans hip6)) (by decide)
    obtain ⟨hmem, hmask, hend⟩ := hports
    have hshort : header.payload.length < 4 := by omega
    have hoffset : header.offset = 0 := by
      rw [Ipv4.offset, hmask]
      rfl
    dsimp only
    split_ifs with hfragment
    · rw [hfragment.resolve_left (fun hne ↦ hne hoffset)]
      exact hidden_decodeFragment hshort
    · exact hidden_decodeIpPayload hmem hshort
  · refine .andThen fun header hheader ↦ ?_
    obtain ⟨hlen54, hnext, hend⟩ : 54 ≤ frame.length ∧ frame[20]? = some header.next ∧
        header.ipLen ≤ frame.length - 14 := by
      simp only [parseIpv6, bind_eq_ok, ensure_eq_ok, pure, Except.pure, Except.ok.injEq] at hheader
      obtain ⟨-, hlen40, -, -, -, -, payloadLen, -, -, hend, -, -, -, -, next, hnext, rfl⟩ := hheader
      rw [List.length_drop] at hlen40 hend
      rw [byteAt_drop, byteAt_eq_ok] at hnext
      exact ⟨by omega, hnext, hend⟩
    have hports : header.next ∈ portProtocols ∧ frame.length < 58 := by
      by_contra hnot
      refine h ⟨hlen, fun hip ↦ ?_, fun _ ↦ ⟨by omega, fun next hn hmem ↦ ?_⟩⟩
      · rw [hip6] at ht
        exact absurd (Except.ok.inj (ht.symm.trans hip)) (by decide)
      · obtain rfl : header.next = next := Option.some.inj (hnext.symm.trans hn)
        by_contra hshort
        exact hnot ⟨hmem, by omega⟩
    obtain ⟨hmem, hshort⟩ := hports
    have hwalk : walkExtensions PacketDecoder.ipv6Texts (frame.drop 14) header.ipLen
        (header.ipLen + 1) ⟨header.next, 40⟩ = .ok ⟨header.next, 40⟩ := by
      simp only [portProtocols, List.mem_cons, List.not_mem_nil, or_false] at hmem
      rcases hmem with heq | heq | heq <;> rw [heq] <;> rfl
    rw [hwalk]
    have hnot44 : header.next ≠ 44 := by
      rintro heq
      rw [heq] at hmem
      exact absurd hmem (by decide)
    simp only [andThen, if_neg hnot44]
    split_ifs with hoffset
    · exact .error _
    · refine Hidden.andThen (r := slice (frame.drop 14) 40 header.ipLen) fun payload hpayload ↦ ?_
      obtain ⟨-, hpayload⟩ := slice_eq_ok.mp hpayload
      refine hidden_decodeIpPayload hmem ?_
      rw [← hpayload, List.length_drop, List.length_take, List.length_drop]
      omega
  · exact .ignored

end

/-! ## What the filter withholds -/

section

variable {services : ServiceMap} {d : PacketDecoder} {frame : Bytes} {cache : SharedFragmentCache}
  {ports : List UInt16} {extra : Option Clause} {localMac : Option (Vector UInt8 6)}

theorem portAt_of_ipv4 {protocols : List UInt8} {offset : ℕ} {protocol first : UInt8}
    {frag port : UInt16} (ht : u16At frame 12 = .ok 0x0800) (hprotocol : frame[23]? = some protocol)
    (hmem : protocol ∈ protocols) (hfrag : u16At frame 20 = .ok frag) (hmask : frag &&& 0x1fff = 0)
    (hfirst : frame[14]? = some first)
    (hport : u16At frame (14 + (first &&& 0x0f).toNat * 4 + offset) = .ok port) :
    portAt protocols offset port frame = some true := by
  rw [portAt, loadHalf_eq_some.mpr ht, Option.bind_some, if_pos rfl, ipv4Port, hprotocol,
    Option.bind_some, if_pos hmem, loadHalf_eq_some.mpr hfrag, Option.bind_some,
    if_neg (not_not.mpr hmask), hfirst, Option.bind_some, loadHalf_eq_some.mpr hport,
    Option.map_some, decide_eq_true rfl]

/-- Every clause of a filter that withholds a readable frame says no. -/
theorem Readable.withheld (h : Readable frame) (hports : ports.isEmpty = false)
    (hextra : ∀ c ∈ extra, c.answer frame = some true)
    (hwithheld : (livePortFilterExpression ports extra localMac).answer frame ≠ some true) :
    (serviceClause ports localMac).answer frame ≠ some true ∧
      ∀ c ∈ paren ipFragment :: (tunnelClauses ++ (taggedClauses ++ [ip6])),
        c.answer frame ≠ some true := by
  rw [livePortFilterExpression, if_neg (by rw [hports]; exact Bool.false_ne_true)] at hwithheld
  have hread : ∀ c ∈ normalClause (serviceClause ports localMac) extra ::
      paren ipFragment :: (tunnelClauses ++ (taggedClauses ++ [ip6])), (c.answer frame).isSome := by
    intro c hc
    rcases List.mem_cons.mp hc with rfl | hc
    · exact h.isSome_normalClause ports localMac hextra
    · exact h.isSome_otherClauses c hc
  constructor
  · intro hservice
    refine hwithheld (anyOf_of_mem hread List.mem_cons_self ?_)
    cases extra with
    | none => exact hservice
    | some c => exact both_of_true hservice (hextra c rfl)
  · intro c hc hyes
    exact hwithheld (anyOf_of_mem hread (List.mem_cons_of_mem _ hc) hyes)

/-- Asking for one port of a list. -/
theorem anyOf_map_of_mem {clause : UInt16 → Clause} {port : UInt16}
    (hread : ∀ port, ((clause port).answer frame).isSome)
    (hyes : (clause port).answer frame = some true) (hmem : port ∈ ports) :
    (anyOf (ports.map clause)).answer frame = some true := by
  refine anyOf_of_mem (fun c hc ↦ ?_) (List.mem_map_of_mem hmem) hyes
  obtain ⟨p, -, rfl⟩ := List.mem_map.mp hc
  exact hread p

/-- The ports of a frame of which the service clause says no. -/
theorem Readable.port_notMem (h : Readable frame) {port : UInt16}
    (hservice : (serviceClause ports localMac).answer frame ≠ some true) :
    ((dstPort port).answer frame = some true → port ∉ ports) ∧
      ((srcPort port).answer frame = some true → ignoresEthernetFrame localMac frame = true →
        port ∉ ports) := by
  constructor
  · intro hyes hmem
    exact hservice (anyOf_of_mem (h.isSome_serviceParts ports localMac) List.mem_cons_self
      (anyOf_map_of_mem h.isSome_dstPort hyes hmem))
  · intro hyes hown hmem
    have hall := anyOf_map_of_mem h.isSome_srcPort hyes hmem
    apply hservice
    refine anyOf_of_mem (h.isSome_serviceParts ports localMac)
      (List.mem_cons_of_mem _ List.mem_cons_self) ?_
    cases localMac with
    | none => cases hown
    | some mac =>
        have hsource : ethernetSourceMac frame = some mac.toList := of_decide_eq_true hown
        unfold ethernetSourceMac at hsource
        split_ifs at hsource with hshort
        refine both_of_true ?_ hall
        simp only [paren, etherSrc]
        rw [if_neg hshort, Option.some.inj hsource, decide_eq_true rfl]

/-- Nothing of a frame is shown that has no tag, is no IPv6 and is withheld. -/
theorem hidden_decodeIpv4 {wireLen : ℕ} {header : Ipv4} (h : Readable frame)
    (ht : u16At frame 12 = .ok 0x0800) (hheader : parseIpv4 (frame.drop 14) = .ok header)
    (hmem : ∀ p, p ∈ ports ↔ services.containsKey p = true)
    (hservice : (serviceClause ports localMac).answer frame ≠ some true)
    (hothers : ∀ c ∈ paren ipFragment :: (tunnelClauses ++ (taggedClauses ++ [ip6])),
      c.answer frame ≠ some true) :
    Hidden services (ignoresEthernetFrame localMac frame)
      (d.decodeIpv4 (d.decodeLink maxTunnelDepth 1) 0 wireLen (frame.drop 14) 0 cache) := by
  obtain ⟨hlen, hprotocol, hfrag, first, hfirst, -⟩ := parseIpv4_frame hheader
  have hmask : header.frag &&& 0x3fff = 0 := by
    by_contra hne
    refine hothers (paren ipFragment) (by simp) ?_
    simp only [paren, ipFragment]
    rw [askOf_of_eq ht, loadHalf_eq_some.mpr hfrag, Option.map_some, decide_eq_true hne]
  have hwhole : header.frag &&& 0x1fff = 0 := by
    rw [show (0x1fff : UInt16) = 0x3fff &&& 0x1fff from rfl, ← UInt16.and_assoc, hmask]
    rfl
  have htunnel : ∀ n : UInt8, paren (ipProto n) ∈ tunnelClauses → header.protocol ≠ n := by
    rintro n hn rfl
    refine hothers (paren (ipProto header.protocol)) (by simp [hn]) ?_
    simp only [paren, ipProto]
    rw [askOf_of_eq ht, hprotocol, Option.map_some, decide_eq_true rfl]
  apply Hidden.of_unseen
  apply unseen_decodeIpv4
  refine ⟨⟨header.frag, hfrag, hmask⟩, first, header.protocol, byteAt_eq_ok.mpr hfirst,
    byteAt_eq_ok.mpr hprotocol, fun hports ↦ ?_, fun htunnels ↦ ?_⟩
  · have hportal : header.protocol ∈ portProtocols := by
      rcases hports with heq | heq <;> rw [heq] <;> decide
    have hend := (h.ipv4 ht).2 first header.protocol header.frag hfirst hprotocol hfrag hportal
      hwhole
    obtain ⟨src, hsrc⟩ := exists_u16At frame (i := 14 + (first &&& 0x0f).toNat * 4)
      (by omega)
    obtain ⟨dst, hdst⟩ := exists_u16At frame (i := 14 + (first &&& 0x0f).toNat * 4 + 2)
      (by omega)
    have hdstMem := (h.port_notMem hservice).1
      (portAt_of_ipv4 ht hprotocol hportal hfrag hwhole hfirst hdst)
    have hsrcMem := (h.port_notMem hservice).2
      (portAt_of_ipv4 ht hprotocol hportal hfrag hwhole hfirst hsrc)
    rw [hmem, Bool.not_eq_true] at hdstMem hsrcMem
    refine ⟨src, dst, hsrc, hdst, ?_, ?_⟩
    · cases hown : ignoresEthernetFrame localMac frame with
      | true => simp [serviceMatch, hdstMem, hsrcMem hown]
      | false => simp [serviceMatch, hdstMem]
    · rintro ⟨-, hudp, hvxlan⟩
      have hyes : ∀ port, dst = port → (udpDstPort port).answer frame = some true := by
        rintro port rfl
        exact portAt_of_ipv4 ht hprotocol (by rw [hudp]; decide) hfrag hwhole hfirst hdst
      have hread : ∀ c ∈ [udpDstPort 4789, udpDstPort 8472], (c.answer frame).isSome := by
        intro c hc
        simp only [List.mem_cons, List.not_mem_nil, or_false] at hc
        rcases hc with rfl | rfl
        · exact h.isSome_udpDstPort 4789
        · exact h.isSome_udpDstPort 8472
      refine hothers (paren (anyOf [udpDstPort 4789, udpDstPort 8472])) (by simp [tunnelClauses]) ?_
      rcases hvxlan with heq | heq
      · exact anyOf_of_mem hread (by simp) (hyes 4789 heq)
      · exact anyOf_of_mem hread (by simp) (hyes 8472 heq)
  · rcases htunnels with heq | heq | heq
    · exact absurd heq (htunnel 47 (by simp [tunnelClauses]))
    · exact absurd heq (htunnel 4 (by simp [tunnelClauses]))
    · exact absurd heq (htunnel 41 (by simp [tunnelClauses]))

/-- What the live filter withholds is not shown, and is no part of a datagram that might be. -/
theorem hidden_of_withheld {wireLen : ℕ} (hservices : services.isEmpty = false)
    (hmem : ∀ p, p ∈ ports ↔ services.containsKey p = true)
    (hextra : ∀ c ∈ extra, c.answer frame = some true)
    (hwithheld : (livePortFilterExpression ports extra localMac).answer frame ≠ some true) :
    Hidden services (ignoresEthernetFrame localMac frame) (d.decode wireLen frame cache) := by
  by_cases h : Readable frame
  · have hports : ports.isEmpty = false := by
      rw [List.isEmpty_eq_false_iff]
      rintro rfl
      have hnone : services.isEmpty = true := ServiceMap.isEmpty_iff.mpr fun port ↦ by
        simpa using (hmem port).not
      rw [hservices] at hnone
      cases hnone
    obtain ⟨hservice, hothers⟩ := h.withheld hports hextra hwithheld
    obtain ⟨t, ht⟩ := h.etherType
    have hproto : ∀ text n, etherProto text n ∈ [ip6] ∨
        paren (etherProto text n) ∈ taggedClauses → t ≠ n := by
      rintro text n hin rfl
      have hyes : (etherProto text t).answer frame = some true :=
        askOf_of_eq ht fun _ ↦ some true
      rcases hin with hin | hin
      · exact hothers _ (by simp [hin]) hyes
      · exact hothers (paren (etherProto text t)) (by simp [hin]) hyes
    have htag : ¬ IsVlanTag t := by
      rintro (heq | heq | heq | heq)
      · exact hproto "ether proto 0x8100" _ (.inr (by simp [taggedClauses])) heq
      · exact hproto "ether proto 0x88a8" _ (.inr (by simp [taggedClauses])) heq
      · exact hproto "ether proto 0x9100" _ (.inr (by simp [taggedClauses])) heq
      · exact hproto "ether proto 0x9200" _ (.inr (by simp [taggedClauses])) heq
    have hip6 : t ≠ etherTypeIpv6 := hproto "ip6" _ (.inl (List.mem_singleton_self _))
    rw [decode_of_etherType h.header ht htag]
    split_ifs with hip
    · subst hip
      cases hheader : parseIpv4 (frame.drop 14) with
      | error e =>
          rw [PacketDecoder.decodeIpv4, hheader]
          exact .error e
      | ok header => exact hidden_decodeIpv4 h ht hheader hmem hservice hothers
    · exact .ignored
  · exact hidden_of_not_readable h

/-- What the filter withholds that stands in for a rejected one is not decoded at all. -/
theorem hidden_of_failOpen {wireLen : ℕ} {localEgress : Bool}
    (hwithheld : liveFailOpenExpression.answer frame ≠ some true) :
    Hidden services localEgress (d.decode wireLen frame cache) := by
  rcases Nat.lt_or_ge frame.length 14 with hlen | hlen
  · exact decode_short hlen
  obtain ⟨t, ht⟩ := exists_u16At frame (i := 12) (by omega)
  have hread : ∀ c ∈ ip :: ip6 :: taggedClauses, (c.answer frame).isSome := by
    intro c hc
    have hproto : ∃ text n, c.answer = (etherProto text n).answer := by
      simp only [taggedClauses, List.mem_cons, List.not_mem_nil, or_false] at hc
      rcases hc with rfl | rfl | rfl | rfl | rfl | rfl
      all_goals exact ⟨_, _, rfl⟩
    obtain ⟨text, n, heq⟩ := hproto
    rw [heq]
    exact isSome_askOf (fun _ ↦ some true) ht fun _ ↦ rfl
  have hnot : ∀ c ∈ ip :: ip6 :: taggedClauses, c.answer frame ≠ some true :=
    fun c hc hyes ↦ hwithheld (anyOf_of_mem hread hc hyes)
  have hyes : ∀ text, (etherProto text t).answer frame = some true := fun text ↦
    askOf_of_eq ht fun _ ↦ some true
  have htag : ¬ IsVlanTag t := by
    rintro (rfl | rfl | rfl | rfl)
    · exact hnot (paren (etherProto "ether proto 0x8100" 0x8100)) (by simp [taggedClauses])
        (hyes "ether proto 0x8100")
    · exact hnot (paren (etherProto "ether proto 0x88a8" 0x88a8)) (by simp [taggedClauses])
        (hyes "ether proto 0x88a8")
    · exact hnot (paren (etherProto "ether proto 0x9100" 0x9100)) (by simp [taggedClauses])
        (hyes "ether proto 0x9100")
    · exact hnot (paren (etherProto "ether proto 0x9200" 0x9200)) (by simp [taggedClauses])
        (hyes "ether proto 0x9200")
  rw [decode_of_etherType hlen ht htag]
  split_ifs with hip hip6
  · subst hip
    exact absurd (hyes "ip") (hnot ip (by simp))
  · subst hip6
    exact absurd (hyes "ip6") (hnot ip6 (by simp))
  · exact .ignored

end

end Bazalt.Capture
