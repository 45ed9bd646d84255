import Bazalt.Model
import Bazalt.Lib.Run
import Bazalt.Lib.Trim

/-!
# Throttle rules

An operator sets a drop percentage for one IPv4 source or for the group that it belongs to, with
a time to live.  The rules are in a trie of the kernel, where an XDP program looks the source of
every packet up, and in a book of the manager, which takes expired rules out of both when it is
next called.

The lookup takes the longest rule that covers the source and looks at its expiry afterwards.  An
expired rule that is still in the trie hides the live rules that are shorter.
-/

namespace Bazalt.Topology

open Lib

/-! ## Targets -/

abbrev Ipv4Addr := BitVec 32

def networkFor (ip : Ipv4Addr) (prefixLen : ℕ) : Ipv4Addr :=
  ip &&& match prefixLen with
    | 0 => 0
    | 32 => BitVec.allOnes 32
    | bits => BitVec.allOnes 32 <<< (32 - bits)

structure Ipv4Target where
  network : Ipv4Addr
  prefixLen : ℕ
  deriving DecidableEq, Repr

/-- The value of a text of decimal digits, and of no other text. -/
def decimal? (text : List Char) : Option ℕ :=
  if text.isEmpty || !text.all Char.isDigit then none
  else some (text.foldl (fun n c ↦ n * 10 + (c.toNat - '0'.toNat)) 0)

/-- `str::parse::<u8>`, which takes a leading plus sign. -/
def parseU8 (text : List Char) : Option ℕ :=
  let digits := match text with
    | '+' :: rest => rest
    | _ => text
  (decimal? digits).filter (· ≤ 255)

/-- An octet of an address has one to three digits and no leading zero. -/
def parseOctet (text : List Char) : Option ℕ :=
  if 3 < text.length ∨ (1 < text.length ∧ text.head? = some '0') then none
  else (decimal? text).filter (· ≤ 255)

/-- `str::parse::<Ipv4Addr>`. -/
def parseIpv4Addr (text : List Char) : Option Ipv4Addr :=
  match (text.splitOn '.').mapM parseOctet with
  | some [a, b, c, d] => some (BitVec.ofNat 32 (((a * 256 + b) * 256 + c) * 256 + d))
  | _ => none

namespace Ipv4Target

def parse (value : List Char) : Except String Ipv4Target := do
  let trimmed := trim value
  let cut := trimmed.span (· ≠ '/')
  let prefixLen ← match cut.2 with
    | [] => pure 32
    | _ :: bits =>
        match parseU8 bits with
        | none => throw ("invalid IPv4 prefix in " ++ String.ofList trimmed)
        | some bits =>
            if 32 < bits then throw "IPv4 prefix must be between 0 and 32" else pure bits
  match parseIpv4Addr cut.1 with
  | none => throw ("invalid IPv4 address: " ++ String.ofList cut.1)
  | some ip => pure ⟨networkFor ip prefixLen, prefixLen⟩

def canonical (target : Ipv4Target) : List Char :=
  let n := target.network.toNat
  let octets := [n / 2 ^ 24, n / 2 ^ 16 % 256, n / 2 ^ 8 % 256, n % 256]
  let ip := ['.'].intercalate (octets.map (Nat.toDigits 10))
  if target.prefixLen = 32 then ip else ip ++ '/' :: Nat.toDigits 10 target.prefixLen

/-- The target is one of the prefixes of the address. -/
def Covers (target : Ipv4Target) (addr : Ipv4Addr) : Prop :=
  target.prefixLen ≤ 32 ∧ target.network = networkFor addr target.prefixLen

end Ipv4Target

def canonicalThrottleTarget (groupPrefixV4 : ℕ) (value : List Char) : Except String (List Char) := do
  let target ← Ipv4Target.parse value
  if target.prefixLen ≠ groupPrefixV4 ∧ target.prefixLen ≠ 32 then
    throw ("throttle target must be an automatic /" ++ toString groupPrefixV4 ++
      " group or one IPv4 source (/32), got /" ++ toString target.prefixLen)
  pure target.canonical

/-! ## The XDP program -/

/-- A penalty and the time at which it ends. -/
structure Rule where
  dropPercent : ℕ
  expiresAtNs : ℕ
  deriving DecidableEq, Repr

structure ThrottleValue where
  rule : Rule
  seenPackets : ℕ := 0
  seenBytes : ℕ := 0
  droppedPackets : ℕ := 0
  droppedBytes : ℕ := 0
  deriving DecidableEq, Repr

/-- A map from targets, as the trie and the book are used. -/
abbrev Rules (α : Type) := Ipv4Target → Option α

def Rules.set {α : Type} (rules : Rules α) (target : Ipv4Target) (value : Option α) : Rules α :=
  fun t ↦ if t = target then value else rules t

/-- The lookup of the trie: the longest target that covers the address. -/
def Rules.longest {α : Type} (rules : Rules α) (addr : Ipv4Addr) : Option (Ipv4Target × α) :=
  (List.range 33).reverse.findSome? fun bits ↦
    (rules ⟨networkFor addr bits, bits⟩).map (⟨networkFor addr bits, bits⟩, ·)

def Rule.expired (rule : Rule) (now : ℕ) : Bool :=
  rule.expiresAtNs != 0 && decide (rule.expiresAtNs ≤ now)

/-- The rule that the program applies to a packet from the address. -/
def appliedRule (trie : Rules ThrottleValue) (now : ℕ) (addr : Ipv4Addr) :
    Option (Ipv4Target × ThrottleValue) :=
  (trie.longest addr).filter fun found ↦
    found.2.rule.dropPercent != 0 && !found.2.rule.expired now

inductive Verdict where
  | pass
  | drop
  deriving DecidableEq, Repr

def readBe16 (frame : Bytes) (i : ℕ) : ℕ := (frame.getD i 0).toNat * 256 + (frame.getD (i + 1) 0).toNat

def isVlan (proto : ℕ) : Bool := proto == 0x8100 || proto == 0x88a8

/-- One VLAN tag, if there is one.  The frame may end in the middle of it. -/
def skipVlan (frame : Bytes) (proto offset : ℕ) : Option (ℕ × ℕ) :=
  if isVlan proto then
    if frame.length < offset + 4 then none else some (readBe16 frame (offset + 2), offset + 4)
  else some (proto, offset)

/-- The source address of an IPv4 frame. -/
def sourceAddr (frame : Bytes) : Option Ipv4Addr := do
  guard (14 ≤ frame.length)
  let (proto, offset) ← skipVlan frame (readBe16 frame 12) 14
  let (proto, offset) ← skipVlan frame proto offset
  guard (proto = 0x0800)
  guard (offset + 20 ≤ frame.length)
  let versionIhl := (frame.getD offset 0).toNat
  guard (versionIhl / 16 = 4 ∧ 5 ≤ versionIhl % 16)
  some (BitVec.ofNat 32 (readBe16 frame (offset + 12) * 2 ^ 16 + readBe16 frame (offset + 14)))

def bazaltThrottle (trie : Rules ThrottleValue) (now sample : ℕ) (frame : Bytes) :
    Verdict × Rules ThrottleValue :=
  match (sourceAddr frame).bind (appliedRule trie now) with
  | none => (.pass, trie)
  | some (target, value) =>
      let seen := { value with
        seenPackets := (value.seenPackets + 1) % 2 ^ 64
        seenBytes := (value.seenBytes + frame.length) % 2 ^ 64 }
      let percent := value.rule.dropPercent
      if 100 ≤ percent ∨ sample < percent * 2 ^ 32 / 100 then
        (.drop, trie.set target (some { seen with
          droppedPackets := (seen.droppedPackets + 1) % 2 ^ 64
          droppedBytes := (seen.droppedBytes + frame.length) % 2 ^ 64 }))
      else (.pass, trie.set target (some seen))

/-! ## The manager -/

def maxThrottleTtlSecs : ℕ := 60 * 60

structure ActiveRule where
  dropPercent : ℕ
  expiresInstant : ℕ
  deriving DecidableEq, Repr

/-- The trie and the book. -/
structure Manager where
  available : Bool := true
  trie : Rules ThrottleValue := fun _ ↦ none
  book : Rules ActiveRule := fun _ ↦ none

/-- The clock reading of a prune, and the targets for which the kernel refuses the removal. -/
structure Prune where
  now : ℕ
  refuses : Ipv4Target → Bool

namespace Manager

/-- A rule that the kernel has not removed stays in the book and is tried again. -/
def pruneExpiredLocked (m : Manager) (prune : Prune) : Manager :=
  let removed (target : Ipv4Target) : Bool :=
    (m.book target).any (fun rule ↦ decide (rule.expiresInstant ≤ prune.now)) &&
      !(m.available && prune.refuses target)
  { m with
    trie := fun target ↦ if m.available && removed target then none else m.trie target
    book := fun target ↦ if removed target then none else m.book target }

/-- The end of a penalty on the clock of the kernel. -/
def expiresAt (now ttlSeconds : ℕ) : ℕ :=
  let delta := if u64Max / 1000000000 < ttlSeconds then u64Max else ttlSeconds * 1000000000
  if u64Max - delta < now then u64Max else now + delta

/-- The two clock readings of `setRule`: the one of the book is taken before the lock. -/
structure SetClock where
  instant : ℕ
  monotonic : ℕ

def setRule (m : Manager) (target : List Char) (dropPercent ttlSeconds : ℕ) (clock : SetClock)
    (prune : Prune) (refused : Bool) : Except String Unit × Manager :=
  if dropPercent < 1 ∨ 100 < dropPercent then
    (throw "drop_percent must be between 1 and 100", m)
  else if ttlSeconds < 1 ∨ maxThrottleTtlSecs < ttlSeconds then
    (throw "throttle TTL must be between 1 and 3600 seconds", m)
  else if !m.available then (throw "traffic enforcement is not configured", m)
  else match Ipv4Target.parse target with
    | .error error => (throw error, m)
    | .ok target =>
        let m := m.pruneExpiredLocked prune
        if refused then (throw "cannot install throttle rule", m)
        else
          (pure (), { m with
            trie := m.trie.set target
              (some { rule := ⟨dropPercent, expiresAt clock.monotonic ttlSeconds⟩ })
            book := m.book.set target
              (some ⟨dropPercent, clock.instant + ttlSeconds * 1000000000⟩) })

def clearRule (m : Manager) (target : List Char) (refused : Bool) : Except String Bool × Manager :=
  if !m.available then (throw "traffic enforcement is not configured", m)
  else match Ipv4Target.parse target with
    | .error error => (throw error, m)
    | .ok target =>
        if refused then (throw "cannot remove throttle rule", m)
        else (pure (m.book target).isSome,
          { m with trie := m.trie.set target none, book := m.book.set target none })

end Manager

/-! ## Runs -/

inductive Event where
  | setRule (target : List Char) (dropPercent ttlSeconds : ℕ) (clock : Manager.SetClock)
      (prune : Prune) (refused : Bool)
  | clearRule (target : List Char) (refused : Bool)
  | snapshot (prune : Prune)
  | packet (now sample : ℕ) (frame : Bytes)

/-- The manager, and the rules that were set and neither replaced nor cleared. -/
structure Enforcement where
  manager : Manager := {}
  installed : Rules Rule := fun _ ↦ none

namespace Enforcement

def step (s : Enforcement) : Event → Enforcement
  | .setRule target dropPercent ttlSeconds clock prune refused =>
      let r := s.manager.setRule target dropPercent ttlSeconds clock prune refused
      { manager := r.2
        installed := match r.1, Ipv4Target.parse target with
          | .ok _, .ok target => s.installed.set target
              (some ⟨dropPercent, Manager.expiresAt clock.monotonic ttlSeconds⟩)
          | _, _ => s.installed }
  | .clearRule target refused =>
      let r := s.manager.clearRule target refused
      { manager := r.2
        installed := match r.1, Ipv4Target.parse target with
          | .ok _, .ok target => s.installed.set target none
          | _, _ => s.installed }
  | .snapshot prune => { s with manager := s.manager.pruneExpiredLocked prune }
  | .packet now sample frame =>
      { s with manager := { s.manager with
          trie := (bazaltThrottle s.manager.trie now sample frame).2 } }

def after (events : List Event) : Enforcement := runFrom step {} events

/-- The rules that have not expired. -/
def live (s : Enforcement) (now : ℕ) : Rules Rule :=
  fun target ↦ (s.installed target).filter fun rule ↦ !rule.expired now

/-- The program applies the longest rule that has not expired. -/
def AppliesLongestLive (s : Enforcement) (addr : Ipv4Addr) (now : ℕ) : Prop :=
  (appliedRule s.manager.trie now addr).map (fun found ↦ (found.1, found.2.rule)) =
    (s.live now).longest addr

/-- The longest rule that has not expired is in the trie, and no longer one is. -/
def Unshadowed (s : Enforcement) (addr : Ipv4Addr) (now : ℕ) : Prop :=
  ∀ found ∈ (s.live now).longest addr, s.manager.trie found.1 ≠ none ∧
    ∀ target : Ipv4Target, target.Covers addr → found.1.prefixLen < target.prefixLen →
      s.manager.trie target = none

end Enforcement

/-! ## The lookup -/

theorem Ipv4Target.Covers.eq {target : Ipv4Target} {addr : Ipv4Addr} (h : target.Covers addr) :
    target = ⟨networkFor addr target.prefixLen, target.prefixLen⟩ := by
  obtain ⟨network, prefixLen⟩ := target
  obtain ⟨-, hnetwork⟩ := h
  simp only at hnetwork
  rw [hnetwork]

/-- The last number below `n` that is mapped to something. -/
theorem findSome?_reverse_range {α : Type} {f : ℕ → Option α} {n : ℕ} {a : α} :
    (List.range n).reverse.findSome? f = some a ↔
      ∃ i < n, f i = some a ∧ ∀ j, i < j → j < n → f j = none := by
  induction n with
  | zero => simp
  | succ n ih =>
      rw [List.range_succ, List.reverse_append, List.reverse_singleton, List.singleton_append,
        List.findSome?_cons]
      cases hn : f n with
      | some b =>
          simp only [Option.some.injEq]
          constructor
          · rintro rfl
            exact ⟨n, Nat.lt_succ_self n, hn, fun j hj hjn ↦ by omega⟩
          · rintro ⟨i, hi, hia, hlast⟩
            rcases Nat.lt_succ_iff_lt_or_eq.mp hi with hlt | rfl
            · rw [hlast n hlt (Nat.lt_succ_self n)] at hn
              cases hn
            · exact Option.some.inj (hn.symm.trans hia)
      | none =>
          simp only
          rw [ih]
          constructor
          · rintro ⟨i, hi, hia, hlast⟩
            refine ⟨i, by omega, hia, fun j hj hjn ↦ ?_⟩
            rcases Nat.lt_succ_iff_lt_or_eq.mp hjn with hlt | rfl
            · exact hlast j hj hlt
            · exact hn
          · rintro ⟨i, hi, hia, hlast⟩
            rcases Nat.lt_succ_iff_lt_or_eq.mp hi with hlt | rfl
            · exact ⟨i, hlt, hia, fun j hj hjn ↦ hlast j hj (by omega)⟩
            · rw [hn] at hia
              cases hia

theorem Rules.longest_eq_some {α : Type} {rules : Rules α} {addr : Ipv4Addr} {target : Ipv4Target}
    {value : α} : rules.longest addr = some (target, value) ↔
      target.Covers addr ∧ rules target = some value ∧
        ∀ t : Ipv4Target, t.Covers addr → target.prefixLen < t.prefixLen → rules t = none := by
  rw [longest, findSome?_reverse_range]
  constructor
  · rintro ⟨bits, hbits, hfound, hlast⟩
    obtain ⟨v, hv, heq⟩ := Option.map_eq_some_iff.mp hfound
    obtain ⟨rfl, rfl⟩ := Prod.mk.inj heq
    refine ⟨⟨by simp only; omega, rfl⟩, hv, fun t ht hlt ↦ ?_⟩
    have hnone := hlast t.prefixLen hlt (by have := ht.1; omega)
    rw [Option.map_eq_none_iff] at hnone
    rw [ht.eq]
    exact hnone
  · rintro ⟨hcovers, hvalue, hlast⟩
    refine ⟨target.prefixLen, by have := hcovers.1; omega, ?_, fun j hj hj33 ↦ ?_⟩
    · rw [← hcovers.eq, hvalue]
      rfl
    · rw [Option.map_eq_none_iff]
      exact hlast ⟨networkFor addr j, j⟩ ⟨by simp only; omega, rfl⟩ hj

/-- Some target that covers the address has a rule, so one of them is the longest. -/
theorem Rules.longest_isSome {α : Type} {rules : Rules α} {addr : Ipv4Addr} {target : Ipv4Target}
    {value : α} (hcovers : target.Covers addr) (hvalue : rules target = some value) :
    rules.longest addr ≠ none := by
  intro hnone
  rw [longest, List.findSome?_eq_none_iff] at hnone
  have := hnone target.prefixLen (by have := hcovers.1; simp; omega)
  rw [← hcovers.eq, hvalue] at this
  cases this

/-! ## What is in the trie -/

namespace Manager

/-- A rule that is not set may still have cost the expired ones. -/
theorem setRule_cases (m : Manager) (target : List Char) (dropPercent ttlSeconds : ℕ)
    (clock : SetClock) (prune : Prune) (refused : Bool) :
    (∃ error, m.setRule target dropPercent ttlSeconds clock prune refused = (.error error, m) ∨
        m.setRule target dropPercent ttlSeconds clock prune refused =
          (.error error, m.pruneExpiredLocked prune)) ∨
      ∃ parsed, Ipv4Target.parse target = .ok parsed ∧ 1 ≤ dropPercent ∧
        m.setRule target dropPercent ttlSeconds clock prune refused =
          (.ok (), { m.pruneExpiredLocked prune with
            trie := (m.pruneExpiredLocked prune).trie.set parsed
              (some { rule := ⟨dropPercent, expiresAt clock.monotonic ttlSeconds⟩ })
            book := (m.pruneExpiredLocked prune).book.set parsed
              (some ⟨dropPercent, clock.instant + ttlSeconds * 1000000000⟩) }) := by
  unfold setRule
  split
  · exact .inl ⟨_, .inl rfl⟩
  · rename_i hpercent
    split
    · exact .inl ⟨_, .inl rfl⟩
    · split
      · exact .inl ⟨_, .inl rfl⟩
      · split
        · exact .inl ⟨_, .inl rfl⟩
        · rename_i parsed hparse
          dsimp only
          split
          · exact .inl ⟨_, .inr rfl⟩
          · exact .inr ⟨parsed, hparse, by omega, rfl⟩

theorem clearRule_cases (m : Manager) (target : List Char) (refused : Bool) :
    (∃ error, m.clearRule target refused = (.error error, m)) ∨
      ∃ parsed, Ipv4Target.parse target = .ok parsed ∧ ∃ removed, m.clearRule target refused =
        (.ok removed, { m with
          trie := m.trie.set parsed none
          book := m.book.set parsed none }) := by
  unfold clearRule
  split
  · exact .inl ⟨_, rfl⟩
  · split
    · exact .inl ⟨_, rfl⟩
    · rename_i parsed hparse
      split
      · exact .inl ⟨_, rfl⟩
      · exact .inr ⟨parsed, hparse, _, rfl⟩

end Manager

namespace Enforcement

/-- Whatever is in the trie was set, and a rule that drops nothing is not. -/
def Sound (s : Enforcement) : Prop :=
  ∀ target value, s.manager.trie target = some value →
    s.installed target = some value.rule ∧ value.rule.dropPercent ≠ 0

theorem Sound.prune {s : Enforcement} (h : s.Sound) (prune : Prune) :
    Sound { s with manager := s.manager.pruneExpiredLocked prune } := by
  intro target value hvalue
  simp only [Manager.pruneExpiredLocked] at hvalue
  split_ifs at hvalue
  exact h target value hvalue

theorem bazaltThrottle_rule (trie : Rules ThrottleValue) (now sample : ℕ) (frame : Bytes)
    (target : Ipv4Target) : ((bazaltThrottle trie now sample frame).2 target).map (·.rule) =
      (trie target).map (·.rule) := by
  unfold bazaltThrottle
  split
  · rfl
  · rename_i found value hfound
    have htrie : trie found = some value := by
      obtain ⟨addr, -, happlied⟩ := Option.bind_eq_some_iff.mp hfound
      exact (Rules.longest_eq_some.mp (Option.filter_eq_some_iff.mp happlied).1).2.1
    dsimp only
    split_ifs
    all_goals
      simp only [Rules.set]
      split_ifs with heq
      · rw [heq, htrie]
        rfl
      · rfl

/-- The step lemma. -/
theorem Sound.step {s : Enforcement} (h : s.Sound) (event : Event) : (s.step event).Sound := by
  cases event with
  | snapshot prune => exact h.prune prune
  | packet now sample frame =>
      intro target value hvalue
      have hsame := bazaltThrottle_rule s.manager.trie now sample frame target
      rw [show (bazaltThrottle s.manager.trie now sample frame).2 target = some value from hvalue]
        at hsame
      obtain ⟨old, hold, hrule⟩ := Option.map_eq_some_iff.mp hsame.symm
      simp only at hrule
      rw [← hrule]
      exact h target old hold
  | clearRule target refused =>
      have hcases := s.manager.clearRule_cases target refused
      simp only [Enforcement.step]
      generalize s.manager.clearRule target refused = r at hcases ⊢
      rcases hcases with ⟨error, rfl⟩ | ⟨parsed, hparse, removed, rfl⟩
      · exact h
      · intro t value hvalue
        simp only [Rules.set, hparse] at hvalue ⊢
        split_ifs at hvalue ⊢ with ht
        · exact h t value hvalue
  | setRule target dropPercent ttlSeconds clock prune refused =>
      have hcases := s.manager.setRule_cases target dropPercent ttlSeconds clock prune refused
      simp only [Enforcement.step]
      generalize s.manager.setRule target dropPercent ttlSeconds clock prune refused = r at hcases ⊢
      rcases hcases with ⟨error, rfl | rfl⟩ | ⟨parsed, hparse, hpercent, rfl⟩
      · exact h
      · exact h.prune prune
      · intro t value hvalue
        simp only [Rules.set, hparse] at hvalue ⊢
        split_ifs at hvalue ⊢ with ht
        · obtain rfl := Option.some.inj hvalue
          exact ⟨rfl, by simp only; omega⟩
        · exact h.prune prune t value hvalue

theorem sound_after (events : List Event) : (after events).Sound := by
  refine invariant_runFrom (P := fun _ _ ↦ True) (fun s event hs _ ↦ hs.step event) ?_
    (along_iff.mpr fun _ _ _ _ ↦ trivial)
  intro target value hvalue
  cases hvalue

theorem live_eq_some {s : Enforcement} {now : ℕ} {target : Ipv4Target} {rule : Rule} :
    s.live now target = some rule ↔ s.installed target = some rule ∧ rule.expired now = false := by
  simp [live, Option.filter_eq_some_iff]

theorem Sound.appliesLongestLive_iff {s : Enforcement} (h : s.Sound) (addr : Ipv4Addr) (now : ℕ) :
    s.AppliesLongestLive addr now ↔ s.Unshadowed addr now := by
  constructor
  · rintro happlies ⟨target, rule⟩ hfound
    rw [AppliesLongestLive, show (s.live now).longest addr = some (target, rule) from hfound]
      at happlies
    obtain ⟨⟨t, value⟩, happlied, heq⟩ := Option.map_eq_some_iff.mp happlies
    obtain ⟨rfl, -⟩ := Prod.mk.inj heq
    obtain ⟨-, htrie, hlast⟩ := Rules.longest_eq_some.mp (Option.filter_eq_some_iff.mp happlied).1
    exact ⟨by simp [htrie], hlast⟩
  · intro hclear
    unfold AppliesLongestLive
    cases hfound : (s.live now).longest addr with
    | none =>
        -- a rule that is applied has not expired
        rw [Option.map_eq_none_iff]
        by_contra happlied
        obtain ⟨⟨target, value⟩, happlied⟩ := Option.ne_none_iff_exists'.mp happlied
        obtain ⟨hlongest, hpass⟩ := Option.filter_eq_some_iff.mp happlied
        obtain ⟨hcovers, htrie, -⟩ := Rules.longest_eq_some.mp hlongest
        refine Rules.longest_isSome hcovers (live_eq_some.mpr ⟨(h target value htrie).1, ?_⟩) hfound
        simpa using (Bool.and_eq_true_iff.mp hpass).2
    | some found =>
        obtain ⟨target, rule⟩ := found
        obtain ⟨htrie, hlonger⟩ := hclear (target, rule) hfound
        obtain ⟨value, htrie⟩ := Option.ne_none_iff_exists'.mp htrie
        obtain ⟨hcovers, hlive, -⟩ := Rules.longest_eq_some.mp hfound
        obtain ⟨hinstalled, hexpired⟩ := live_eq_some.mp hlive
        obtain ⟨hsame, hdrops⟩ := h target value htrie
        obtain rfl : rule = value.rule := Option.some.inj (hinstalled.symm.trans hsame)
        have hlongest := Rules.longest_eq_some.mpr ⟨hcovers, htrie, hlonger⟩
        have happlied : appliedRule s.manager.trie now addr = some (target, value) :=
          Option.filter_eq_some_iff.mpr ⟨hlongest, by simp [hdrops, hexpired]⟩
        rw [happlied]
        rfl

/-- After every run, the program applies the longest rule that has not expired if and only if this
rule is still in the trie and no longer rule is, expired as it must be. -/
theorem appliesLongestLive_iff_unshadowed (events : List Event) (addr : Ipv4Addr) (now : ℕ) :
    (after events).AppliesLongestLive addr now ↔ (after events).Unshadowed addr now :=
  (sound_after events).appliesLongestLive_iff addr now

/-- A group is blocked for an hour, and one of its sources is slowed down for a second. -/
def shadowedRun : List Event :=
  [.setRule "10.10.1.0/24".toList 100 3600 ⟨0, 0⟩ ⟨0, fun _ ↦ false⟩ false,
    .setRule "10.10.1.23".toList 50 1 ⟨0, 0⟩ ⟨0, fun _ ↦ false⟩ false]

/-- Two seconds later the block of the group does not hold for the source. -/
theorem not_appliesLongestLive_shadowedRun :
    canonicalThrottleTarget 24 "10.10.1.0/24".toList = .ok "10.10.1.0/24".toList ∧
      canonicalThrottleTarget 24 "10.10.1.23".toList = .ok "10.10.1.23".toList ∧
      ¬ (after shadowedRun).AppliesLongestLive 0x0a0a0117 2000000000 := by
  refine ⟨by decide +kernel, by decide +kernel, fun happlies ↦ ?_⟩
  have hnone : appliedRule (after shadowedRun).manager.trie 2000000000 0x0a0a0117 = none := by
    decide +kernel
  have hlive : ((after shadowedRun).live 2000000000).longest 0x0a0a0117 =
      some (⟨0x0a0a0100, 24⟩, ⟨100, 3600000000000⟩) := by
    decide +kernel
  rw [AppliesLongestLive, hnone, hlive] at happlies
  cases happlies

end Enforcement

end Bazalt.Topology
