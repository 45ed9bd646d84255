import Bazalt.Topology.Throttle

/-!
# The book and the kernel

A throttle rule is kept twice: the trie of the kernel holds what the XDP program needs, the book
of the manager what a snapshot shows.  A call changes one store after the other, the kernel may
refuse each change, and the expired rules that a call takes out on its way may be refused one by
one.

The two stores never differ.  A rule is written to the book after the kernel has taken it and is
taken out of the book after the kernel has given it up, and what the kernel refuses stays in both.
-/

namespace Bazalt.Topology

open Lib

namespace Manager

/-- The targets of the book are the keys of the trie, and their percentages are the same. -/
def Agrees (m : Manager) : Prop :=
  ∀ target, (m.book target).map (·.dropPercent) = (m.trie target).map (·.rule.dropPercent)

/-- Without a backend nothing is ever set. -/
def Idle (m : Manager) : Prop := m.available = false → ∀ target, m.book target = none

/-- The stores of `m'` are those of `m`, less rules of the book that have expired. -/
def PrunedTo (m m' : Manager) (now : ℕ) : Prop :=
  ∀ target, (m'.book target = m.book target ∧ m'.trie target = m.trie target) ∨
    ((∃ rule ∈ m.book target, rule.expiresInstant ≤ now) ∧
      m'.book target = none ∧ m'.trie target = none)

/-- The percentage that a call gives to the target, if it is a set of this target that succeeds. -/
def setPercent (m : Manager) (target : Ipv4Target) : Event → Option ℕ
  | .setRule text dropPercent ttlSeconds clock prune refused =>
      match (m.setRule text dropPercent ttlSeconds clock prune refused).1,
        Ipv4Target.parse text with
      | .ok _, .ok parsed => if parsed = target then some dropPercent else none
      | _, _ => none
  | _ => none

/-- The event can take a rule of the target that ends at `expires` out of the stores: it sets or
clears the target, or it prunes when the rule has ended. -/
def Replaces (m : Manager) (target : Ipv4Target) (expires : ℕ) : Event → Prop
  | .setRule text dropPercent ttlSeconds clock prune refused =>
      (m.setPercent target (.setRule text dropPercent ttlSeconds clock prune refused)).isSome ∨
        expires ≤ prune.now
  | .clearRule text refused =>
      (m.clearRule text refused).1.isOk ∧ Ipv4Target.parse text = .ok target
  | .snapshot prune => expires ≤ prune.now
  | .packet _ _ _ => False

/-- Both stores have the rule. -/
def Holds (m : Manager) (target : Ipv4Target) (rule : ActiveRule) : Prop :=
  m.book target = some rule ∧
    (m.trie target).map (·.rule.dropPercent) = some rule.dropPercent

theorem PrunedTo.refl (m : Manager) (now : ℕ) : m.PrunedTo m now :=
  fun _ ↦ .inl ⟨rfl, rfl⟩

/-- What is pruned leaves both stores, and what the kernel refuses stays in both. -/
theorem prunedTo_pruneExpiredLocked {m : Manager} (hidle : m.Idle) (prune : Prune) :
    m.PrunedTo (m.pruneExpiredLocked prune) prune.now := by
  intro target
  cases hrule : m.book target with
  | none =>
      left
      simp [pruneExpiredLocked, hrule]
  | some rule =>
      have hbackend : m.available = true := by
        by_contra hnone
        rw [hidle (by simpa using hnone) target] at hrule
        cases hrule
      by_cases hexpired : rule.expiresInstant ≤ prune.now
      · cases hrefused : prune.refuses target with
        | true =>
            left
            simp [pruneExpiredLocked, hrule, hbackend, hrefused]
        | false =>
            right
            refine ⟨⟨rule, rfl, hexpired⟩, ?_, ?_⟩
            · simp [pruneExpiredLocked, hrule, hbackend, hrefused, hexpired]
            · simp [pruneExpiredLocked, hrule, hbackend, hrefused, hexpired]
      · left
        simp [pruneExpiredLocked, hrule, hexpired]

theorem PrunedTo.agrees {m m' : Manager} {now : ℕ} (h : m.PrunedTo m' now) (hm : m.Agrees) :
    m'.Agrees := by
  intro target
  rcases h target with ⟨hbook, htrie⟩ | ⟨-, hbook, htrie⟩
  · rw [hbook, htrie]
    exact hm target
  · rw [hbook, htrie]
    rfl

theorem PrunedTo.book_of_mem {m m' : Manager} {now : ℕ} (h : m.PrunedTo m' now)
    {target : Ipv4Target} {rule : ActiveRule} (hrule : rule ∈ m'.book target) :
    rule ∈ m.book target := by
  rcases h target with ⟨hbook, -⟩ | ⟨-, hbook, -⟩
  · rw [← hbook]
    exact hrule
  · rw [hbook] at hrule
    cases hrule

/-- A rule that has not ended is not pruned. -/
theorem PrunedTo.holds {m m' : Manager} {now : ℕ} (h : m.PrunedTo m' now) {target : Ipv4Target}
    {rule : ActiveRule} (hheld : m.Holds target rule) (hlater : ¬ rule.expiresInstant ≤ now) :
    m'.Holds target rule := by
  rcases h target with ⟨hbook, htrie⟩ | ⟨⟨old, hold, hexpired⟩, -⟩
  · exact ⟨hbook.trans hheld.1, (congrArg _ htrie).trans hheld.2⟩
  · rw [Option.mem_def, hheld.1] at hold
    obtain rfl := Option.some.inj hold
    exact absurd hexpired hlater

theorem Idle.prune {m : Manager} (h : m.Idle) (prune : Prune) :
    (m.pruneExpiredLocked prune).Idle := by
  intro hnone target
  rw [Option.eq_none_iff_forall_not_mem]
  intro rule hrule
  have hold := (prunedTo_pruneExpiredLocked h prune).book_of_mem hrule
  rw [h hnone target] at hold
  cases hold

/-- A call that sets nothing costs at most rules that have expired. -/
theorem setRule_error {m : Manager} (hidle : m.Idle) {text : List Char}
    {dropPercent ttlSeconds : ℕ} {clock : SetClock} {prune : Prune} {refused : Bool}
    {error : String}
    (herror : (m.setRule text dropPercent ttlSeconds clock prune refused).1 = .error error) :
    m.PrunedTo (m.setRule text dropPercent ttlSeconds clock prune refused).2 prune.now := by
  rcases m.setRule_cases text dropPercent ttlSeconds clock prune refused with
    ⟨_, hfailed | hfailed⟩ | ⟨_, -, -, hset⟩
  · rw [hfailed]
    exact .refl m prune.now
  · rw [hfailed]
    exact prunedTo_pruneExpiredLocked hidle prune
  · rw [hset] at herror
    cases herror

theorem clearRule_error {m : Manager} {text : List Char} {refused : Bool} {error : String}
    (herror : (m.clearRule text refused).1 = .error error) : (m.clearRule text refused).2 = m := by
  rcases m.clearRule_cases text refused with ⟨_, hfailed⟩ | ⟨_, -, _, hcleared⟩
  · rw [hfailed]
  · rw [hcleared] at herror
    cases herror

/-- A target is written to both stores. -/
theorem Agrees.set {m : Manager} (h : m.Agrees) (target : Ipv4Target)
    {rule : Option ActiveRule} {value : Option ThrottleValue}
    (hsame : rule.map (·.dropPercent) = value.map (·.rule.dropPercent)) :
    Agrees { m with trie := m.trie.set target value, book := m.book.set target rule } := by
  intro t
  simp only [Rules.set]
  split_ifs
  · exact hsame
  · exact h t

/-- A rule that is set is in both stores. -/
theorem holds_of_setPercent {m : Manager} {target : Ipv4Target} {text : List Char}
    {dropPercent ttlSeconds : ℕ} {clock : SetClock} {prune : Prune} {refused : Bool}
    (hset : (m.setPercent target
      (.setRule text dropPercent ttlSeconds clock prune refused)).isSome) :
    (m.setRule text dropPercent ttlSeconds clock prune refused).2.Holds target
      ⟨dropPercent, clock.instant + ttlSeconds * 1000000000⟩ := by
  have hcases := m.setRule_cases text dropPercent ttlSeconds clock prune refused
  simp only [setPercent] at hset
  generalize m.setRule text dropPercent ttlSeconds clock prune refused = r at hcases hset ⊢
  rcases hcases with ⟨error, rfl | rfl⟩ | ⟨parsed, hparse, -, rfl⟩
  · cases hset
  · cases hset
  · simp only [hparse] at hset
    split_ifs at hset with htarget
    · subst htarget
      simp [Holds, Rules.set]
    · cases hset

/-- Only a manager with a backend sets a rule. -/
theorem available_of_setRule_ok {m : Manager} {text : List Char} {dropPercent ttlSeconds : ℕ}
    {clock : SetClock} {prune : Prune} {refused : Bool}
    (hok : (m.setRule text dropPercent ttlSeconds clock prune refused).1 = .ok ()) :
    m.available = true := by
  cases hbackend : m.available with
  | true => rfl
  | false =>
      simp only [setRule, hbackend, Bool.not_false, if_true] at hok
      split_ifs at hok

end Manager

namespace Enforcement

theorem idle_step {s : Enforcement} (h : s.manager.Idle) (event : Event) :
    (s.step event).manager.Idle := by
  cases event with
  | snapshot prune => exact h.prune prune
  | packet now sample frame => exact h
  | clearRule text refused =>
      have hcases := s.manager.clearRule_cases text refused
      simp only [Enforcement.step]
      generalize s.manager.clearRule text refused = r at hcases ⊢
      rcases hcases with ⟨error, rfl⟩ | ⟨parsed, -, removed, rfl⟩
      · exact h
      · intro hnone target
        simp only [Rules.set]
        split_ifs
        · rfl
        · exact h hnone target
  | setRule text dropPercent ttlSeconds clock prune refused =>
      have hcases := s.manager.setRule_cases text dropPercent ttlSeconds clock prune refused
      have hbackend : (s.manager.setRule text dropPercent ttlSeconds clock prune refused).1 =
          .ok () → s.manager.available = true := Manager.available_of_setRule_ok
      simp only [Enforcement.step]
      generalize s.manager.setRule text dropPercent ttlSeconds clock prune refused = r
        at hcases hbackend ⊢
      rcases hcases with ⟨error, rfl | rfl⟩ | ⟨parsed, -, -, rfl⟩
      · exact h
      · exact h.prune prune
      · intro hnone
        rw [show s.manager.available = false from hnone] at hbackend
        cases hbackend rfl

/-- The step lemma of the other direction: a rule stays until it is replaced, cleared or pruned. -/
theorem holds_step {s : Enforcement} (hidle : s.manager.Idle) {target : Ipv4Target}
    {rule : ActiveRule} (hheld : s.manager.Holds target rule) {event : Event}
    (hkept : ¬ s.manager.Replaces target rule.expiresInstant event) :
    (s.step event).manager.Holds target rule := by
  cases event with
  | snapshot prune =>
      exact (Manager.prunedTo_pruneExpiredLocked hidle prune).holds hheld hkept
  | packet now sample frame =>
      have hrule := bazaltThrottle_rule s.manager.trie now sample frame target
      have hpercent := congrArg (Option.map (·.dropPercent)) hrule
      simp only [Option.map_map] at hpercent
      exact ⟨hheld.1, hpercent.trans hheld.2⟩
  | clearRule text refused =>
      have hcases := s.manager.clearRule_cases text refused
      simp only [Manager.Replaces] at hkept
      simp only [Enforcement.step]
      generalize s.manager.clearRule text refused = r at hcases hkept ⊢
      rcases hcases with ⟨error, rfl⟩ | ⟨parsed, hparse, removed, rfl⟩
      · exact hheld
      · have hother : target ≠ parsed := by
          rintro rfl
          exact hkept ⟨rfl, hparse⟩
        simpa [Manager.Holds, Rules.set, hother] using hheld
  | setRule text dropPercent ttlSeconds clock prune refused =>
      have hcases := s.manager.setRule_cases text dropPercent ttlSeconds clock prune refused
      simp only [Manager.Replaces, Manager.setPercent, not_or] at hkept
      obtain ⟨hnot, hlater⟩ := hkept
      have hpruned := (Manager.prunedTo_pruneExpiredLocked hidle prune).holds hheld hlater
      simp only [Enforcement.step]
      generalize s.manager.setRule text dropPercent ttlSeconds clock prune refused = r
        at hcases hnot ⊢
      rcases hcases with ⟨error, rfl | rfl⟩ | ⟨parsed, hparse, -, rfl⟩
      · exact hheld
      · exact hpruned
      · have hother : target ≠ parsed := by
          rintro rfl
          simp [hparse] at hnot
        simpa [Manager.Holds, Rules.set, hother] using hpruned

/-- A manager with or without a backend, before its first call. -/
def start (available : Bool) : Enforcement := { manager := { available } }

/-- A step, with the percentage of the last call that set the target. -/
def watch (target : Ipv4Target) (p : Enforcement × Option ℕ) (event : Event) :
    Enforcement × Option ℕ :=
  (p.1.step event, (p.1.manager.setPercent target event).or p.2)

/-- The percentage that the last successful set of the target gave it. -/
def lastSet (available : Bool) (events : List Event) (target : Ipv4Target) : Option ℕ :=
  (runFrom (watch target) (start available, none) events).2

/-- The stores agree, and the book has what the last set of the target gave it. -/
structure Recorded (target : Ipv4Target) (p : Enforcement × Option ℕ) : Prop where
  agrees : p.1.manager.Agrees
  idle : p.1.manager.Idle
  last : ∀ rule ∈ p.1.manager.book target, p.2 = some rule.dropPercent

theorem Recorded.prune {target : Ipv4Target} {s : Enforcement} {last : Option ℕ}
    (h : Recorded target (s, last)) (prune : Prune) :
    Recorded target ({ s with manager := s.manager.pruneExpiredLocked prune }, last) := by
  have hpruned := Manager.prunedTo_pruneExpiredLocked h.idle prune
  exact ⟨hpruned.agrees h.agrees, h.idle.prune prune,
    fun rule hrule ↦ h.last rule (hpruned.book_of_mem hrule)⟩

/-- The step lemma. -/
theorem Recorded.step {target : Ipv4Target} {p : Enforcement × Option ℕ}
    (h : Recorded target p) (event : Event) : Recorded target (watch target p event) := by
  obtain ⟨s, last⟩ := p
  have hidle : (s.step event).manager.Idle := idle_step h.idle event
  cases event with
  | snapshot prune => exact h.prune prune
  | packet now sample frame =>
      refine ⟨fun t ↦ ?_, hidle, h.last⟩
      have hrule := bazaltThrottle_rule s.manager.trie now sample frame t
      have hpercent := congrArg (Option.map (·.dropPercent)) hrule
      simp only [Option.map_map] at hpercent
      exact (h.agrees t).trans hpercent.symm
  | clearRule text refused =>
      have hcases := s.manager.clearRule_cases text refused
      simp only [watch, Enforcement.step, Manager.setPercent, Option.none_or] at hidle ⊢
      generalize s.manager.clearRule text refused = r at hcases hidle ⊢
      rcases hcases with ⟨error, rfl⟩ | ⟨parsed, hparse, removed, rfl⟩
      · exact ⟨h.agrees, hidle, h.last⟩
      · refine ⟨h.agrees.set parsed rfl, hidle, fun rule hrule ↦ ?_⟩
        simp only [Rules.set] at hrule
        split_ifs at hrule
        · cases hrule
        · exact h.last rule hrule
  | setRule text dropPercent ttlSeconds clock prune refused =>
      have hcases := s.manager.setRule_cases text dropPercent ttlSeconds clock prune refused
      simp only [watch, Enforcement.step, Manager.setPercent] at hidle ⊢
      generalize s.manager.setRule text dropPercent ttlSeconds clock prune refused = r
        at hcases hidle ⊢
      have hpruned := h.prune prune
      rcases hcases with ⟨error, rfl | rfl⟩ | ⟨parsed, hparse, -, rfl⟩
      · exact ⟨h.agrees, hidle, h.last⟩
      · exact ⟨hpruned.agrees, hidle, hpruned.last⟩
      · simp only [hparse]
        refine ⟨hpruned.agrees.set parsed rfl, hidle, fun rule hrule ↦ ?_⟩
        simp only [Rules.set] at hrule
        split_ifs at hrule ⊢ with hone hother hother
        · obtain rfl := Option.some.inj hrule
          rfl
        · exact absurd hone.symm hother
        · exact absurd hother.symm hone
        · exact hpruned.last rule hrule

theorem recorded_start (available : Bool) (target : Ipv4Target) :
    Recorded target (start available, none) := by
  refine ⟨fun _ ↦ rfl, fun _ _ ↦ rfl, fun rule hrule ↦ ?_⟩
  cases hrule

/-- Watching a target changes nothing. -/
theorem runFrom_watch_fst (target : Ipv4Target) (p : Enforcement × Option ℕ)
    (events : List Event) :
    (runFrom (watch target) p events).1 = runFrom Enforcement.step p.1 events := by
  induction events generalizing p with
  | nil => rfl
  | cons event events ih => exact ih (watch target p event)

theorem recorded_after (available : Bool) (events : List Event) (target : Ipv4Target) :
    Recorded target (runFrom Enforcement.step (start available) events,
      lastSet available events target) := by
  have hrun : Recorded target (runFrom (watch target) (start available, none) events) :=
    invariant_runFrom_of_step (fun _ event hp ↦ hp.step event) events
      (recorded_start available target)
  have hfst := runFrom_watch_fst target (start available, none) events
  rw [show runFrom (watch target) (start available, none) events =
    (runFrom Enforcement.step (start available) events, lastSet available events target) from
      Prod.ext hfst rfl] at hrun
  exact hrun

/-- What a set has put in both stores is there until an event replaces, clears or prunes it. -/
theorem holds_after_set {s : Enforcement} (hidle : s.manager.Idle) {target : Ipv4Target}
    {text : List Char} {dropPercent ttlSeconds : ℕ} {clock : Manager.SetClock} {prune : Prune}
    {refused : Bool} (hset : (s.manager.setPercent target
      (.setRule text dropPercent ttlSeconds clock prune refused)).isSome) {later : List Event}
    (hkept : Along Enforcement.step (fun s event ↦ ¬ s.manager.Replaces target
      (clock.instant + ttlSeconds * 1000000000) event)
      (s.step (.setRule text dropPercent ttlSeconds clock prune refused)) later) :
    (runFrom Enforcement.step (s.step (.setRule text dropPercent ttlSeconds clock prune refused))
      later).manager.Holds target ⟨dropPercent, clock.instant + ttlSeconds * 1000000000⟩ := by
  let rule : ActiveRule := ⟨dropPercent, clock.instant + ttlSeconds * 1000000000⟩
  let set : Event := .setRule text dropPercent ttlSeconds clock prune refused
  have hstart : (s.step set).manager.Idle ∧ (s.step set).manager.Holds target rule :=
    ⟨idle_step hidle set, Manager.holds_of_setPercent hset⟩
  have hend := invariant_runFrom (I := fun s : Enforcement ↦
      s.manager.Idle ∧ s.manager.Holds target rule)
    (fun _ event hs hevent ↦ ⟨idle_step hs.1 event, holds_step hs.1 hs.2 hevent⟩) hstart hkept
  exact hend.2

/-- After every run of calls and packets, whatever the kernel refused and however the clock went,
the targets of the book are the keys of the trie, each with the percentage of the last set that
succeeded.  What a set has put there stays in both until it is replaced, cleared or pruned.  A call
that fails takes at most expired rules out, and takes them out of both. -/
theorem book_matches_kernel (available : Bool) (events : List Event) :
    let m := (runFrom Enforcement.step (start available) events).manager
    (∀ target, (m.book target).isSome = (m.trie target).isSome) ∧
      (∀ target, ∀ rule ∈ m.book target, ∀ value ∈ m.trie target,
        value.rule.dropPercent = rule.dropPercent ∧
          lastSet available events target = some rule.dropPercent) ∧
      (∀ before text dropPercent ttlSeconds clock prune refused later target,
        events = before ++ .setRule text dropPercent ttlSeconds clock prune refused :: later →
        let s := runFrom Enforcement.step (start available) before
        let set := Event.setRule text dropPercent ttlSeconds clock prune refused
        let expires := clock.instant + ttlSeconds * 1000000000
        (s.manager.setPercent target set).isSome →
        Along Enforcement.step (fun s event ↦ ¬ s.manager.Replaces target expires event)
          (s.step set) later →
        m.Holds target ⟨dropPercent, expires⟩) ∧
      (∀ text dropPercent ttlSeconds clock prune refused error,
        (m.setRule text dropPercent ttlSeconds clock prune refused).1 = .error error →
          m.PrunedTo (m.setRule text dropPercent ttlSeconds clock prune refused).2 prune.now) ∧
      ∀ text refused error, (m.clearRule text refused).1 = .error error →
        (m.clearRule text refused).2 = m := by
  intro m
  have hagrees : m.Agrees := (recorded_after available events ⟨0, 0⟩).agrees
  have hidle : m.Idle := (recorded_after available events ⟨0, 0⟩).idle
  refine ⟨fun target ↦ ?_, fun target rule hrule value hvalue ↦ ⟨?_, ?_⟩, ?_, ?_, ?_⟩
  · have hkeys := congrArg Option.isSome (hagrees target)
    rwa [Option.isSome_map, Option.isSome_map] at hkeys
  · have hpercent := hagrees target
    rw [Option.mem_def.mp hrule, Option.mem_def.mp hvalue] at hpercent
    exact (Option.some.inj hpercent).symm
  · exact (recorded_after available events target).last rule hrule
  · intro before text dropPercent ttlSeconds clock prune refused later target hsplit s set expires
      hset hkept
    have hbefore : s.manager.Idle := (recorded_after available before target).idle
    have hheld := holds_after_set hbefore hset hkept
    simp only [m, hsplit, runFrom_append, runFrom_cons]
    exact hheld
  · intro text dropPercent ttlSeconds clock prune refused error herror
    exact Manager.setRule_error hidle herror
  · intro text refused error herror
    exact Manager.clearRule_error herror

/-- A rule that expires before the refused call that prunes it, and one that is set after it. -/
def refusedSecond : List Event :=
  [.setRule "10.10.1.23".toList 50 1 ⟨0, 0⟩ ⟨0, fun _ ↦ false⟩ false,
    .setRule "10.10.1.24".toList 60 1 ⟨2000000000, 2000000000⟩ ⟨2000000000, fun _ ↦ false⟩ true,
    .setRule "10.10.1.25".toList 70 10 ⟨2000000000, 2000000000⟩ ⟨2000000000, fun _ ↦ false⟩ false,
    .snapshot ⟨3000000000, fun _ ↦ false⟩]

/-- The expired rule has left both stores, the refused one is in neither, the last is in both. -/
theorem book_matches_kernel_refusedSecond :
    let m := (runFrom Enforcement.step (start true) refusedSecond).manager
    ((m.book ⟨0x0a0a0117, 32⟩).isSome = false ∧ (m.trie ⟨0x0a0a0117, 32⟩).isSome = false) ∧
      ((m.book ⟨0x0a0a0118, 32⟩).isSome = false ∧ (m.trie ⟨0x0a0a0118, 32⟩).isSome = false) ∧
      m.Holds ⟨0x0a0a0119, 32⟩ ⟨70, 12000000000⟩ := by
  intro m
  obtain ⟨hkeys, -, hset, -⟩ := book_matches_kernel true refusedSecond
  have hfirst : (m.book ⟨0x0a0a0117, 32⟩).isSome = false := by decide +kernel
  have hsecond : (m.book ⟨0x0a0a0118, 32⟩).isSome = false := by decide +kernel
  refine ⟨⟨hfirst, (hkeys _).symm.trans hfirst⟩, ⟨hsecond, (hkeys _).symm.trans hsecond⟩, ?_⟩
  exact hset (refusedSecond.take 2) "10.10.1.25".toList 70 10 ⟨2000000000, 2000000000⟩
    ⟨2000000000, fun _ ↦ false⟩ false [.snapshot ⟨3000000000, fun _ ↦ false⟩] ⟨0x0a0a0119, 32⟩ rfl
    (by decide +kernel)
    ⟨fun hend : (12000000000 : ℕ) ≤ 3000000000 ↦ absurd hend (by decide), trivial⟩

end Enforcement

end Bazalt.Topology
