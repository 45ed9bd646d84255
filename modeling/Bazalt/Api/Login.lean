import Bazalt.Capture.Fragment
import Bazalt.Lib.Run

/-!
# Logins

A login first asks whether its address has failed too often, then compares the credentials, and
counts a failure at the end.  The question and the count are critical sections of their own, and
what other logins do in between is not seen.
-/

namespace Bazalt.Api

open Lib Capture

def loginWindow : ℕ := 60000000000

def loginMaxFailures : ℕ := 8

def maxSessions : ℕ := 4096

structure AuthConfig where
  enabled : Bool
  username : Bytes
  password : Bytes
  sessionTtl : ℕ

structure LoginFailures where
  windowStarted : ℕ
  failures : ℕ
  deriving DecidableEq, Repr

inductive LoginError where
  | forbidden
  | rateLimited
  deriving DecidableEq, Repr

abbrev SessionToken := List Char

/-- What the logins share. -/
structure AuthManager where
  sessions : List (SessionToken × ℕ) := []
  failures : IpAddr → Option LoginFailures := fun _ ↦ none

/-- The differences of all bytes together; a missing byte counts as zero. -/
def constantTimeEq (a b : Bytes) : Bool :=
  (List.range (max a.length b.length)).foldl
    (fun diff i ↦ diff ||| (a.getD i 0 ^^^ b.getD i 0).toNat) (a.length ^^^ b.length) == 0

namespace AuthManager

/-- Failures whose window is over are dropped. -/
def isRateLimited (m : AuthManager) (ip : IpAddr) (now : ℕ) : AuthManager × Bool :=
  let m := { m with failures := fun ip ↦
    (m.failures ip).filter fun state ↦ decide (now - state.windowStarted < loginWindow) }
  (m, (m.failures ip).any fun state ↦ decide (loginMaxFailures ≤ state.failures))

def recordFailure (m : AuthManager) (ip : IpAddr) (now : ℕ) : AuthManager :=
  let state := (m.failures ip).getD ⟨now, 0⟩
  let state : LoginFailures :=
    if loginWindow ≤ now - state.windowStarted then ⟨now, 1⟩
    else { state with failures := min (state.failures + 1) (2 ^ 32 - 1) }
  { m with failures := Function.update m.failures ip (some state) }

/-- The failures of an address that are counted. -/
def recorded (m : AuthManager) (ip : IpAddr) : ℕ :=
  ((m.failures ip).map LoginFailures.failures).getD 0

def forgive (m : AuthManager) (ip : IpAddr) : AuthManager :=
  { m with failures := Function.update m.failures ip none }

/-- A session that expires first.  Of several the table gives any one, as `first` says. -/
def firstToExpire (sessions : List (SessionToken × ℕ)) (first : ℕ) : Option (SessionToken × ℕ) :=
  let earliest := sessions.filter fun s ↦ sessions.all fun t ↦ decide (s.2 ≤ t.2)
  earliest[first % earliest.length]?

/-- With too many sessions, one that expires first makes room. -/
def openSession (m : AuthManager) (token : SessionToken) (first now ttl : ℕ) : AuthManager :=
  let sessions := m.sessions.filter fun s ↦ decide (now < s.2)
  let sessions :=
    if maxSessions ≤ sessions.length then
      match firstToExpire sessions first with
      | some oldest => sessions.filter fun s ↦ s.1 != oldest.1
      | none => sessions
    else sessions
  { m with sessions := (token, now + ttl) :: sessions.filter fun s ↦ s.1 != token }

end AuthManager

/-- Where a login is: before the question for the limit, before the comparison, before its failure
is counted, and after a success before the failures are dropped and the session is opened. -/
inductive Stage where
  | entered
  | comparing
  | failing
  | succeeding
  | opening
  | returned (result : Except LoginError SessionToken)

structure Login where
  ip : IpAddr
  username : Bytes
  password : Bytes
  stage : Stage := .entered

/-- The next step of a login, with the reading of the clock and the token that it takes, and with
the order of the table. -/
def Login.next (cfg : AuthConfig) (now : ℕ) (token : SessionToken) (first : ℕ) (m : AuthManager)
    (l : Login) : AuthManager × Login :=
  match l.stage with
  | .entered =>
      if cfg.enabled then
        let (m, limited) := m.isRateLimited l.ip now
        (m, { l with stage := if limited then .returned (.error .rateLimited) else .comparing })
      else (m, { l with stage := .returned (.ok []) })
  | .comparing =>
      -- both comparisons are made, whatever the first one gives
      let valid := (constantTimeEq l.username cfg.username).and
        (constantTimeEq l.password cfg.password)
      (m, { l with stage := if valid then .succeeding else .failing })
  | .failing => (m.recordFailure l.ip now, { l with stage := .returned (.error .forbidden) })
  | .succeeding => (m.forgive l.ip, { l with stage := .opening })
  | .opening =>
      (m.openSession token first now cfg.sessionTtl, { l with stage := .returned (.ok token) })
  | .returned _ => (m, l)

structure LoginEvent (ι : Type) where
  login : ι
  now : ℕ
  token : SessionToken := []
  first : ℕ := 0

/-- The logins under way. -/
abbrev Logins (ι : Type) := Pool ι AuthManager Login

/-- The login was not turned away, so its credentials are compared or have been. -/
def Stage.compares : Stage → Bool
  | .entered | .returned (.error .rateLimited) => false
  | _ => true

/-- The credentials are compared or have been, and the result is still to come. -/
def Stage.pending : Stage → Bool
  | .entered | .returned _ => false
  | _ => true

def Stage.isForbidden : Stage → Bool
  | .returned (.error .forbidden) => true
  | _ => false

def Stage.isEntered : Stage → Bool
  | .entered => true
  | _ => false

def Login.Wrong (cfg : AuthConfig) (l : Login) : Prop :=
  l.username ≠ cfg.username ∨ l.password ≠ cfg.password

namespace Logins

section

variable {ι : Type} [DecidableEq ι]

def step (cfg : AuthConfig) (p : Logins ι) (e : LoginEvent ι) : Logins ι :=
  Pool.step (Login.next cfg e.now e.token e.first) p e.login

/-- The logins from `a` whose stage meets `q`. -/
def count [Fintype ι] (a : IpAddr) (q : Stage → Bool) (p : Logins ι) : ℕ :=
  ∑ i, (decide ((p.locals i).ip = a) && q (p.locals i).stage).toNat

/-- The window of `a` is not over when the step reads the clock. -/
def InWindow (a : IpAddr) (p : Logins ι) (e : LoginEvent ι) : Prop :=
  ∀ f ∈ p.shared.failures a, e.now < f.windowStarted + loginWindow

instance (a : IpAddr) (p : Logins ι) (e : LoginEvent ι) : Decidable (InWindow a p e) :=
  inferInstanceAs (Decidable (∀ f ∈ p.shared.failures a, _))

/-- Not too many logins from `a` get to the comparison, and what returns is an error. -/
def Bounded [Fintype ι] (a : IpAddr) (p : Logins ι) : Prop :=
  p.count a Stage.compares ≤ loginMaxFailures ∧ ∀ i, (p.locals i).ip = a → ∀ result,
    (p.locals i).stage = .returned result →
      result = .error .forbidden ∨ result = .error .rateLimited

/-- A login from `a` that asks for the limit while it is not reached finds so few others between
their question and their count that it is not reached with them either. -/
def Fair [Fintype ι] (a : IpAddr) (p : Logins ι) (e : LoginEvent ι) : Prop :=
  (p.locals e.login).ip = a → (p.locals e.login).stage.isEntered = true →
    p.shared.recorded a < loginMaxFailures →
      p.shared.recorded a + p.count a Stage.pending < loginMaxFailures

instance [Fintype ι] (a : IpAddr) (p : Logins ι) (e : LoginEvent ι) : Decidable (Fair a p e) :=
  inferInstanceAs (Decidable (_ → _ → _ → _))

end

end Logins

/-! ## The comparison -/

theorem foldl_or_eq_zero {f : ℕ → ℕ} {l : List ℕ} {diff : ℕ} :
    l.foldl (fun diff i ↦ diff ||| f i) diff = 0 ↔ diff = 0 ∧ ∀ i ∈ l, f i = 0 := by
  induction l generalizing diff with
  | nil => simp
  | cons i l ih => simp [ih, Nat.or_eq_zero_iff, and_assoc]

theorem constantTimeEq_iff {a b : Bytes} : constantTimeEq a b = true ↔ a = b := by
  unfold constantTimeEq
  rw [beq_iff_eq, foldl_or_eq_zero, Nat.xor_eq_zero_iff]
  constructor
  · rintro ⟨hlength, hbytes⟩
    refine List.ext_getElem hlength fun i ha hb ↦ ?_
    have hi := hbytes i (List.mem_range.mpr (lt_max_of_lt_left ha))
    rw [List.getD_eq_getElem _ _ ha, List.getD_eq_getElem _ _ hb] at hi
    have hxor : a[i] ^^^ b[i] = 0 := UInt8.toNat_inj.mp hi
    exact UInt8.xor_eq_zero_iff.mp hxor
  · rintro rfl
    refine ⟨rfl, fun i _ ↦ ?_⟩
    rw [UInt8.xor_self]
    rfl

/-! ## A step of a login -/

section

variable {cfg : AuthConfig} {m : AuthManager} {a : IpAddr} {l : Login} {now first : ℕ}
  {token : SessionToken}

theorem AuthManager.recorded_congr {m' : AuthManager} (h : m'.failures a = m.failures a) :
    m'.recorded a = m.recorded a := by
  unfold recorded
  rw [h]

theorem AuthManager.failures_isRateLimited (ip : IpAddr)
    (h : ∀ f ∈ m.failures a, now < f.windowStarted + loginWindow) :
    (m.isRateLimited ip now).1.failures a = m.failures a := by
  change (m.failures a).filter _ = m.failures a
  cases hstate : m.failures a with
  | none => rfl
  | some state =>
      have hnow := h state hstate
      have hopen : now - state.windowStarted < loginWindow := by
        unfold loginWindow at hnow ⊢
        omega
      exact if_pos (decide_eq_true hopen)

theorem AuthManager.isRateLimited_snd
    (h : ∀ f ∈ m.failures a, now < f.windowStarted + loginWindow) :
    (m.isRateLimited a now).2 = true ↔
      loginMaxFailures ≤ m.recorded a := by
  have hsame := failures_isRateLimited a h
  change ((m.isRateLimited a now).1.failures a).any _ = true ↔ _
  rw [hsame, recorded]
  cases m.failures a with
  | none => simp [loginMaxFailures]
  | some state => simp

theorem AuthManager.recorded_recordFailure
    (h : ∀ f ∈ m.failures a, now < f.windowStarted + loginWindow) :
    (m.recordFailure a now).recorded a = min (m.recorded a + 1) (2 ^ 32 - 1) := by
  change ((Function.update m.failures a _ a).map LoginFailures.failures).getD 0 = _
  rw [Function.update_self, recorded]
  cases hstate : m.failures a with
  | none => simp [loginWindow]
  | some state =>
      have hnow := h state hstate
      have hopen : ¬ loginWindow ≤ now - state.windowStarted := by
        unfold loginWindow at hnow ⊢
        omega
      simp [hopen]

theorem Login.next_ip : (l.next cfg now token first m).2.ip = l.ip := by
  unfold Login.next
  cases l.stage with
  | entered => split_ifs <;> rfl
  | _ => rfl

theorem Login.next_wrong : (l.next cfg now token first m).2.Wrong cfg ↔ l.Wrong cfg := by
  unfold Login.next
  cases l.stage with
  | entered => split_ifs <;> rfl
  | _ => rfl

/-- The failures of an address are changed by its own logins only. -/
theorem Login.next_failures_of_ne (cfg : AuthConfig) (token : SessionToken) (first : ℕ)
    (hne : l.ip ≠ a) (h : ∀ f ∈ m.failures a, now < f.windowStarted + loginWindow) :
    (l.next cfg now token first m).1.failures a = m.failures a := by
  unfold Login.next
  cases l.stage with
  | entered =>
      split_ifs
      · exact AuthManager.failures_isRateLimited l.ip h
      · rfl
  | failing => exact Function.update_of_ne (Ne.symm hne) _ _
  | succeeding => exact Function.update_of_ne (Ne.symm hne) _ _
  | _ => rfl

/-- What a login with wrong credentials does in a step. -/
inductive Login.Turn (a : IpAddr) (m m' : AuthManager) : Stage → Stage → Prop where
  | limited (h : loginMaxFailures ≤ m.recorded a)
      (hsame : m'.failures a = m.failures a) : Turn a m m' .entered (.returned (.error .rateLimited))
  | passed (h : m.recorded a < loginMaxFailures)
      (hsame : m'.failures a = m.failures a) : Turn a m m' .entered .comparing
  | compared (hsame : m'.failures a = m.failures a) : Turn a m m' .comparing .failing
  | counted (hcount : m'.recorded a =
      min (m.recorded a + 1) (2 ^ 32 - 1)) :
      Turn a m m' .failing (.returned (.error .forbidden))
  | ended (e : LoginError) (hsame : m'.failures a = m.failures a) :
      Turn a m m' (.returned (.error e)) (.returned (.error e))

/-- The stages of a login that is not taken for a right one. -/
def Stage.erring : Stage → Bool
  | .succeeding | .opening | .returned (.ok _) => false
  | _ => true

section

variable {m' : AuthManager} {s s' : Stage}

theorem Login.Turn.erring (h : Turn a m m' s s') : s'.erring = true := by
  cases h <;> rfl

/-- The failures that are counted are those that are returned. -/
theorem Login.Turn.recorded_eq (h : Turn a m m' s s') {n n' : ℕ}
    (hn : m.recorded a = min n (2 ^ 32 - 1))
    (hcount : n' + s.isForbidden.toNat = n + s'.isForbidden.toNat) :
    m'.recorded a = min n' (2 ^ 32 - 1) := by
  cases h with
  | limited _ hsame | passed _ hsame | compared hsame =>
      have heq : n' = n := hcount
      rw [AuthManager.recorded_congr hsame, hn, heq]
  | counted hnext =>
      have heq : n' = n + 1 := hcount
      rw [hnext, hn, heq]
      omega
  | ended e hsame =>
      rw [AuthManager.recorded_congr hsame, hn, Nat.add_right_cancel hcount]

/-- Who passes the question for the limit gets to the comparison. -/
theorem Login.Turn.compares_eq (h : Turn a m m' s s') {n n' : ℕ}
    (hcount : n' + s.compares.toNat = n + s'.compares.toNat) :
    n' = n + if s.isEntered = true ∧ m.recorded a < loginMaxFailures then 1 else 0 := by
  cases h with
  | limited hfull =>
      rw [if_neg fun hself ↦ absurd hself.2 (not_lt.mpr hfull)]
      exact hcount
  | passed hfew =>
      rw [if_pos ⟨rfl, hfew⟩]
      exact hcount
  | compared => exact Nat.add_right_cancel hcount
  | counted => exact Nat.add_right_cancel hcount
  | ended e => exact Nat.add_right_cancel hcount

end

/-- A login from `a` has wrong credentials and has not been taken for a right one. -/
def Login.Errs (cfg : AuthConfig) (a : IpAddr) (l : Login) : Prop :=
  l.ip = a → l.Wrong cfg ∧ l.stage.erring = true

theorem Login.turn_next (henabled : cfg.enabled = true) (hwrong : l.Wrong cfg)
    (herring : l.stage.erring = true)
    (h : ∀ f ∈ m.failures l.ip, now < f.windowStarted + loginWindow) :
    Turn l.ip m (l.next cfg now token first m).1 l.stage (l.next cfg now token first m).2.stage := by
  unfold Login.next
  cases hstage : l.stage with
  | entered =>
      rw [if_pos henabled]
      have hsame := AuthManager.failures_isRateLimited l.ip h
      have hlimit := AuthManager.isRateLimited_snd h
      dsimp only
      cases hlimited : (m.isRateLimited l.ip now).2 with
      | false =>
          rw [hlimited] at hlimit
          exact .passed (not_le.mp fun hle ↦ by cases hlimit.mpr hle) hsame
      | true => exact .limited (hlimit.mp hlimited) hsame
  | comparing =>
      have hinvalid : ((constantTimeEq l.username cfg.username).and
          (constantTimeEq l.password cfg.password)) = false := by
        rw [← Bool.not_eq_true]
        intro hvalid
        obtain ⟨husername, hpassword⟩ := Bool.and_eq_true_iff.mp hvalid
        rcases hwrong with hne | hne
        · exact hne (constantTimeEq_iff.mp husername)
        · exact hne (constantTimeEq_iff.mp hpassword)
      simp only [hinvalid]
      exact .compared rfl
  | failing => exact .counted (AuthManager.recorded_recordFailure h)
  | succeeding => simp [hstage, Stage.erring] at herring
  | opening => simp [hstage, Stage.erring] at herring
  | returned result =>
      cases result with
      | error e =>
          dsimp only
          rw [hstage]
          exact .ended e rfl
      | ok token => simp [hstage, Stage.erring] at herring

end

/-! ## The run -/

namespace Logins

section

variable {ι : Type} [DecidableEq ι] [Fintype ι] {cfg : AuthConfig} {a : IpAddr} {p : Logins ι}
  {e : LoginEvent ι}

/-- The logins from `a` have wrong credentials, and the failures that are counted are theirs. -/
structure Erring (cfg : AuthConfig) (a : IpAddr) (p : Logins ι) : Prop where
  errs : ∀ i, (p.locals i).Errs cfg a
  recorded_eq : p.shared.recorded a = min (p.count a Stage.isForbidden) (2 ^ 32 - 1)

/-- A step moves the login that takes it from one stage to the next in the counts. -/
theorem count_step (cfg : AuthConfig) (p : Logins ι) (e : LoginEvent ι) (a : IpAddr)
    (q : Stage → Bool) : (p.step cfg e).count a q + (decide ((p.locals e.login).ip = a) &&
        q (p.locals e.login).stage).toNat =
      p.count a q + (decide ((p.locals e.login).ip = a) &&
        q ((p.locals e.login).next cfg e.now e.token e.first p.shared).2.stage).toNat := by
  have hsum := @Pool.sum_locals_step _ _ _ _ (Login.next cfg e.now e.token e.first) p _ _ _
    (fun l ↦ (decide (l.ip = a) && q l.stage).toNat) e.login
  rwa [Login.next_ip] at hsum

omit [DecidableEq ι] in
theorem Erring.compares_eq (h : p.Erring cfg a) :
    p.count a Stage.compares = p.count a Stage.pending + p.count a Stage.isForbidden := by
  unfold count
  rw [← Finset.sum_add_distrib]
  apply Finset.sum_congr rfl
  intro i _
  by_cases hip : (p.locals i).ip = a
  · have herring := (h.errs i hip).2
    simp only [hip, decide_true, Bool.true_and]
    cases hstage : (p.locals i).stage with
    | returned result =>
        rw [hstage] at herring
        cases result with
        | error e => cases e <;> rfl
        | ok token => cases herring
    | _ => rfl
  · simp [hip]

/-- A step of another address changes nothing. -/
theorem count_step_of_ne (cfg : AuthConfig) (hne : (p.locals e.login).ip ≠ a)
    (q : Stage → Bool) : (p.step cfg e).count a q = p.count a q := by
  have hcount := count_step cfg p e a q
  simpa [hne] using hcount

theorem count_step_of_eq (cfg : AuthConfig) (heq : (p.locals e.login).ip = a) (q : Stage → Bool) :
    (p.step cfg e).count a q + (q (p.locals e.login).stage).toNat = p.count a q +
      (q ((p.locals e.login).next cfg e.now e.token e.first p.shared).2.stage).toNat := by
  have hcount := count_step cfg p e a q
  simpa [heq] using hcount

theorem Erring.turn (henabled : cfg.enabled = true) (h : p.Erring cfg a) (hwindow : InWindow a p e)
    (hip : (p.locals e.login).ip = a) :
    Login.Turn a p.shared (p.step cfg e).shared (p.locals e.login).stage
      ((p.locals e.login).next cfg e.now e.token e.first p.shared).2.stage := by
  obtain ⟨hwrong, herring⟩ := h.errs e.login hip
  subst hip
  exact Login.turn_next henabled hwrong herring hwindow

theorem errs_step (hself : ((p.locals e.login).next cfg e.now e.token e.first p.shared).2.Errs cfg a)
    (h : p.Erring cfg a) (i : ι) : ((p.step cfg e).locals i).Errs cfg a :=
  Pool.forall_locals_step (Q := fun _ (l : Login) ↦ l.Errs cfg a) hself (fun j _ ↦ h.errs j) i

/-- The step lemma. -/
theorem Erring.step (henabled : cfg.enabled = true) (h : p.Erring cfg a) (hwindow : InWindow a p e) :
    (p.step cfg e).Erring cfg a := by
  by_cases hip : (p.locals e.login).ip = a
  · have hturn := h.turn henabled hwindow hip
    have hwrong := (h.errs e.login hip).1
    constructor
    · apply errs_step _ h
      exact fun _ ↦ ⟨Login.next_wrong.mpr hwrong, hturn.erring⟩
    · have hcount := count_step_of_eq cfg hip Stage.isForbidden
      exact hturn.recorded_eq h.recorded_eq hcount
  · constructor
    · apply errs_step _ h
      intro hself
      rw [Login.next_ip] at hself
      exact absurd hself hip
    · have hsame := Login.next_failures_of_ne cfg e.token e.first hip hwindow
      rw [count_step_of_ne cfg hip, ← h.recorded_eq]
      exact AuthManager.recorded_congr hsame

/-- Who passes the question for the limit is one more that gets to the comparison. -/
theorem compares_step (henabled : cfg.enabled = true) (h : p.Erring cfg a)
    (hwindow : InWindow a p e) : (p.step cfg e).count a Stage.compares =
      p.count a Stage.compares + if (p.locals e.login).ip = a ∧
        (p.locals e.login).stage.isEntered = true ∧ p.shared.recorded a < loginMaxFailures
          then 1 else 0 := by
  by_cases hip : (p.locals e.login).ip = a
  · have hcount := count_step_of_eq cfg hip Stage.compares
    have hturn := h.turn henabled hwindow hip
    simp only [hip, true_and]
    exact hturn.compares_eq hcount
  · rw [count_step_of_ne cfg hip, if_neg fun hself ↦ hip hself.1, add_zero]

/-- The bound is kept by a step exactly when the step is fair. -/
theorem bounded_step_iff (henabled : cfg.enabled = true) (h : p.Erring cfg a)
    (hwindow : InWindow a p e) (hbounded : p.count a Stage.compares ≤ loginMaxFailures) :
    (p.step cfg e).count a Stage.compares ≤ loginMaxFailures ↔ Fair a p e := by
  have hcompares := h.compares_eq
  have hrecorded := h.recorded_eq
  rw [compares_step henabled h hwindow]
  unfold Fair loginMaxFailures at *
  constructor
  · intro hle hip hentered hfew
    rw [if_pos ⟨hip, hentered, hfew⟩] at hle
    omega
  · intro hfair
    split_ifs with hself
    · have hroom := hfair hself.1 hself.2.1 hself.2.2
      omega
    · exact hbounded

omit [DecidableEq ι] in
theorem Erring.bounded_iff (h : p.Erring cfg a) :
    p.Bounded a ↔ p.count a Stage.compares ≤ loginMaxFailures := by
  refine ⟨And.left, fun hle ↦ ⟨hle, fun i hip result hstage ↦ ?_⟩⟩
  have herring := (h.errs i hip).2
  rw [hstage] at herring
  cases result with
  | error e =>
      cases e with
      | forbidden => exact .inl rfl
      | rateLimited => exact .inr rfl
  | ok token => cases herring

/-- The run lemma. -/
theorem Erring.bounded_runFrom_iff (henabled : cfg.enabled = true) {events : List (LoginEvent ι)}
    (h : p.Erring cfg a) (hbounded : p.Bounded a)
    (hwindow : Along (Logins.step cfg) (InWindow a) p events) :
    (∀ before later, events = before ++ later →
        (runFrom (Logins.step cfg) p before).Bounded a) ↔
      Along (Logins.step cfg) (Fair a) p events := by
  induction events generalizing p with
  | nil =>
      refine ⟨fun _ ↦ trivial, fun _ before later hsplit ↦ ?_⟩
      obtain ⟨rfl, -⟩ := List.append_eq_nil_iff.mp hsplit.symm
      exact hbounded
  | cons e events ih =>
      have hstep := h.step henabled hwindow.1
      have hfair := bounded_step_iff henabled h hwindow.1 hbounded.1
      rw [← hstep.bounded_iff] at hfair
      constructor
      · intro hall
        have hfirst := hall [e] events rfl
        refine ⟨hfair.mp hfirst, (ih hstep hfirst hwindow.2).mp fun before later hsplit ↦ ?_⟩
        exact hall (e :: before) later (by rw [hsplit, List.cons_append])
      · rintro ⟨hself, hlater⟩ before later hsplit
        cases before with
        | nil => exact hbounded
        | cons e' before =>
            obtain ⟨rfl, hrest⟩ := List.cons.inj hsplit
            exact (ih hstep (hfair.mpr hself) hwindow.2).mpr hlater before later hrest

end

end Logins

/-! ## Logins with wrong credentials from one address -/

/-- Logins that have not begun, and no failure that is counted. -/
structure Logins.Fresh {ι : Type} (cfg : AuthConfig) (a : IpAddr) (p : Logins ι) : Prop where
  failures_eq : p.shared.failures a = none
  entered : ∀ i, (p.locals i).ip = a → (p.locals i).stage = .entered
  wrong : ∀ i, (p.locals i).ip = a → (p.locals i).Wrong cfg

section

variable {ι : Type} [Fintype ι] {cfg : AuthConfig} {a : IpAddr} {p : Logins ι}

theorem Logins.Fresh.count_eq (h : p.Fresh cfg a) {q : Stage → Bool} (hq : q .entered = false) :
    p.count a q = 0 := by
  apply Finset.sum_eq_zero
  intro i _
  by_cases hip : (p.locals i).ip = a
  · rw [h.entered i hip, hq, Bool.and_false]
    rfl
  · simp [hip]

theorem Logins.Fresh.erring (h : p.Fresh cfg a) : p.Erring cfg a := by
  constructor
  · intro i hip
    rw [h.entered i hip]
    exact ⟨h.wrong i hip, rfl⟩
  · rw [h.count_eq rfl, AuthManager.recorded, h.failures_eq]
    rfl

end

theorem logins_bounded_iff {ι : Type} [DecidableEq ι] [Fintype ι] (cfg : AuthConfig) (a : IpAddr)
    (start : Logins ι) (events : List (LoginEvent ι)) (henabled : cfg.enabled = true)
    (hfresh : start.Fresh cfg a)
    (hwindow : Along (Logins.step cfg) (Logins.InWindow a) start events) :
    (∀ before later, events = before ++ later →
        (runFrom (Logins.step cfg) start before).Bounded a) ↔
      Along (Logins.step cfg) (Logins.Fair a) start events := by
  have herring := hfresh.erring
  apply herring.bounded_runFrom_iff henabled _ hwindow
  rw [herring.bounded_iff, hfresh.count_eq rfl]
  exact Nat.zero_le _

def adminAuth : AuthConfig := ⟨true, [97, 100], [115], 3600000000000⟩

def guesser : IpAddr := .v4 0xc0a80007

/-- Guesses of a password. -/
def guesses (n : ℕ) : Logins (Fin n) :=
  ⟨{}, fun i ↦ ⟨guesser, [97, 100], [UInt8.ofNat i], .entered⟩⟩

/-- Each login in turn takes a step, and the clock goes on. -/
def oneStepEach (n start : ℕ) : List (LoginEvent (Fin n)) :=
  (List.finRange n).map fun i ↦ ⟨i, start + i, [], 0⟩

/-- Nine guesses ask for the limit before the first of them is counted. -/
def burst : List (LoginEvent (Fin 9)) := oneStepEach 9 0 ++ oneStepEach 9 100 ++ oneStepEach 9 200

/-- Nine guesses, each after the one before. -/
def queueUp : List (LoginEvent (Fin 9)) :=
  (List.finRange 9).flatMap fun i ↦ List.replicate 3 ⟨i, i, [], 0⟩

theorem fresh_guesses : (guesses 9).Fresh adminAuth guesser where
  failures_eq := rfl
  entered _ _ := rfl
  wrong i _ := .inr (by revert i; decide)

theorem logins_bounded_iff_queueUp :
    Along (Logins.step adminAuth) (Logins.Fair guesser) (guesses 9) queueUp ∧
      ∀ before later, queueUp = before ++ later →
        (runFrom (Logins.step adminAuth) (guesses 9) before).Bounded guesser := by
  have hfair : Along (Logins.step adminAuth) (Logins.Fair guesser) (guesses 9) queueUp := by
    decide +kernel
  exact ⟨hfair, (logins_bounded_iff adminAuth guesser (guesses 9) queueUp rfl fresh_guesses
    (by decide +kernel)).mpr hfair⟩

/-- Nine guesses come back as forbidden, all in a window. -/
theorem not_logins_bounded_burst : (guesses 9).Fresh adminAuth guesser ∧
    Along (Logins.step adminAuth) (Logins.InWindow guesser) (guesses 9) burst ∧
      (runFrom (Logins.step adminAuth) (guesses 9) burst).count guesser Stage.isForbidden = 9 ∧
        ¬ (runFrom (Logins.step adminAuth) (guesses 9) burst).Bounded guesser := by
  refine ⟨fresh_guesses, by decide +kernel, by decide +kernel, fun hbounded ↦ ?_⟩
  exact absurd hbounded.1 (by decide +kernel)

end Bazalt.Api
