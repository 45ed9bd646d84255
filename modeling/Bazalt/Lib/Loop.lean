import Mathlib.Tactic

/-!
# Loops

The body of a loop either goes round again or stops.  When a measure decreases with every
round, the loop leaves, and what it leaves with does not depend on the fuel.
-/

namespace Bazalt.Lib

inductive Turn (σ : Type*) where
  | again (s : σ)
  | stop (s : σ)

def Turn.state {σ : Type*} : Turn σ → σ
  | again s => s
  | stop s => s

section

variable {σ : Type*} (turn : σ → Turn σ)

def loop : ℕ → σ → σ
  | 0, s => s
  | fuel + 1, s =>
      match turn s with
      | .again s' => loop fuel s'
      | .stop r => r

/-- From `s`, the loop leaves with `r`. -/
inductive Leaves : σ → σ → Prop
  | stop {s r : σ} (h : turn s = .stop r) : Leaves s r
  | again {s s' r : σ} (h : turn s = .again s') (hr : Leaves s' r) : Leaves s r

variable {turn}

theorem leaves_loop {m : σ → ℕ} (hm : ∀ s s', turn s = .again s' → m s' < m s) {fuel : ℕ} {s : σ}
    (h : m s < fuel) : Leaves turn s (loop turn fuel s) := by
  induction fuel generalizing s with
  | zero => omega
  | succ fuel ih =>
      unfold loop
      cases hturn : turn s with
      | stop r => exact .stop hturn
      | again s' =>
          have hless := hm s s' hturn
          exact .again hturn (ih (by omega))

/-- When the loop would stop where the fuel ends, it has left. -/
theorem leaves_of_stop {fuel : ℕ} {s : σ}
    (h : turn (loop turn fuel s) = .stop (loop turn fuel s)) : Leaves turn s (loop turn fuel s) := by
  induction fuel generalizing s with
  | zero => exact .stop h
  | succ fuel ih =>
      unfold loop at h ⊢
      cases hturn : turn s with
      | stop r => exact .stop hturn
      | again s' =>
          rw [hturn] at h
          exact .again hturn (ih h)

theorem Leaves.unique {s r r' : σ} (h : Leaves turn s r) (h' : Leaves turn s r') : r = r' := by
  induction h with
  | stop hs =>
      cases h' with
      | stop hs' => exact Turn.stop.inj (hs.symm.trans hs')
      | again hs' _ => cases hs.symm.trans hs'
  | again hs _ ih =>
      cases h' with
      | stop hs' => cases hs.symm.trans hs'
      | again hs' hr' =>
          obtain rfl := Turn.again.inj (hs.symm.trans hs')
          exact ih hr'

/-- The rule of invariants: `I` holds before every round, and a round that stops gives `J`. -/
theorem Leaves.rule {I J : σ → Prop} {s r : σ} (h : Leaves turn s r)
    (hagain : ∀ s s', I s → turn s = .again s' → I s')
    (hstop : ∀ s r, I s → turn s = .stop r → J r) (hs : I s) : J r := by
  induction h with
  | stop h => exact hstop _ _ hs h
  | again h _ ih => exact ih (hagain _ _ hs h)

variable (turn) in
/-- From `s`, a round of the loop begins with `t`. -/
def Reaches : σ → σ → Prop := Relation.ReflTransGen fun s s' ↦ turn s = .again s'

theorem Reaches.invariant {I : σ → Prop} {s t : σ} (h : Reaches turn s t)
    (hagain : ∀ s s', I s → turn s = .again s' → I s') (hs : I s) : I t := by
  induction h with
  | refl => exact hs
  | tail _ hturn ih => exact hagain _ _ ih hturn

theorem Leaves.invariant {I : σ → Prop} {s r : σ} (h : Leaves turn s r)
    (hturn : ∀ s, I s → I (turn s).state) (hs : I s) : I r := by
  refine h.rule (fun s s' hI hturn' ↦ ?_) (fun s r hI hturn' ↦ ?_) hs
  all_goals
    have hnext := hturn s hI
    rwa [hturn'] at hnext

end

section Ghost

variable {σ γ : Type*} (turn : σ → Turn σ) (note : σ → γ → γ)

/-- A round with a ghost state beside, which notes the state that the round finds. -/
def ghostTurn (s : σ × γ) : Turn (σ × γ) :=
  match turn s.1 with
  | .again s' => .again (s', note s.1 s.2)
  | .stop s' => .stop (s', note s.1 s.2)

variable {turn note}

theorem ghostTurn_again {s s' : σ × γ} (h : ghostTurn turn note s = .again s') :
    turn s.1 = .again s'.1 ∧ s'.2 = note s.1 s.2 := by
  unfold ghostTurn at h
  split at h
  next hturn =>
    obtain rfl := Turn.again.inj h
    exact ⟨hturn, rfl⟩
  next => cases h

theorem ghostTurn_stop {s s' : σ × γ} (h : ghostTurn turn note s = .stop s') :
    turn s.1 = .stop s'.1 ∧ s'.2 = note s.1 s.2 := by
  unfold ghostTurn at h
  split at h
  next => cases h
  next hturn =>
    obtain rfl := Turn.stop.inj h
    exact ⟨hturn, rfl⟩

/-- The ghost state changes nothing. -/
theorem loop_ghostTurn (fuel : ℕ) (s : σ) (g : γ) :
    (loop (ghostTurn turn note) fuel (s, g)).1 = loop turn fuel s := by
  induction fuel generalizing s g with
  | zero => rfl
  | succ fuel ih =>
      unfold loop ghostTurn
      cases hturn : turn s with
      | again s' => exact ih s' (note s g)
      | stop s' => rfl

theorem leaves_ghostTurn {m : σ → ℕ} (hm : ∀ s s', turn s = .again s' → m s' < m s) {fuel : ℕ}
    {s : σ} (h : m s < fuel) (g : γ) :
    Leaves (ghostTurn turn note) (s, g) (loop (ghostTurn turn note) fuel (s, g)) :=
  leaves_loop (m := fun s ↦ m s.1) (fun _ _ hagain ↦ hm _ _ (ghostTurn_again hagain).1) h

/-- The rule of invariants with a ghost state. -/
theorem Leaves.ghost_rule {I J : σ → γ → Prop} {s r : σ × γ}
    (h : Leaves (ghostTurn turn note) s r)
    (hagain : ∀ s g s', I s g → turn s = .again s' → I s' (note s g))
    (hstop : ∀ s g r, I s g → turn s = .stop r → J r (note s g)) (hs : I s.1 s.2) :
    J r.1 r.2 := by
  refine h.rule (I := fun s ↦ I s.1 s.2) (J := fun s ↦ J s.1 s.2) ?_ ?_ hs
  · intro s s' hI hturn
    obtain ⟨hstep, hnote⟩ := ghostTurn_again hturn
    rw [hnote]
    exact hagain _ _ _ hI hstep
  · intro s r hI hturn
    obtain ⟨hstep, hnote⟩ := ghostTurn_stop hturn
    rw [hnote]
    exact hstop _ _ _ hI hstep

theorem Leaves.ghost_invariant {I : σ → γ → Prop} {s r : σ × γ}
    (h : Leaves (ghostTurn turn note) s r) (hturn : ∀ s g, I s g → I (turn s).state (note s g))
    (hs : I s.1 s.2) : I r.1 r.2 := by
  refine h.ghost_rule (fun s g s' hI hstep ↦ ?_) (fun s g r hI hstep ↦ ?_) hs
  all_goals
    have hnext := hturn s g hI
    rwa [hstep] at hnext

end Ghost

section Two

variable {σ τ : Type*} {turn : σ → Turn σ} {turn' : τ → Turn τ} {R : σ → τ → Prop}

/-- Two rounds go on together or stop together, in related states. -/
def Beside (R : σ → τ → Prop) : Turn σ → Turn τ → Prop
  | .again s, .again t => R s t
  | .stop s, .stop t => R s t
  | _, _ => False

/-- Two loops that go round together leave with related states. -/
theorem Leaves.beside (hturn : ∀ s t, R s t → Beside R (turn s) (turn' t)) {s r : σ} {t u : τ}
    (hs : Leaves turn s r) (ht : Leaves turn' t u) (h : R s t) : R r u := by
  induction hs generalizing t with
  | stop hstop =>
      have hboth := hturn _ _ h
      rw [hstop] at hboth
      cases ht with
      | stop hstop' =>
          rw [hstop'] at hboth
          exact hboth
      | again hagain' _ =>
          rw [hagain'] at hboth
          exact hboth.elim
  | again hagain _ ih =>
      have hboth := hturn _ _ h
      rw [hagain] at hboth
      cases ht with
      | stop hstop' =>
          rw [hstop'] at hboth
          exact hboth.elim
      | again hagain' hrest =>
          rw [hagain'] at hboth
          exact ih hrest hboth

end Two

end Bazalt.Lib
