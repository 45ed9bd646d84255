import Mathlib.Algebra.BigOperators.Group.Finset.Basic
import Mathlib.Tactic

/-!
# Runs

A system is a step function, a run a list of events.  What every step keeps, as long as
its condition is met, holds in every state that a run reaches.

Several callers that share a state are a pool: each keeps a state of its own, and an event
says which of them takes its next step.
-/

namespace Bazalt.Lib

section

variable {σ ε : Type*} (step : σ → ε → σ)

/-- The state after the events of a run. -/
def runFrom (s : σ) (es : List ε) : σ := es.foldl step s

@[simp] theorem runFrom_nil (s : σ) : runFrom step s [] = s := rfl

@[simp] theorem runFrom_cons (s : σ) (e : ε) (es : List ε) :
    runFrom step s (e :: es) = runFrom step (step s e) es := rfl

theorem runFrom_append (s : σ) (as bs : List ε) :
    runFrom step s (as ++ bs) = runFrom step (runFrom step s as) bs :=
  List.foldl_append

/-- Every event of a run meets `P` in the state that it finds. -/
def Along (P : σ → ε → Prop) : σ → List ε → Prop
  | _, [] => True
  | s, e :: es => P s e ∧ Along P (step s e) es

variable {step} {P : σ → ε → Prop}

theorem along_append {s : σ} {as bs : List ε} :
    Along step P s (as ++ bs) ↔ Along step P s as ∧ Along step P (runFrom step s as) bs := by
  induction as generalizing s with
  | nil => simp [Along]
  | cons e as ih => simp [Along, ih, and_assoc]

/-- Every event of the run meets `P` after those before it. -/
theorem along_iff {s : σ} {es : List ε} : Along step P s es ↔
    ∀ before e later, es = before ++ e :: later → P (runFrom step s before) e := by
  constructor
  · rintro h before e later rfl
    exact (along_append.mp h).2.1
  · intro h
    induction es generalizing s with
    | nil => trivial
    | cons e es ih =>
        refine ⟨h [] e es rfl, ih fun before e' later hsplit ↦ ?_⟩
        exact h (e :: before) e' later (by rw [hsplit, List.cons_append])

theorem Along.imp {Q : σ → ε → Prop} {s : σ} {es : List ε} (h : Along step P s es)
    (himp : ∀ s e, P s e → Q s e) : Along step Q s es :=
  along_iff.mpr fun before e later hsplit ↦ himp _ e (along_iff.mp h before e later hsplit)

theorem Along.and {Q : σ → ε → Prop} {s : σ} {es : List ε} (hP : Along step P s es)
    (hQ : Along step Q s es) : Along step (fun s e ↦ P s e ∧ Q s e) s es :=
  along_iff.mpr fun before e later hsplit ↦
    ⟨along_iff.mp hP before e later hsplit, along_iff.mp hQ before e later hsplit⟩

instance instDecidableAlong [∀ s e, Decidable (P s e)] :
    ∀ (s : σ) (es : List ε), Decidable (Along step P s es)
  | _, [] => .isTrue trivial
  | s, e :: es =>
      have := instDecidableAlong (step s e) es
      inferInstanceAs (Decidable (P s e ∧ Along step P (step s e) es))

/-- The invariant rule. -/
theorem invariant_runFrom {I : σ → Prop} (hstep : ∀ s e, I s → P s e → I (step s e))
    {s : σ} {es : List ε} (hs : I s) (hP : Along step P s es) : I (runFrom step s es) := by
  induction es generalizing s with
  | nil => exact hs
  | cons e es ih => exact ih (hstep s e hs hP.1) hP.2

/-- The invariant rule for steps without a condition. -/
theorem invariant_runFrom_of_step {I : σ → Prop} (hstep : ∀ s e, I s → I (step s e))
    {s : σ} (es : List ε) (hs : I s) : I (runFrom step s es) := by
  induction es generalizing s with
  | nil => exact hs
  | cons e es ih => exact ih (hstep s e hs)

/-- The termination rule: when every step of a run lowers the measure, it has no more steps than
the measure says. -/
theorem Along.length_add_le {μ : σ → ℕ} {s : σ} {es : List ε}
    (h : Along step (fun s e ↦ μ (step s e) < μ s) s es) :
    es.length + μ (runFrom step s es) ≤ μ s := by
  induction es generalizing s with
  | nil => exact (Nat.zero_add _).le
  | cons e es ih =>
      have hrest := ih h.2
      have hfirst := h.1
      rw [List.length_cons, runFrom_cons]
      omega

end

/-! ## Pools -/

/-- Changing one of the summands. -/
theorem sum_update_add {ι L M : Type*} [DecidableEq ι] [Fintype ι] [AddCommMonoid M]
    (f : ι → L → M) (g : ι → L) (i : ι) (v : L) :
    ∑ j, f j (Function.update g i v j) + f i (g i) = ∑ j, f j (g j) + f i v := by
  have hothers : ∑ j ∈ Finset.univ.erase i, f j (Function.update g i v j) =
      ∑ j ∈ Finset.univ.erase i, f j (g j) :=
    Finset.sum_congr rfl fun j hj ↦ by rw [Function.update_of_ne (Finset.ne_of_mem_erase hj)]
  rw [← Finset.sum_erase_add _ _ (Finset.mem_univ i), hothers, Function.update_self,
    ← Finset.sum_erase_add (f := fun j ↦ f j (g j)) _ (Finset.mem_univ i)]
  exact add_right_comm _ _ _

/-- The callers of a small pool are written as numerals. -/
instance neZero_one : NeZero 1 := ⟨by decide⟩

instance neZero_two : NeZero 2 := ⟨by decide⟩

instance neZero_three : NeZero 3 := ⟨by decide⟩

/-- Callers with a state each, and the state they share. -/
structure Pool (ι S L : Type*) where
  shared : S
  locals : ι → L

namespace Pool

variable {ι S L : Type*} [DecidableEq ι]

/-- The caller `i` takes its next step. -/
def step (next : S → L → S × L) (p : Pool ι S L) (i : ι) : Pool ι S L where
  shared := (next p.shared (p.locals i)).1
  locals := Function.update p.locals i (next p.shared (p.locals i)).2

variable {next : S → L → S × L} {p : Pool ι S L}

@[simp] theorem shared_step (i : ι) :
    (p.step next i).shared = (next p.shared (p.locals i)).1 := rfl

@[simp] theorem locals_step_self (i : ι) :
    (p.step next i).locals i = (next p.shared (p.locals i)).2 :=
  Function.update_self _ _ _

theorem locals_step_of_ne {i j : ι} (h : j ≠ i) : (p.step next i).locals j = p.locals j :=
  Function.update_of_ne h _ _

/-- What holds of every caller after a step: the one that took it, and the others. -/
theorem forall_locals_step {Q : ι → L → Prop} {i : ι}
    (hself : Q i (next p.shared (p.locals i)).2) (hothers : ∀ j, j ≠ i → Q j (p.locals j)) (j : ι) :
    Q j ((p.step next i).locals j) := by
  by_cases h : j = i
  · subst h
    rwa [locals_step_self]
  · rw [locals_step_of_ne h]
    exact hothers j h

/-- A step changes a sum over the callers by what it does to the one that took it. -/
theorem sum_locals_step [Fintype ι] {M : Type*} [AddCommMonoid M] (f : L → M) (i : ι) :
    ∑ j, f ((p.step next i).locals j) + f (p.locals i) =
      ∑ j, f (p.locals j) + f (next p.shared (p.locals i)).2 :=
  sum_update_add (fun _ ↦ f) p.locals i _

end Pool

end Bazalt.Lib
