import Mathlib.Tactic

/-!
# Shared types

The values that pass between the stages of the pipeline: bytes, 64-bit numbers and
content records.  Unsigned 64-bit numbers are natural numbers with the saturating
additions of the source written out.
-/

namespace Bazalt

abbrev Bytes := List UInt8

def u64Max : ℕ := 2 ^ 64 - 1

/-- `u64::saturating_add`, also `usize::saturating_add` on 64-bit targets. -/
def satAdd (a b : ℕ) : ℕ := min (a + b) u64Max

theorem satAdd_of_le {a b : ℕ} (h : a + b ≤ u64Max) : satAdd a b = a + b :=
  min_eq_left h

theorem satAdd_le (a b : ℕ) : satAdd a b ≤ u64Max := min_le_right _ _

theorem le_satAdd {a b : ℕ} (h : a ≤ u64Max) : a ≤ satAdd a b :=
  le_min (Nat.le_add_right a b) h

theorem satAdd_le_add (a b : ℕ) : satAdd a b ≤ a + b := min_le_left _ _

theorem satAdd_eq_of_lt {a b : ℕ} (h : satAdd a b < u64Max) : satAdd a b = a + b := by
  unfold satAdd at *
  omega

theorem except_bind_eq_ok {ε α β : Type} {x : Except ε α} {f : α → Except ε β} {r : β} :
    (x >>= f) = .ok r ↔ ∃ a, x = .ok a ∧ f a = .ok r := by
  cases x with
  | error e => simp [bind, Except.bind]
  | ok a => simp [bind, Except.bind]

abbrev Uuid := BitVec 128

inductive Direction where
  | aToB
  | bToA
  deriving DecidableEq, Repr

def Direction.opposite : Direction → Direction
  | .aToB => .bToA
  | .bToA => .aToB

inductive ContentView where
  | tcpRaw
  | httpRequestHeaders
  | httpRequestBody
  | httpRequestDecodedBody
  | httpResponseHeaders
  | httpResponseBody
  | httpResponseDecodedBody
  deriving DecidableEq, Repr

/-- A stretch of one direction of a flow, as one stage hands it to the next. -/
structure ContentRecord where
  id : Uuid
  flowId : Uuid
  tsNs : ℕ
  service : Option String
  direction : Direction
  view : ContentView
  streamOffset : ℕ
  data : Bytes
  deriving DecidableEq, Repr

end Bazalt
