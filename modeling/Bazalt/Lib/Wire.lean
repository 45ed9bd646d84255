import Mathlib.Tactic

/-!
# Numbers on the wire, and byte logs

Fixed-width little-endian numbers, and prefixes of a concatenation of frames.
-/

namespace Bazalt.Lib

/-- The `w` lowest bytes of a number, the lowest first. -/
def leBytes : ℕ → ℕ → List UInt8
  | 0, _ => []
  | w + 1, n => UInt8.ofNat n :: leBytes w (n / 256)

def ofLe : List UInt8 → ℕ
  | [] => 0
  | b :: bs => b.toNat + 256 * ofLe bs

@[simp] theorem length_leBytes (w n : ℕ) : (leBytes w n).length = w := by
  induction w generalizing n with
  | zero => rfl
  | succ w ih => simp [leBytes, ih]

@[simp] theorem ofLe_leBytes (w n : ℕ) : ofLe (leBytes w n) = n % 256 ^ w := by
  induction w generalizing n with
  | zero => simp [leBytes, ofLe, Nat.mod_one]
  | succ w ih =>
      have hbyte : (UInt8.ofNat n).toNat = n % 256 := UInt8.toNat_ofNat'
      rw [leBytes, ofLe, ih, hbyte, pow_succ', Nat.mod_mul]

theorem ofLe_leBytes_of_lt {w n : ℕ} (h : n < 256 ^ w) : ofLe (leBytes w n) = n := by
  rw [ofLe_leBytes, Nat.mod_eq_of_lt h]

/-- A prefix of a concatenation is made of whole pieces and the beginning of the next. -/
theorem exists_take_of_prefix_flatten {β : Type*} {fs : List (List β)} {l : List β}
    (h : l <+: fs.flatten) : ∃ k part, l = (fs.take k).flatten ++ part ∧ k ≤ fs.length ∧
      (part = [] ∨ ∃ f, fs[k]? = some f ∧ part <+: f ∧ part.length < f.length) := by
  induction fs generalizing l with
  | nil =>
      rw [List.flatten_nil, List.prefix_nil] at h
      exact ⟨0, [], by simp [h], le_rfl, .inl rfl⟩
  | cons f fs ih =>
      rw [List.flatten_cons] at h
      rcases Nat.lt_or_ge l.length f.length with hlt | hge
      · have hin : l <+: f := List.prefix_of_prefix_length_le h (List.prefix_append _ _) hlt.le
        exact ⟨0, l, by simp, Nat.zero_le _, .inr ⟨f, by simp, hin, hlt⟩⟩
      · obtain ⟨l', rfl⟩ := List.prefix_of_prefix_length_le (List.prefix_append _ _) h hge
        obtain ⟨k, part, rfl, hk, hpart⟩ := ih ((List.prefix_append_right_inj f).mp h)
        exact ⟨k + 1, part, by simp, by simpa using hk, by simpa using hpart⟩

end Bazalt.Lib
