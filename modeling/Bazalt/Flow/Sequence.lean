import Bazalt.Flow.Reassembly

/-!
# Extended sequence numbers

`extendSeq` picks, among the 64-bit numbers that agree with a wire number modulo
`2 ^ 32`, the one nearest to the reference.
-/

namespace Bazalt.Flow

/-- The signed distance of a wire number from a reference. -/
def seqDelta (seq : BitVec 32) (reference : ℕ) : ℤ := (seq - BitVec.ofNat 32 reference).toInt

theorem extendSeq_eq (seq : BitVec 32) (reference : ℕ) : extendSeq seq reference =
    if 0 ≤ seqDelta seq reference then satAdd reference (seqDelta seq reference).toNat
    else reference - (-seqDelta seq reference).toNat := rfl

theorem seqDelta_ofNat {v r : ℕ} (hlo : r ≤ v + 2 ^ 31) (hhi : v < r + 2 ^ 31) :
    seqDelta (BitVec.ofNat 32 v) r = (v : ℤ) - r := by
  rw [seqDelta, BitVec.toInt_sub, BitVec.toInt_ofNat', BitVec.toInt_ofNat', Int.sub_bmod_bmod,
    Int.bmod_sub_bmod]
  exact Int.bmod_eq_of_le (by omega) (by omega)

/-- A number near the reference is read back from its wire form. -/
theorem extendSeq_ofNat {v r : ℕ} (hlo : r ≤ v + 2 ^ 31) (hhi : v < r + 2 ^ 31)
    (hmax : v ≤ u64Max) : extendSeq (BitVec.ofNat 32 v) r = v := by
  rw [extendSeq_eq, seqDelta_ofNat hlo hhi]
  split_ifs with hsign
  · rw [satAdd_of_le (by omega)]
    omega
  · omega

/-- The extended number of a wire number, without saturation. -/
def exactSeq (seq : BitVec 32) (reference : ℕ) : ℤ := reference + seqDelta seq reference

theorem extendSeq_exact {n : ℕ} (seq : BitVec 32) (hlo : initialSeqEpoch ≤ n)
    (hmax : exactSeq seq n < 2 ^ 64) : (extendSeq seq n : ℤ) = exactSeq seq n := by
  have hge : -2 ^ 31 ≤ seqDelta seq n := BitVec.le_toInt _
  unfold initialSeqEpoch at hlo
  unfold exactSeq at hmax ⊢
  rw [extendSeq_eq]
  split_ifs with hsign
  · rw [satAdd_of_le (by unfold u64Max; omega)]
    omega
  · omega

/-! ## Moving a wire number and its reference together -/

theorem exactSeq_shift {d : ℕ} {k : BitVec 32} (hk : BitVec.ofNat 32 d = k) (seq : BitVec 32)
    (n : ℕ) : exactSeq (seq + k) (n + d) = exactSeq seq n + d := by
  have hdelta : seqDelta (seq + k) (n + d) = seqDelta seq n := by
    rw [seqDelta, seqDelta, BitVec.ofNat_add, hk]
    congr 1
    ring
  rw [exactSeq, exactSeq, hdelta]
  push_cast
  ring

theorem extendSeq_shift {d n : ℕ} {k : BitVec 32} (hk : BitVec.ofNat 32 d = k)
    (seq : BitVec 32) (hlo : initialSeqEpoch ≤ n)
    (hmax : exactSeq (seq + k) (n + d) < 2 ^ 64) :
    extendSeq (seq + k) (n + d) = extendSeq seq n + d := by
  have hsum := exactSeq_shift hk seq n
  have hup := extendSeq_exact (seq + k) (n := n + d) (by omega) hmax
  have hdown := extendSeq_exact seq hlo (by omega)
  omega

theorem payloadSeq_add (seq k : BitVec 32) (syn : Bool) :
    payloadSeq (seq + k) syn = payloadSeq seq syn + k := by
  unfold payloadSeq
  ring

end Bazalt.Flow
