import Mathlib.Algebra.GroupWithZero.Nat
import Mathlib.Algebra.Ring.Int.Defs
import Mathlib.Tactic.Common
import Mathlib.Algebra.Order.Group.Int

-- Sequence numbers of 32 bits that wrap, compared by the sign of their difference.
namespace NetbsdAvr32.Serial
open Int BitVec

abbrev Seq := BitVec 32

-- (int)(a - b)
@[irreducible] def diff (a b : Seq) : Int := (a - b).toInt

def seqLt (a b : Seq) : Bool := diff a b < 0
def seqLeq (a b : Seq) : Bool := diff a b ≤ 0
def seqGt (a b : Seq) : Bool := diff a b > 0
def seqGeq (a b : Seq) : Bool := diff a b ≥ 0

def seqMin (a b : Seq) : Seq := if seqLt a b then a else b
def seqMax (a b : Seq) : Seq := if seqGt a b then a else b

-- The number of a position that is counted without wrapping.
def seq (n : Int) : Seq := BitVec.ofInt 32 n
def half : Int := 2147483648

variable {a b u x y : Seq} {m n k : Int}

theorem diff_eq (a b : Seq) : diff a b = bmod (a.toInt - b.toInt) (2 ^ 32) := by
  unfold diff
  exact toInt_sub

theorem diff_bounds (a b : Seq) : -half ≤ diff a b ∧ diff a b < half := by
  rw [diff_eq]
  have low := le_bmod (show 0 < 2 ^ 32 by decide) (x := a.toInt - b.toInt)
  have high := bmod_lt (show 0 < 2 ^ 32 by decide) (x := a.toInt - b.toInt)
  unfold half
  omega

@[simp] theorem diff_self (a : Seq) : diff a a = 0 := by
  unfold diff
  simp

theorem diff_add (a b u : Seq) : ∃ k, diff a b = diff a u - diff b u + 4294967296 * k := by
  have one := bmod_add_bdiv (a.toInt - b.toInt) (2 ^ 32)
  have two := bmod_add_bdiv (a.toInt - u.toInt) (2 ^ 32)
  have three := bmod_add_bdiv (b.toInt - u.toInt) (2 ^ 32)
  refine ⟨bdiv (a.toInt - u.toInt) (2 ^ 32) - bdiv (b.toInt - u.toInt) (2 ^ 32) - bdiv (a.toInt - b.toInt) (2 ^ 32),?_⟩
  rw [diff_eq,diff_eq,diff_eq]
  omega

theorem diff_near (low : -half ≤ diff a u - diff b u) (high : diff a u - diff b u < half) : diff a b = diff a u - diff b u := by
  obtain ⟨k,add⟩ := diff_add a b u
  obtain ⟨low',high'⟩ := diff_bounds a b
  unfold half at *
  omega

theorem diff_forward {n : Nat} (low : -half ≤ diff a b + n) (high : diff a b + n < half) : diff (a + BitVec.ofNat 32 n) b = diff a b + n := by
  have same : a + BitVec.ofNat 32 n - b = (a - b) + BitVec.ofNat 32 n := by
    rw [BitVec.sub_eq_add_neg,BitVec.sub_eq_add_neg,BitVec.add_assoc,BitVec.add_assoc,BitVec.add_comm (BitVec.ofNat 32 n)]
  have value : (BitVec.ofNat 32 n).toInt = bmod n (2 ^ 32) := toInt_ofNat' ..
  unfold diff at *
  rw [same,toInt_add,value,add_bmod_bmod]
  unfold half at low high
  exact bmod_eq_of_le (by omega) (by omega)

theorem diff_backward {n : Nat} (low : -half ≤ diff a b - n) (high : diff a b - n < half) : diff a (b + BitVec.ofNat 32 n) = diff a b - n := by
  have same : a - (b + BitVec.ofNat 32 n) = (a - b) - BitVec.ofNat 32 n := (sub_sub ..).symm
  have value : (BitVec.ofNat 32 n).toInt = bmod n (2 ^ 32) := toInt_ofNat' ..
  unfold diff at *
  rw [same,toInt_sub,value,sub_bmod_bmod]
  unfold half at low high
  exact bmod_eq_of_le (by omega) (by omega)

theorem diff_inj (same : diff a u = diff b u) : a = b := by
  have zero : diff a b = 0 := by
    rw [diff_near (u := u)]
    · omega
    · unfold half
      omega
    unfold half
    omega
  have equal : (a - b).toInt = 0 := by
    unfold diff at zero
    exact zero
  have difference : a - b = 0#32 := BitVec.eq_of_toInt_eq (by rw [equal]; rfl)
  rw [← BitVec.sub_add_cancel a b,difference]
  simp

theorem seqLt_iff : seqLt a b = true ↔ diff a b < 0 := by simp [seqLt]
theorem seqLeq_iff : seqLeq a b = true ↔ diff a b ≤ 0 := by simp [seqLeq]
theorem seqGt_iff : seqGt a b = true ↔ diff a b > 0 := by simp [seqGt]
theorem seqGeq_iff : seqGeq a b = true ↔ diff a b ≥ 0 := by simp [seqGeq]

theorem seqMax_diff (low : -half ≤ diff a u - diff b u) (high : diff a u - diff b u < half) : diff (seqMax a b) u = max (diff a u) (diff b u) := by
  have near := diff_near low high
  unfold seqMax
  split
  · next more =>
    have := seqGt_iff.mp more
    omega
  next less =>
  have : ¬diff a b > 0 := fun more => less (seqGt_iff.mpr more)
  omega

theorem seqMin_diff (low : -half ≤ diff a u - diff b u) (high : diff a u - diff b u < half) : diff (seqMin a b) u = min (diff a u) (diff b u) := by
  have near := diff_near low high
  unfold seqMin
  split
  · next less =>
    have := seqLt_iff.mp less
    omega
  next more =>
  have : ¬diff a b < 0 := fun less => more (seqLt_iff.mpr less)
  omega

theorem ahead_diff (one : 0 ≤ diff a u) (two : 0 ≤ diff b u) : diff a b = diff a u - diff b u := by
  have near := diff_bounds a u
  have near' := diff_bounds b u
  unfold half at near near'
  exact diff_near (by unfold half; omega) (by unfold half; omega)

theorem ahead_eq : a = b ↔ diff a u = diff b u := ⟨fun same => by rw [same],diff_inj⟩

section
variable (one : 0 ≤ diff a u)
include one

section
variable (two : 0 ≤ diff b u)
include two

theorem ahead_lt : seqLt a b = true ↔ diff a u < diff b u := by
  rw [seqLt_iff,ahead_diff one two]
  omega

theorem ahead_leq : seqLeq a b = true ↔ diff a u ≤ diff b u := by
  rw [seqLeq_iff,ahead_diff one two]
  omega

theorem ahead_gt : seqGt a b = true ↔ diff a u > diff b u := by
  rw [seqGt_iff,ahead_diff one two]
  omega

theorem ahead_geq : seqGeq a b = true ↔ diff a u ≥ diff b u := by
  rw [seqGeq_iff,ahead_diff one two]
  omega
end
end
end NetbsdAvr32.Serial
