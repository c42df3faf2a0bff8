import Mathlib.Algebra.GroupWithZero.Nat
import Mathlib.Algebra.Ring.Int.Defs
import Mathlib.Tactic.Common

-- Rounding a word down to a power of two with a mask.
namespace NetbsdAvr32.PowerMask
open BitVec
variable {w l : Nat}

theorem mask_eq (small : l < w) : BitVec.ofNat w (2 ^ l) - 1 = BitVec.ofNat w (2 ^ l - 1) := by
  have pos : 0 < 2 ^ l := Nat.two_pow_pos l
  have split : BitVec.ofNat w (2 ^ l) = BitVec.ofNat w (2 ^ l - 1) + 1 := by
    show _ = BitVec.ofNat w (2 ^ l - 1) + BitVec.ofNat w 1
    rw [← ofNat_add,Nat.sub_add_cancel pos]
  rw [split]
  exact add_sub_cancel _ _

theorem power_toNat (small : l < w) : (BitVec.ofNat w (2 ^ l)).toNat = 2 ^ l := by
  rw [toNat_ofNat,Nat.mod_eq_of_lt (Nat.pow_lt_pow_right (by decide) small)]

theorem and_not_mask (x : BitVec w) (small : l < w) : (x &&& ~~~(BitVec.ofNat w (2 ^ l) - 1)).toNat = x.toNat / 2 ^ l * 2 ^ l := by
  have shifts : x &&& ~~~(BitVec.ofNat w (2 ^ l) - 1) = x >>> l <<< l := by
    rw [mask_eq small]
    apply eq_of_getLsbD_eq
    intro i inside
    rw [getLsbD_and,getLsbD_not,getLsbD_ofNat,Nat.testBit_two_pow_sub_one,getLsbD_shiftLeft,
      getLsbD_ushiftRight]
    by_cases low : i < l
    · simp [inside,low]
    · simp [inside,low,Nat.add_sub_cancel' (Nat.le_of_not_lt low)]
  have fits : x.toNat / 2 ^ l * 2 ^ l < 2 ^ w := Nat.lt_of_le_of_lt (Nat.div_mul_le_self _ _) x.isLt
  rw [shifts,toNat_shiftLeft,toNat_ushiftRight,Nat.shiftRight_eq_div_pow,Nat.shiftLeft_eq,Nat.mod_eq_of_lt fits]

theorem and_neg (x : BitVec w) (small : l < w) : (x &&& -BitVec.ofNat w (2 ^ l)).toNat = x.toNat / 2 ^ l * 2 ^ l := by
  have same : -BitVec.ofNat w (2 ^ l) = ~~~(BitVec.ofNat w (2 ^ l) - 1) := by
    rw [neg_eq_not_add]
    exact not_sub_one_eq_not_add_one.symm
  rw [same,and_not_mask x small]

theorem bit_clear (x : BitVec w) (low : l < w) : x &&& 1#w <<< l = 0 ↔ x.getLsbD l = false := by
  have power : 1#w <<< l = twoPow w l := rfl
  rw [power,and_twoPow]
  cases x.getLsbD l with
  | false => exact iff_of_true rfl rfl
  | true =>
    refine iff_of_false (fun zero => ?_) (by decide)
    have := congrArg (getLsbD · l) zero
    simp [low] at this
end NetbsdAvr32.PowerMask
