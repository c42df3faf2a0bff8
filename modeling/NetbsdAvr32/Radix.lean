import Mathlib.Data.BitVec
import Mathlib.Tactic.Ring
import Mathlib.Tactic.Linarith

-- Two words as one number of twice the width: carries and borrows between them.
namespace NetbsdAvr32.DoubleWord
open Nat
variable {w : Nat}

theorem append_toNat (h l : BitVec w) : (h ++ l).toNat = h.toNat * 2 ^ w + l.toNat := by
  rw [BitVec.toNat_append,shiftLeft_add_eq_or_of_lt l.isLt _ |>.symm,shiftLeft_eq]

theorem append_ofNat (a : Nat) (l : BitVec w) : BitVec.ofNat w a ++ l = BitVec.ofNat (w + w) (a * 2 ^ w + l.toNat) := by
  have low : (a * 2 ^ w + l.toNat) % 2 ^ w = l.toNat := by
    rw [mul_add_mod_self_right,mod_eq_of_lt l.isLt]
  have high : (a * 2 ^ w + l.toNat) / 2 ^ w = a := by
    rw [Nat.mul_comm,Nat.mul_add_div (Nat.two_pow_pos w),Nat.div_eq_of_lt l.isLt,Nat.add_zero]
  apply BitVec.eq_of_toNat_eq
  rw [append_toNat,BitVec.toNat_ofNat,BitVec.toNat_ofNat,pow_add,mod_mul,low,high]
  ring

theorem append_eq (h l : BitVec w) : h ++ l = BitVec.ofNat (w + w) (h.toNat * 2 ^ w + l.toNat) := by
  have whole := append_ofNat h.toNat l
  rwa [BitVec.ofNat_toNat,BitVec.setWidth_eq] at whole

def carry (l x : BitVec w) : BitVec w := if l + x < l then 1 else 0

theorem carry_toNat (l x : BitVec w) (pos : 0 < w) : (carry l x).toNat * 2 ^ w + (l + x).toNat = l.toNat + x.toNat := by
  have less : l + x < l ↔ (l.toNat + x.toNat) % 2 ^ w < l.toNat := by rw [BitVec.lt_def,BitVec.toNat_add]
  unfold carry
  by_cases fits : l.toNat + x.toNat < 2 ^ w
  · have up : ¬ l + x < l := by
      rw [less,mod_eq_of_lt fits]
      exact not_lt.mpr (le_add_right _ _)
    rw [if_neg up,BitVec.toNat_add,mod_eq_of_lt fits]
    simp
  have wraps : (l.toNat + x.toNat) % 2 ^ w = l.toNat + x.toNat - 2 ^ w := by
    rw [mod_eq_sub_mod (not_lt.mp fits),mod_eq_of_lt]
    omega
  have down : l + x < l := by
    rw [less,wraps]
    omega
  have one : (1 : BitVec w).toNat = 1 := by
    exact Nat.mod_eq_of_lt (Nat.one_lt_two_pow (Nat.pos_iff_ne_zero.mp pos))
  rw [if_pos down,BitVec.toNat_add,wraps,one]
  omega

theorem add_append (h l y x : BitVec w) (pos : 0 < w) : (h + (y + carry l x)) ++ (l + x) = (h ++ l) + (y ++ x) := by
  have upper : h + (y + carry l x) = BitVec.ofNat w (h.toNat + (y.toNat + (carry l x).toNat)) := by
    rw [BitVec.ofNat_add,BitVec.ofNat_add]
    simp
  rw [upper,append_ofNat,append_eq h,append_eq y,← BitVec.ofNat_add]
  congr 1
  have lower := carry_toNat l x pos
  calc _ = h.toNat * 2 ^ w + y.toNat * 2 ^ w + ((carry l x).toNat * 2 ^ w + (l + x).toNat) := by ring
    _ = _ := by
      rw [lower]
      ring

def borrow (l x : BitVec w) : BitVec w := if l - x > l then 1 else 0

theorem sub_append (h l y x : BitVec w) (pos : 0 < w) : (h - (y + borrow l x)) ++ (l - x) = (h ++ l) - (y ++ x) := by
  have back := add_append (h - (y + borrow l x)) (l - x) y x pos
  have same : carry (l - x) x = borrow l x := by
    unfold carry borrow
    rw [BitVec.sub_add_cancel]
  rw [same,BitVec.sub_add_cancel,BitVec.sub_add_cancel] at back
  exact eq_sub_of_add_eq back.symm
end NetbsdAvr32.DoubleWord

-- Numbers as digits in a base, the most significant one first, and the trial
-- quotient of a long division.
namespace NetbsdAvr32.Radix
variable {B n p : Nat} {x y : Nat → Nat}

-- The number whose digits are x p, x (p + 1), ..., x (p + n - 1).
def val (B : Nat) (x : Nat → Nat) (p : Nat) : Nat → Nat
  | 0 => 0
  | n + 1 => val B x p n * B + x (p + n)

theorem val_succ (n : Nat) : val B x p (n + 1) = val B x p n * B + x (p + n) := rfl

theorem val_congr (same : ∀ k < n, x (p + k) = y (p + k)) : val B x p n = val B y p n := by
  induction n with
  | zero => rfl
  | succ n ih =>
    unfold val
    rw [ih fun k low => same k (Nat.lt_succ_of_lt low),same n (Nat.lt_succ_self n)]

theorem val_lt (digits : ∀ k < n, x (p + k) < B) : val B x p n < B ^ n := by
  induction n with
  | zero => simp [val]
  | succ n ih =>
    have rest := ih fun k low => digits k (Nat.lt_succ_of_lt low)
    have last := digits n (Nat.lt_succ_self n)
    calc val B x p n * B + x (p + n) < val B x p n * B + B := Nat.add_lt_add_left last _
      _ = (val B x p n + 1) * B := by ring
      _ ≤ B ^ n * B := Nat.mul_le_mul_right B rest
      _ = B ^ (n + 1) := (pow_succ ..).symm

theorem val_append (a b : Nat) : val B x p (a + b) = val B x p a * B ^ b + val B x (p + a) b := by
  induction b with
  | zero => simp [val]
  | succ b ih =>
    rw [← add_assoc,val_succ,val_succ,ih,add_assoc p a b]
    ring

theorem val_one : val B x p 1 = x p := by
  show 0 * B + x (p + 0) = x p
  rw [zero_mul,zero_add,add_zero]

theorem val_cons (n : Nat) : val B x p (n + 1) = x p * B ^ n + val B x (p + 1) n := by
  rw [add_comm n 1,val_append,val_one]

theorem val_zeros (zeros : ∀ k < n, x (p + k) = 0) : val B x p n = 0 := by
  induction n with
  | zero => rfl
  | succ n ih =>
    unfold val
    rw [ih fun k low => zeros k (Nat.lt_succ_of_lt low),zeros n (Nat.lt_succ_self n),Nat.zero_mul]

theorem val_skip (a : Nat) (zeros : ∀ k < a, x (p + k) = 0) : val B x p (a + n) = val B x (p + a) n := by
  rw [val_append,val_zeros zeros,zero_mul,zero_add]

section trial
variable {U V P top v U' V' g : Nat}

theorem trial_above (U_eq : U = top * P + U') (rest : U' < P) (V_eq : V = v * P + V') (above : top < g * v) : U < g * V := by
  calc U < (top + 1) * P := by
        rw [U_eq,add_mul,one_mul]
        exact Nat.add_lt_add_left rest _
    _ ≤ g * v * P := Nat.mul_le_mul_right P above
    _ ≤ g * V := by
      rw [V_eq,mul_add,mul_assoc]
      exact Nat.le_add_right _ _

theorem trial_near (U_eq : U = top * P + U') (V_eq : V = v * P + V') (rest : V' < P) (below : g * v ≤ top) (wide : g * P ≤ V) (pos : 0 < V) :
    g * V < U + V := by
  have leading : g * v * P ≤ U := by
    rw [U_eq]
    exact Nat.le_add_right_of_le (Nat.mul_le_mul_right P below)
  have following : g * V' < V := by
    rcases eq_zero_or_pos g with zero | some
    · rwa [zero,zero_mul]
    · exact lt_of_lt_of_le (mul_lt_mul_of_pos_left rest some) wide
  calc g * V = g * v * P + g * V' := by rw [V_eq,mul_add,mul_assoc]
    _ < U + V := add_lt_add_of_le_of_lt leading following
end trial
section shifts
variable {s c : Nat}

theorem shift_digit (base : B = 2 ^ s * c) (d : Nat) : d / c * B + d * 2 ^ s % B = d * 2 ^ s := by
  have same : d * 2 ^ s / B = d / c := by
    rw [base,mul_comm d]
    exact Nat.mul_div_mul_left _ _ (Nat.two_pow_pos s)
  rw [← same,mul_comm]
  exact Nat.div_add_mod _ _

-- Digits shifted left: each takes its lower bits from the digit after it, and
-- what leaves the first one is lost.
theorem val_shl (base : B = 2 ^ s * c) (inner : ∀ k < n, y (p + k) = x (p + k) * 2 ^ s % B + x (p + k + 1) / c) (last : y (p + n) = x (p + n) * 2 ^ s % B) :
    val B y p (n + 1) + x p / c * B ^ (n + 1) = val B x p (n + 1) * 2 ^ s := by
  have upto : ∀ k ≤ n, val B y p k + x p / c * B ^ k = val B x p k * 2 ^ s + x (p + k) / c := by
    intro k
    induction k with
    | zero =>
      intro _
      simp [val]
    | succ k ih =>
      intro le
      have digit := shift_digit base (x (p + k))
      have before := ih (Nat.le_of_succ_le le)
      rw [val_succ,val_succ,inner k le,← add_assoc p k 1]
      calc _ = (val B y p k + x p / c * B ^ k) * B + x (p + k) * 2 ^ s % B + x (p + k + 1) / c := by ring
        _ = val B x p k * 2 ^ s * B + (x (p + k) / c * B + x (p + k) * 2 ^ s % B) + x (p + k + 1) / c := by
          rw [before]
          ring
        _ = _ := by
          rw [digit]
          ring
  have digit := shift_digit base (x (p + n))
  have before := upto n (le_refl n)
  rw [val_succ,val_succ,last]
  calc _ = (val B y p n + x p / c * B ^ n) * B + x (p + n) * 2 ^ s % B := by ring
    _ = val B x p n * 2 ^ s * B + (x (p + n) / c * B + x (p + n) * 2 ^ s % B) := by
      rw [before]
      ring
    _ = _ := by
      rw [digit]
      ring

theorem val_shr (base : B = 2 ^ s * c) (zero : x p = 0) (each : ∀ k < n, y (p + 1 + k) = x (p + 1 + k) / 2 ^ s + x (p + k) * c % B) :
    val B y (p + 1) n = val B x p (n + 1) / 2 ^ s := by
  induction n with
  | zero =>
    rw [val_one,zero,Nat.zero_div]
    rfl
  | succ n ih =>
    have before := ih fun k low => each k (Nat.lt_succ_of_lt low)
    have follow : p + 1 + n = p + (n + 1) := by omega
    have low : x (p + n) * c % B = val B x p (n + 1) % 2 ^ s * c := by
      have drop : val B x p (n + 1) % 2 ^ s = x (p + n) % 2 ^ s := by
        rw [val_succ,base,mul_comm (2 ^ s) c,← mul_assoc]
        exact Nat.mul_add_mod_self_right _ _ _
      rw [drop,base]
      exact Nat.mul_mod_mul_right _ _ _
    have whole : (val B x p (n + 1) * B + x (p + (n + 1))) / 2 ^ s = val B x p (n + 1) * c + x (p + (n + 1)) / 2 ^ s := by
      have factor : val B x p (n + 1) * B = 2 ^ s * (val B x p (n + 1) * c) := by
        rw [base]
        ring
      rw [factor]
      exact Nat.mul_add_div (Nat.two_pow_pos s) _ _
    have parts := Nat.div_add_mod (val B x p (n + 1)) (2 ^ s)
    rw [val_succ,val_succ (n + 1),whole,before,each n (Nat.lt_succ_self n),low,follow]
    calc _ = (2 ^ s * (val B x p (n + 1) / 2 ^ s) + val B x p (n + 1) % 2 ^ s) * c + x (p + (n + 1)) / 2 ^ s := by
          rw [base]
          ring
      _ = _ := by rw [parts]
end shifts
end NetbsdAvr32.Radix
