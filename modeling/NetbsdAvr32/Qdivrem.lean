import NetbsdAvr32.Quad

-- __qdivrem: long division in base 2^16. An array of digits is a map from its
-- indices, and a pointer into it is an index.
namespace NetbsdAvr32.Quad
open Function Nat

abbrev Digits := Nat → BitVec 16
def word (x : BitVec 16) : BitVec 32 := x.setWidth 32
def digit (x : BitVec 32) : BitVec 16 := x.setWidth 16

-- The digit base B.
def digitBase : BitVec 32 := 65536
def combine (a b : BitVec 32) : BitVec 32 := a <<< 16 ||| b

-- x[1..4] from a quad, and a quad from x[1..4].
def spread (x : Digits) (q : BitVec 64) : Digits :=
  update (update (update (update x 1 (digit (hhalf (ulH q)))) 2 (digit (lhalf (ulH q)))) 3 (digit (hhalf (ulL q)))) 4 (digit (lhalf (ulL q)))

def gather (x : Digits) : BitVec 64 := quad (combine (word (x 1)) (word (x 2))) (combine (word (x 3)) (word (x 4)))

-- `for (n = 4; v[1] == 0; v++)`, which is left with n = 1 from its body.
def divisor (v : Digits) (pv : Nat) : Nat → Nat × Nat
  | 0 => (0,pv)
  | n + 1 => if v (pv + 1) = 0 then (if n = 1 then (1,pv) else divisor v (pv + 1) n) else (n + 1,pv)

-- `for (m = 4 - n; u[1] == 0; u++) m--`: none past the end of the array and for
-- m < 0.
def dividend (u : Digits) (m pu : Nat) : Nat → Option (Nat × Nat)
  | 0 => none
  | k + 1 => if u (pu + 1) = 0 then (if m = 0 then none else dividend u (m - 1) (pu + 1) k) else some (m,pu)

def short (u : Digits) (t : BitVec 32) : Option (BitVec 64 × BitVec 64) :=
  if t = 0 then none
  else
    let q1 := digit (word (u 1) / t)
    let rbj := combine (word (u 1) % t) (word (u 2))
    let q2 := digit (rbj / t)
    let rbj := combine (rbj % t) (word (u 3))
    let q3 := digit (rbj / t)
    let rbj := combine (rbj % t) (word (u 4))
    let q4 := digit (rbj / t)
    some (quad (combine (word q1) (word q2)) (combine (word q3) (word q4)),(rbj % t).setWidth 64)

-- `for (; --i >= 0;) q[i] = 0`
def clear (q : Digits) : Nat → Digits
  | 0 => q
  | i + 1 => clear (update q i 0) i

-- `for (t = v[1]; t < B / 2; t <<= 1) d++`; none when it has not stopped after
-- all the bits of a digit.
def normal (t : BitVec 32) : Nat → Option Nat
  | 0 => if t < digitBase / 2 then none else some 0
  | k + 1 => if t < digitBase / 2 then (normal (t <<< 1) k).map (· + 1) else some 0

-- shl: x[p..p + len] to the left.
def shl (x : Digits) (p sh : Nat) : Nat → Digits
  | 0 => update x p (digit (lhalf (word (x p) <<< sh)))
  | len + 1 => shl (update x p (digit (lhalf (word (x p) <<< sh) ||| word (x (p + 1)) >>> (16 - sh)))) (p + 1) sh len

-- D3, from the test of the while loop: qhat goes down to a trial that fits the
-- leading digits.
def trial (v1 v2 uj2 : BitVec 32) : Nat → BitVec 32 → BitVec 32
  | 0, _ => 0
  | qhat + 1, rhat =>
    if v2 * BitVec.ofNat 32 (qhat + 1) > combine rhat uj2 then
      -- qhat_too_big
      if rhat + v1 ≥ digitBase then BitVec.ofNat 32 qhat else trial v1 v2 uj2 qhat (rhat + v1)
    else BitVec.ofNat 32 (qhat + 1)

def estimate (v1 v2 uj0 uj1 uj2 : BitVec 32) : BitVec 32 :=
  if uj0 = v1 then
    -- qhat is B and goes to qhat_too_big.
    if uj1 + v1 ≥ digitBase then digitBase - 1 else trial v1 v2 uj2 (digitBase - 1).toNat (uj1 + v1)
  else
    let nn := combine uj0 uj1
    trial v1 v2 uj2 (nn / v1).toNat (nn % v1)

-- D4, from i = n: u[1 + j..n + j] and the borrow.
def mulSub (v : Digits) (pv : Nat) (qhat : BitVec 32) (pu : Nat) : Nat → Digits → BitVec 32 → Digits × BitVec 32
  | 0, u, t => (u,t)
  | i + 1, u, t =>
    let t := word (u (pu + i + 1)) - word (v (pv + i + 1)) * qhat - t
    mulSub v pv qhat pu i (update u (pu + i + 1) (digit (lhalf t))) ((digitBase - hhalf t) &&& (digitBase - 1))

def addBack (v : Digits) (pv pu : Nat) : Nat → Digits → BitVec 32 → Digits × BitVec 32
  | 0, u, t => (u,t)
  | i + 1, u, t =>
    let t := t + (word (u (pu + i + 1)) + word (v (pv + i + 1)))
    addBack v pv pu i (update u (pu + i + 1) (digit (lhalf t))) (hhalf t)

-- D3 to D6 for the digit at u[j], where pu is the index of that.
def quotientDigit (v : Digits) (pv n : Nat) (u : Digits) (pu : Nat) : Digits × BitVec 16 :=
  let v1 := word (v (pv + 1))
  let v2 := word (v (pv + 2))
  let qhat := estimate v1 v2 (word (u pu)) (word (u (pu + 1))) (word (u (pu + 2)))
  let (u,t) := mulSub v pv qhat pu n u 0
  let t := word (u pu) - t
  let u := update u pu (digit (lhalf t))
  if hhalf t ≠ 0 then
    let qhat := qhat - 1
    let (u,t) := addBack v pv pu n u 0
    (update u pu (digit (lhalf (word (u pu) + t))),digit qhat)
  else (u,digit qhat)

-- The loop on j, for the k digits of the quotient from here on.
def longLoop (v : Digits) (pv n : Nat) : Nat → Digits → Nat → Digits → Nat → Digits × Digits
  | 0, u, _, q, _ => (u,q)
  | k + 1, u, pu, q, pq =>
    let (u,qhat) := quotientDigit v pv n u pu
    longLoop v pv n k u (pu + 1) (update q pq qhat) (pq + 1)

-- `for (i = m + n; i > m; --i)`, where p is the index of u[m].
def unshift (p d : Nat) : Nat → Digits → Digits
  | 0, u => u
  | i + 1, u => unshift p d i (update u (p + i + 1) (digit (word (u (p + i + 1)) >>> d ||| lhalf (word (u (p + i)) <<< (16 - d)))))

def long (u : Digits) (pu m : Nat) (v : Digits) (pv n : Nat) (q : Digits) : Option (BitVec 64 × BitVec 64) :=
  let q := clear q (4 - m)
  let pq := 4 - m
  (normal (word (v (pv + 1))) 16).map fun d =>
    let u := if d > 0 then shl u pu d (m + n) else u
    let v := if d > 0 then shl v (pv + 1) d (n - 1) else v
    let (u,q) := longLoop v pv n (m + 1) u pu q pq
    let u := if d ≠ 0 then update (unshift (pu + m) d n u) (pu + m) 0 else u
    (gather q,gather u)

-- __qdivrem: the quotient and what goes to *arq. `stack` is what the arrays
-- hold before; none is a division by zero or a loop that leaves its array.
def qdivrem (stack : Digits) (uq vq : BitVec 64) : Option (BitVec 64 × BitVec 64) :=
  if vq = 0 then none
  else if uq < vq then some (0,uq)
  else
    let u := spread (update stack 0 0) uq
    let v := spread stack vq
    let (n,pv) := divisor v 0 4
    if n = 1 then short u (word (v (pv + 2)))
    else (dividend u (4 - n) 0 4).bind fun (m,pu) => long u pu m v pv n stack

open Radix

@[simp] theorem word_toNat (x : BitVec 16) : (word x).toNat = x.toNat := by
  unfold word
  rw [BitVec.toNat_setWidth,mod_eq_of_lt (lt_trans x.isLt (by decide))]

@[simp] theorem digit_toNat (x : BitVec 32) : (digit x).toNat = x.toNat % 65536 := BitVec.toNat_setWidth 16 x

theorem combine_toNat {a b : BitVec 32} (left : a.toNat < 65536) (right : b.toNat < 65536) : (combine a b).toNat = a.toNat * 65536 + b.toNat := by
  have fits : a.toNat * 65536 < 4294967296 := by omega
  unfold combine
  rw [BitVec.toNat_or,BitVec.toNat_shiftLeft,shiftLeft_eq,mod_eq_of_lt fits,mul_comm]
  exact (two_pow_add_eq_or_of_lt (i := 16) right a.toNat).symm

-- An array's digits as numbers, and the number of n of them from p on.
def nat (x : Digits) (i : Nat) : Nat := (x i).toNat
def num (x : Digits) (p n : Nat) : Nat := val 65536 (nat x) p n
theorem nat_lt (x : Digits) (i : Nat) : nat x i < 65536 := (x i).isLt
theorem num_lt (x : Digits) (p n : Nat) : num x p n < 65536 ^ n := val_lt fun _ _ => nat_lt x _

theorem num_congr {x y : Digits} {p n : Nat} (same : ∀ k < n, x (p + k) = y (p + k)) : num x p n = num y p n :=
  val_congr fun k low => congrArg BitVec.toNat (same k low)

theorem num_succ (x : Digits) (p n : Nat) : num x p (n + 1) = num x p n * 65536 + nat x (p + n) := rfl
theorem num_cons (x : Digits) (p n : Nat) : num x p (n + 1) = nat x p * 65536 ^ n + num x (p + 1) n := val_cons n

theorem spread_num (x : Digits) (q : BitVec 64) : num (spread x q) 1 4 = q.toNat := by
  have d1 : spread x q 1 = digit (hhalf (ulH q)) := rfl
  have d2 : spread x q 2 = digit (lhalf (ulH q)) := rfl
  have d3 : spread x q 3 = digit (hhalf (ulL q)) := rfl
  have d4 : spread x q 4 = digit (lhalf (ulL q)) := rfl
  simp only [num,val,nat,add_zero,reduceAdd,d1,d2,d3,d4,digit_toNat,hhalf_toNat,lhalf_toNat,ulH_toNat,ulL_toNat]
  omega

theorem gather_toNat (x : Digits) : (gather x).toNat = num x 1 4 := by
  have low (i : Nat) : (word (x i)).toNat < 65536 := by
    exact (x i).isLt
  unfold gather
  rw [quad_toNat,combine_toNat (low 1) (low 2),combine_toNat (low 3) (low 4)]
  simp only [num,val,nat,add_zero,reduceAdd,word_toNat]
  omega

section trials
variable {U V P U' V' : Nat} {v1 v2 uj0 uj1 uj2 : BitVec 32}

structure Leading (U V P U' V' : Nat) (v1 v2 uj0 uj1 uj2 : BitVec 32) : Prop where
  dividend : U = ((uj0.toNat * 65536 + uj1.toNat) * 65536 + uj2.toNat) * P + U'
  divisor : V = (v1.toNat * 65536 + v2.toNat) * P + V'
  rest : U' < P
  rest' : V' < P
  some : 0 < v1.toNat
  v1 : v1.toNat < 65536
  v2 : v2.toNat < 65536
  uj1 : uj1.toNat < 65536
  uj2 : uj2.toNat < 65536
  small : U < 65536 * V

structure Fits (U V qhat : Nat) : Prop where
  above : U < (qhat + 1) * V
  near : qhat * V < U + V
  digit : qhat < 65536

section
variable (lead : Leading U V P U' V' v1 v2 uj0 uj1 uj2)
include lead

theorem Leading.wide : 65536 * P ≤ V := by
  have one : 65536 * 1 ≤ 65536 * v1.toNat := mul_le_mul_left 65536 lead.some
  rw [lead.divisor]
  exact le_add_right_of_le (mul_le_mul_right P (by omega))

theorem Leading.fits {qhat : Nat} (digit : qhat < 65536) (above : U < (qhat + 1) * V)
    (below : qhat * (v1.toNat * 65536 + v2.toNat) ≤ (uj0.toNat * 65536 + uj1.toNat) * 65536 + uj2.toNat) : Fits U V qhat := by
  have wide := lead.wide
  have some : 0 < P := zero_lt_of_lt lead.rest
  have fits : qhat * P ≤ V := le_trans (mul_le_mul_right P (le_of_lt digit)) wide
  exact ⟨above,trial_near lead.dividend lead.divisor lead.rest' below fits (by omega),digit⟩

theorem Leading.past {qhat rhat : Nat} (digit : qhat < 65536)
    (split : qhat * v1.toNat + rhat = uj0.toNat * 65536 + uj1.toNat) (big : 65536 ≤ rhat) (above : U < (qhat + 1) * V) : Fits U V qhat := by
  have second : qhat * v2.toNat ≤ 65536 * 65536 := Nat.mul_le_mul (Nat.le_of_lt digit) (Nat.le_of_lt lead.v2)
  refine lead.fits digit above ?_
  rw [mul_add,← mul_assoc,← split,add_mul]
  omega

theorem Leading.trial {qhat : Nat} {rhat : BitVec 32} (digit : qhat < 65536)
    (split : qhat * v1.toNat + rhat.toNat = uj0.toNat * 65536 + uj1.toNat) (small : rhat.toNat < 65536) (above : U < (qhat + 1) * V) :
    Fits U V (trial v1 v2 uj2 qhat rhat).toNat := by
  induction qhat generalizing rhat with
  | zero =>
    refine ⟨above,?_,zero_lt_succ _⟩
    show 0 * V < U + V
    omega
  | succ q ih =>
    have product : v2.toNat * (q + 1) < 4294967296 := mul_lt_mul'' lead.v2 digit
    have left : (v2 * BitVec.ofNat 32 (q + 1)).toNat = v2.toNat * (q + 1) := by
      rw [BitVec.toNat_mul,BitVec.toNat_ofNat,mod_eq_of_lt (a := q + 1) (by omega),mod_eq_of_lt product]
    have sum : (rhat + v1).toNat = rhat.toNat + v1.toNat := by
      have bound := lead.v1
      rw [BitVec.toNat_add,mod_eq_of_lt (by omega)]
    have whole (k : Nat) (low : k < 65536) : (BitVec.ofNat 32 k).toNat = k := by
      rw [BitVec.toNat_ofNat,mod_eq_of_lt (by omega)]
    unfold Quad.trial
    by_cases more : v2 * BitVec.ofNat 32 (q + 1) > combine rhat uj2
    · have more' : rhat.toNat * 65536 + uj2.toNat < v2.toNat * (q + 1) := by
        have gt : (combine rhat uj2).toNat < (v2 * BitVec.ofNat 32 (q + 1)).toNat := more
        rwa [combine_toNat small lead.uj2,left] at gt
      have split' : q * v1.toNat + (rhat + v1).toNat = uj0.toNat * 65536 + uj1.toNat := by
        rw [sum,← split]
        ring
      have lower : U < (q + 1) * V := by
        refine trial_above lead.dividend lead.rest lead.divisor ?_
        rw [← split]
        have expand : (q + 1) * (v1.toNat * 65536 + v2.toNat) = (q + 1) * v1.toNat * 65536 + v2.toNat * (q + 1) := by ring
        rw [expand,add_mul ((q + 1) * v1.toNat),add_assoc]
        exact Nat.add_lt_add_left more' _
      rw [if_pos more]
      by_cases big : rhat + v1 ≥ digitBase
      · have big' : 65536 ≤ (rhat + v1).toNat := big
        rw [if_pos big,whole q (by omega)]
        exact lead.past (by omega) split' big' lower
      have small' : (rhat + v1).toNat < 65536 := not_le.mp big
      rw [if_neg big]
      exact ih (by omega) split' small' lower
    have less : v2.toNat * (q + 1) ≤ rhat.toNat * 65536 + uj2.toNat := by
      have le : (v2 * BitVec.ofNat 32 (q + 1)).toNat ≤ (combine rhat uj2).toNat := not_lt.mp more
      rwa [combine_toNat small lead.uj2,left] at le
    rw [if_neg more,whole (q + 1) digit]
    refine lead.fits digit above ?_
    rw [← split]
    have expand : (q + 1) * (v1.toNat * 65536 + v2.toNat) = (q + 1) * v1.toNat * 65536 + v2.toNat * (q + 1) := by ring
    rw [expand,add_mul ((q + 1) * v1.toNat),add_assoc]
    exact Nat.add_le_add_left less _

theorem Leading.first : uj0.toNat ≤ v1.toNat := by
  have small := lead.small
  have second := lead.v2
  have rest' := lead.rest'
  have wideV : V < (v1.toNat + 1) * 65536 * P := by
    calc V < (v1.toNat * 65536 + v2.toNat) * P + P := by
          rw [lead.divisor]
          omega
      _ = (v1.toNat * 65536 + v2.toNat + 1) * P := by ring
      _ ≤ (v1.toNat + 1) * 65536 * P := mul_le_mul_right P (by omega)
  have wideU : uj0.toNat * 65536 * 65536 * P ≤ U := by
    rw [lead.dividend]
    exact le_add_right_of_le (mul_le_mul_right P (by omega))
  have compare : uj0.toNat * (65536 * 65536 * P) < (v1.toNat + 1) * (65536 * 65536 * P) := by
    calc uj0.toNat * (65536 * 65536 * P) = uj0.toNat * 65536 * 65536 * P := by ring
      _ < 65536 * ((v1.toNat + 1) * 65536 * P) := by omega
      _ = (v1.toNat + 1) * (65536 * 65536 * P) := by ring
  have less := lt_of_mul_lt_mul_right compare
  omega

theorem Leading.estimate : Fits U V (estimate v1 v2 uj0 uj1 uj2).toNat := by
  have first := lead.first
  have some := lead.some
  have bound := lead.v1
  have bound' := lead.uj1
  unfold Quad.estimate
  by_cases same : uj0 = v1
  · have sum : (uj1 + v1).toNat = uj1.toNat + v1.toNat := by
      rw [BitVec.toNat_add,mod_eq_of_lt (by omega)]
    have split : 65535 * v1.toNat + (uj1 + v1).toNat = uj0.toNat * 65536 + uj1.toNat := by
      rw [sum,same]
      omega
    rw [if_pos same]
    split_ifs with big
    · exact lead.past (by decide) split big lead.small
    · exact lead.trial (by decide) split (not_le.mp big) lead.small
  have less : uj0.toNat < v1.toNat := lt_of_le_of_ne first fun eq => same (BitVec.eq_of_toNat_eq eq)
  have nn : (combine uj0 uj1).toNat = uj0.toNat * 65536 + uj1.toNat := combine_toNat (by omega) bound'
  have split := div_add_mod (uj0.toNat * 65536 + uj1.toNat) v1.toNat
  have remainder := mod_lt (uj0.toNat * 65536 + uj1.toNat) some
  rw [if_neg same]
  dsimp only
  rw [BitVec.toNat_udiv,nn]
  refine lead.trial ?_ ?_ ?_ ?_
  · rw [div_lt_iff_lt_mul some]
    omega
  · rw [BitVec.toNat_umod,nn,mul_comm]
    exact split
  · rw [BitVec.toNat_umod,nn]
    omega
  refine trial_above lead.dividend lead.rest lead.divisor ?_
  generalize (uj0.toNat * 65536 + uj1.toNat) / v1.toNat = q at split ⊢
  have expand : (q + 1) * (v1.toNat * 65536 + v2.toNat) = (v1.toNat * q + v1.toNat) * 65536 + (q + 1) * v2.toNat := by ring
  have last := lead.uj2
  omega
end
end trials
section digits
variable {v : Digits} {pv pu : Nat} {qhat : BitVec 32}

theorem mask_toNat (x : BitVec 32) : (x &&& (digitBase - 1)).toNat = x.toNat % 65536 := by
  have mask : digitBase - 1 = 65535 := by decide
  exact and_two_pow_sub_one_eq_mod x.toNat 16

theorem borrow_digit {a b : BitVec 16} {t : BitVec 32} (small : qhat.toNat < 65536) (carried : t.toNat < 65536) :
    (lhalf (word a - word b * qhat - t)).toNat + qhat.toNat * b.toNat + t.toNat =
      a.toNat + ((digitBase - hhalf (word a - word b * qhat - t)) &&& (digitBase - 1)).toNat * 65536 := by
  have right : b.toNat ≤ 65535 := le_of_lt_succ b.isLt
  have product : b.toNat * qhat.toNat ≤ 65535 * 65535 := Nat.mul_le_mul right (by omega)
  have difference : (word a - word b * qhat - t).toNat = (a.toNat + 4294967296 - (b.toNat * qhat.toNat + t.toNat)) % 4294967296 := by
    rw [BitVec.toNat_sub,BitVec.toNat_sub,BitVec.toNat_mul,word_toNat,word_toNat,mod_eq_of_lt (a := b.toNat * qhat.toNat) (by omega)]
    omega
  have base : digitBase.toNat = 65536 := by decide
  rw [mask_toNat,BitVec.toNat_sub,base,lhalf_toNat,hhalf_toNat,difference,mul_comm qhat.toNat]
  generalize b.toNat * qhat.toNat = s at product ⊢
  omega

theorem digit_stored {r u : Digits} {d : BitVec 32} {i pu : Nat} (frame : ∀ k, k ≤ pu ∨ pu + i < k → r k = update u (pu + i + 1) (digit (lhalf d)) k) :
    num (update u (pu + i + 1) (digit (lhalf d))) (pu + 1) i = num u (pu + 1) i ∧ nat r (pu + 1 + i) = (lhalf d).toNat ∧
      ∀ k, k ≤ pu ∨ pu + (i + 1) < k → r k = u k := by
  refine ⟨num_congr fun k low => update_of_ne (by omega) ..,?_,fun k outside => ?_⟩
  · have at_ : pu + 1 + i = pu + i + 1 := by omega
    unfold nat
    rw [at_,frame _ (.inr (by omega)),update_self,digit_toNat,lhalf_toNat,mod_mod]
  rw [frame k (by omega)]
  exact update_of_ne (by omega) ..

theorem mulSub_spec (v : Digits) (pv pu : Nat) (small : qhat.toNat < 65536) (i : Nat) (u : Digits) (t : BitVec 32) (carried : t.toNat < 65536) :
    num (mulSub v pv qhat pu i u t).1 (pu + 1) i + qhat.toNat * num v (pv + 1) i + t.toNat =
        num u (pu + 1) i + (mulSub v pv qhat pu i u t).2.toNat * 65536 ^ i ∧
      (mulSub v pv qhat pu i u t).2.toNat < 65536 ∧
      ∀ k, k ≤ pu ∨ pu + i < k → (mulSub v pv qhat pu i u t).1 k = u k := by
  induction i generalizing u t with
  | zero =>
    refine ⟨?_,carried,fun k _ => rfl⟩
    simp [mulSub,num,val]
  | succ i ih =>
    have step := borrow_digit (a := u (pu + i + 1)) (b := v (pv + i + 1)) small carried
    unfold mulSub
    generalize word (u (pu + i + 1)) - word (v (pv + i + 1)) * qhat - t = d at step ⊢
    have below : ((digitBase - hhalf d) &&& (digitBase - 1)).toNat < 65536 := by
      rw [mask_toNat]
      exact mod_lt _ (by decide)
    obtain ⟨sum,fits,frame⟩ := ih (update u (pu + i + 1) (digit (lhalf d))) _ below
    generalize mulSub v pv qhat pu i (update u (pu + i + 1) (digit (lhalf d))) ((digitBase - hhalf d) &&& (digitBase - 1)) = r at sum fits frame ⊢
    obtain ⟨untouched,last,outside⟩ := digit_stored frame
    rw [untouched] at sum
    refine ⟨?_,fits,outside⟩
    rw [num_succ,num_succ,num_succ,last,add_right_comm pv 1 i,add_right_comm pu 1 i,pow_succ]
    unfold nat
    calc _ = (num r.1 (pu + 1) i + qhat.toNat * num v (pv + 1) i) * 65536 + ((lhalf d).toNat + qhat.toNat * (v (pv + i + 1)).toNat + t.toNat) := by ring
      _ = (num r.1 (pu + 1) i + qhat.toNat * num v (pv + 1) i + ((digitBase - hhalf d) &&& (digitBase - 1)).toNat) * 65536 + (u (pu + i + 1)).toNat := by
        rw [step]
        ring
      _ = _ := by
        rw [sum]
        ring

theorem addBack_spec (v : Digits) (pv pu : Nat) (i : Nat) (u : Digits) (t : BitVec 32) (carried : t.toNat < 65536) :
    num (addBack v pv pu i u t).1 (pu + 1) i + (addBack v pv pu i u t).2.toNat * 65536 ^ i = num u (pu + 1) i + num v (pv + 1) i + t.toNat ∧
      (addBack v pv pu i u t).2.toNat < 65536 ∧
      ∀ k, k ≤ pu ∨ pu + i < k → (addBack v pv pu i u t).1 k = u k := by
  induction i generalizing u t with
  | zero =>
    refine ⟨?_,carried,fun k _ => rfl⟩
    simp [addBack,num,val]
  | succ i ih =>
    have step : (t + (word (u (pu + i + 1)) + word (v (pv + i + 1)))).toNat = (u (pu + i + 1)).toNat + (v (pv + i + 1)).toNat + t.toNat := by
      rw [BitVec.toNat_add,BitVec.toNat_add,word_toNat,word_toNat]
      omega
    unfold addBack
    generalize t + (word (u (pu + i + 1)) + word (v (pv + i + 1))) = d at step ⊢
    have below : (hhalf d).toNat < 65536 := by
      rw [hhalf_toNat]
      omega
    have halves : (lhalf d).toNat + (hhalf d).toNat * 65536 = d.toNat := by
      rw [hhalf_toNat,lhalf_toNat]
      omega
    obtain ⟨sum,fits,frame⟩ := ih (update u (pu + i + 1) (digit (lhalf d))) _ below
    generalize addBack v pv pu i (update u (pu + i + 1) (digit (lhalf d))) (hhalf d) = r at sum fits frame ⊢
    obtain ⟨untouched,last,outside⟩ := digit_stored frame
    rw [untouched] at sum
    refine ⟨?_,fits,outside⟩
    rw [num_succ,num_succ,num_succ,last,add_right_comm pv 1 i,add_right_comm pu 1 i,pow_succ]
    unfold nat
    calc _ = (num r.1 (pu + 1) i + r.2.toNat * 65536 ^ i) * 65536 + (lhalf d).toNat := by ring
      _ = (num u (pu + 1) i + num v (pv + 1) i) * 65536 + ((lhalf d).toNat + (hhalf d).toNat * 65536) := by
        rw [sum]
        ring
      _ = _ := by
        rw [halves,step]
        ring

theorem leading (k : Nat) (u : Digits) (some : v (pv + 1) ≠ 0) (small : num u pu (k + 3) < 65536 * num v (pv + 1) (k + 2)) :
    Leading (num u pu (k + 3)) (num v (pv + 1) (k + 2)) (65536 ^ k) (num u (pu + 3) k) (num v (pv + 3) k)
      (word (v (pv + 1))) (word (v (pv + 2))) (word (u pu)) (word (u (pu + 1))) (word (u (pu + 2))) where
  dividend := by
    have parts : num u pu (3 + k) = num u pu 3 * 65536 ^ k + num u (pu + 3) k := val_append 3 k
    rw [add_comm k 3,parts]
    simp only [num,val,nat,add_zero,zero_mul,zero_add,word_toNat]
  divisor := by
    have parts : num v (pv + 1) (2 + k) = num v (pv + 1) 2 * 65536 ^ k + num v (pv + 1 + 2) k := val_append 2 k
    rw [add_comm k 2,parts]
    simp only [num,val,nat,add_zero,zero_mul,zero_add,word_toNat,add_assoc,reduceAdd]
  rest := num_lt ..
  rest' := num_lt ..
  some := by
    exact pos_of_ne_zero fun zero => some (BitVec.eq_of_toNat_eq zero)
  v1 := by
    exact (v (pv + 1)).isLt
  v2 := by
    exact (v (pv + 2)).isLt
  uj1 := by
    exact (u (pu + 1)).isLt
  uj2 := by
    exact (u (pu + 2)).isLt
  small := small

-- The digit in front of those of D4 takes the last borrow, and there is one left
-- over when qhat was too big.
theorem borrow_last {a : BitVec 16} {t : BitVec 32} (carried : t.toNat < 65536) :
    (lhalf (word a - t)).toNat + t.toNat = a.toNat + (if hhalf (word a - t) ≠ 0 then 1 else 0) * 65536 := by
  have difference : (word a - t).toNat = (a.toNat + 4294967296 - t.toNat) % 4294967296 := by
    rw [BitVec.toNat_sub,word_toNat]
    omega
  have zero : hhalf (word a - t) ≠ 0 ↔ (word a - t).toNat / 65536 ≠ 0 := by
    rw [← hhalf_toNat]
    exact not_congr ⟨fun eq => by rw [eq]; rfl,fun eq => BitVec.eq_of_toNat_eq eq⟩
  rw [lhalf_toNat]
  split
  · next over_ =>
    rw [zero] at over_
    omega
  next fits =>
  rw [zero] at fits
  omega

theorem addBack_window (v : Digits) (pv pu : Nat) (k : Nat) (u : Digits) :
    let (u',t) := addBack v pv pu (k + 2) u 0
    ∃ e : Bool, num (update u' pu (digit (lhalf (word (u' pu) + t)))) pu (k + 3) + (if e then 1 else 0) * 65536 ^ (k + 3) =
        num u pu (k + 3) + num v (pv + 1) (k + 2) ∧
      ∀ i, i < pu ∨ pu + (k + 2) < i → update u' pu (digit (lhalf (word (u' pu) + t))) i = u i := by
  obtain ⟨sum,carried,frame⟩ := addBack_spec v pv pu (k + 2) u 0 (zero_lt_succ _)
  generalize addBack v pv pu (k + 2) u 0 = r at sum carried frame ⊢
  obtain ⟨u',t⟩ := r
  have start : (0 : BitVec 32).toNat = 0 := rfl
  dsimp only at sum carried frame ⊢
  rw [start,add_zero] at sum
  have top : u' pu = u pu := frame pu (.inl (le_refl _))
  have last : (lhalf (word (u' pu) + t)).toNat + (if decide (65536 ≤ (u pu).toNat + t.toNat) = true then 1 else 0) * 65536 = (u pu).toNat + t.toNat := by
    rw [lhalf_toNat,BitVec.toNat_add,word_toNat,top]
    simp only [decide_eq_true_eq]
    split <;> omega
  refine ⟨decide (65536 ≤ (u pu).toNat + t.toNat),?_,fun i outside => ?_⟩
  · have tail : num (update u' pu (digit (lhalf (word (u' pu) + t)))) (pu + 1) (k + 2) = num u' (pu + 1) (k + 2) :=
      num_congr fun i _ => update_of_ne (by omega) ..
    have first : nat (update u' pu (digit (lhalf (word (u' pu) + t)))) pu = (lhalf (word (u' pu) + t)).toNat := by
      unfold nat
      rw [update_self,digit_toNat,lhalf_toNat,mod_mod]
    rw [num_cons,num_cons u,tail,first,pow_succ 65536 (k + 2)]
    unfold nat
    calc _ = ((lhalf (word (u' pu) + t)).toNat + (if decide (65536 ≤ (u pu).toNat + t.toNat) = true then 1 else 0) * 65536) * 65536 ^ (k + 2) +
            num u' (pu + 1) (k + 2) := by ring
      _ = (u pu).toNat * 65536 ^ (k + 2) + (num u' (pu + 1) (k + 2) + t.toNat * 65536 ^ (k + 2)) := by
        rw [last]
        ring
      _ = _ := by
        rw [sum]
        ring
  rw [update_of_ne (by omega)]
  exact frame i (by omega)

theorem quotient_unique {X V q r : Nat} (split : r + q * V = X) (less : r < V) : X / V = q ∧ X % V = r := by
  rw [← split]
  refine ⟨?_,?_⟩
  · rw [add_mul_div_right _ _ (zero_lt_of_lt less),div_eq_of_lt less,zero_add]
  · rw [add_mul_mod_self_right,mod_eq_of_lt less]

theorem quotientDigit_spec (k : Nat) (u : Digits) (some : v (pv + 1) ≠ 0) (small : num u pu (k + 3) < 65536 * num v (pv + 1) (k + 2)) :
    num (quotientDigit v pv (k + 2) u pu).1 pu (k + 3) = num u pu (k + 3) % num v (pv + 1) (k + 2) ∧
      (quotientDigit v pv (k + 2) u pu).2.toNat = num u pu (k + 3) / num v (pv + 1) (k + 2) ∧
      ∀ i, i < pu ∨ pu + (k + 2) < i → (quotientDigit v pv (k + 2) u pu).1 i = u i := by
  have trial := (leading k u some small).estimate
  unfold quotientDigit
  dsimp only
  generalize estimate (word (v (pv + 1))) (word (v (pv + 2))) (word (u pu)) (word (u (pu + 1))) (word (u (pu + 2))) = qhat at trial ⊢
  obtain ⟨above,near,digits⟩ := trial
  obtain ⟨sum,carried,frame⟩ := mulSub_spec v pv pu digits (k + 2) u 0 (zero_lt_succ _)
  generalize mulSub v pv qhat pu (k + 2) u 0 = r at sum carried frame ⊢
  obtain ⟨u1,t⟩ := r
  have start : (0 : BitVec 32).toNat = 0 := rfl
  rw [start,add_zero] at sum
  have top : u1 pu = u pu := frame pu (.inl (le_refl _))
  have last := borrow_last (a := u1 pu) carried
  generalize word (u1 pu) - t = d at last ⊢
  have window : num (update u1 pu (digit (lhalf d))) pu (k + 3) + qhat.toNat * num v (pv + 1) (k + 2) =
      num u pu (k + 3) + (if hhalf d ≠ 0 then 1 else 0) * 65536 ^ (k + 3) := by
    have tail : num (update u1 pu (digit (lhalf d))) (pu + 1) (k + 2) = num u1 (pu + 1) (k + 2) :=
      num_congr fun i _ => update_of_ne (by omega) ..
    have first : nat (update u1 pu (digit (lhalf d))) pu = (lhalf d).toNat := by
      unfold nat
      rw [update_self,digit_toNat,lhalf_toNat,mod_mod]
    rw [num_cons,num_cons u,tail,first,pow_succ 65536 (k + 2)]
    unfold nat
    rw [← top]
    calc _ = (lhalf d).toNat * 65536 ^ (k + 2) + (num u1 (pu + 1) (k + 2) + qhat.toNat * num v (pv + 1) (k + 2)) := by ring
      _ = ((lhalf d).toNat + t.toNat) * 65536 ^ (k + 2) + num u (pu + 1) (k + 2) := by
          rw [sum]
          ring
      _ = _ := by
          rw [last]
          ring
  have frame' : ∀ i, i < pu ∨ pu + (k + 2) < i → update u1 pu (digit (lhalf d)) i = u i := fun i outside => by
    rw [update_of_ne (by omega)]
    exact frame i (by omega)
  generalize update u1 pu (digit (lhalf d)) = u2 at window frame' ⊢
  by_cases over_ : hhalf d ≠ 0
  · have back := addBack_window v pv pu k u2
    have whole : num u2 pu (k + 3) < 65536 ^ (k + 3) := num_lt ..
    rw [if_pos over_,one_mul] at window
    rw [if_pos over_]
    generalize addBack v pv pu (k + 2) u2 0 = r at back ⊢
    obtain ⟨u3,t'⟩ := r
    dsimp only at back ⊢
    generalize update u3 pu (digit (lhalf (word (u3 pu) + t'))) = u4 at back ⊢
    obtain ⟨e,sum',frame''⟩ := back
    have whole' : num u4 pu (k + 3) < 65536 ^ (k + 3) := num_lt ..
    generalize num v (pv + 1) (k + 2) = V at *
    generalize num u pu (k + 3) = X at *
    generalize 65536 ^ (k + 3) = M at *
    -- qhat was one too big, and adding v once comes out past the top digit.
    obtain ⟨g,one⟩ : ∃ g, qhat.toNat = g + 1 := exists_eq_succ_of_ne_zero fun zero => by
      rw [zero,zero_mul] at window
      omega
    rw [one,add_mul,one_mul] at near window
    have exact_ : X / V = g ∧ X % V = num u4 pu (k + 3) := by
      cases e <;> simp only [if_true,if_false,Bool.false_eq_true,one_mul,zero_mul,add_zero] at sum'
      · omega
      · exact quotient_unique (by omega) (by omega)
    refine ⟨exact_.2.symm,?_,fun i outside => (frame'' i outside).trans (frame' i outside)⟩
    have less : (qhat - 1).toNat = g := by
      have unit : (1 : BitVec 32).toNat = 1 := rfl
      rw [BitVec.toNat_sub,unit,one]
      omega
    rw [digit_toNat,less,mod_eq_of_lt (by omega)]
    exact exact_.1.symm
  simp only [if_neg over_,zero_mul,add_zero] at window
  rw [if_neg over_]
  generalize num v (pv + 1) (k + 2) = V at *
  generalize num u pu (k + 3) = X at *
  have exact_ := quotient_unique window (by
    rw [add_mul,← window] at above
    omega)
  refine ⟨exact_.2.symm,?_,frame'⟩
  rw [digit_toNat,mod_eq_of_lt digits]
  exact exact_.1.symm
end digits
end NetbsdAvr32.Quad
