import NetbsdAvr32.Qdivrem

-- The long division as a whole: it returns the quotient and the remainder.
namespace NetbsdAvr32.Quad
open Radix Function Nat

theorem num_append (x : Digits) (p a b : Nat) : num x p (a + b) = num x p a * 65536 ^ b + num x (p + a) b := val_append a b

theorem num_front {x : Digits} {p a b : Nat} (small : num x p (a + b) < 65536 ^ b) : num x p a = 0 := by
  rw [num_append] at small
  have less : num x p a * 65536 ^ b < 1 * 65536 ^ b := by omega
  have low := lt_of_mul_lt_mul_right less
  omega

theorem num_zero {x : Digits} {p n : Nat} (zero : num x p n = 0) : ∀ k < n, x (p + k) = 0 := by
  induction n with
  | zero => exact fun k low => absurd low (not_lt_zero k)
  | succ n ih =>
    rw [num_succ] at zero
    intro k low
    rcases Nat.lt_succ_iff_lt_or_eq.mp low with before | rfl
    · exact ih (by omega) k before
    have last : nat x (p + k) = 0 := by omega
    exact BitVec.eq_of_toNat_eq last

theorem num_skip {x : Digits} {p n : Nat} (a : Nat) (zeros : ∀ k < a, x (p + k) = 0) : num x p (a + n) = num x (p + a) n :=
  val_skip a fun k low => congrArg BitVec.toNat (zeros k low)

-- What the loop on j has done when k quotient digits are left to do.
theorem longLoop_spec {v : Digits} {pv c : Nat} (some : v (pv + 1) ≠ 0) (k : Nat) (u : Digits) (pu : Nat) (q : Digits) (pq : Nat)
    (small : num u pu (k + (c + 2)) < num v (pv + 1) (c + 2) * 65536 ^ k) :
    num (longLoop v pv (c + 2) k u pu q pq).1 pu (k + (c + 2)) = num u pu (k + (c + 2)) % num v (pv + 1) (c + 2) ∧
      num (longLoop v pv (c + 2) k u pu q pq).2 pq k = num u pu (k + (c + 2)) / num v (pv + 1) (c + 2) ∧
      (∀ i < pu, (longLoop v pv (c + 2) k u pu q pq).1 i = u i) ∧
      ∀ i < pq, (longLoop v pv (c + 2) k u pu q pq).2 i = q i := by
  induction k generalizing u pu q pq with
  | zero =>
    rw [zero_add,pow_zero,mul_one] at small
    rw [zero_add,mod_eq_of_lt small,div_eq_of_lt small]
    exact ⟨rfl,rfl,fun _ _ => rfl,fun _ _ => rfl⟩
  | succ k ih =>
    have digits : k + 1 + (c + 2) = c + 3 + k := by omega
    have split := num_append u pu (c + 3) k
    have window : num u pu (c + 3) < 65536 * num v (pv + 1) (c + 2) := by
      have bound : num u pu (c + 3) * 65536 ^ k < 65536 * num v (pv + 1) (c + 2) * 65536 ^ k := by
        calc num u pu (c + 3) * 65536 ^ k ≤ num u pu (k + 1 + (c + 2)) := by
              rw [digits,split]
              exact le_add_right _ _
          _ < num v (pv + 1) (c + 2) * 65536 ^ (k + 1) := small
          _ = _ := by ring
      exact Nat.lt_of_mul_lt_mul_right bound
    obtain ⟨rest,quotient,frame⟩ := quotientDigit_spec c u some window
    unfold longLoop
    generalize quotientDigit v pv (c + 2) u pu = r at rest quotient frame ⊢
    obtain ⟨u1,qhat⟩ := r
    dsimp only at rest quotient frame ⊢
    have pos : 0 < num v (pv + 1) (c + 2) := by omega
    have remainder := mod_lt (num u pu (c + 3)) pos
    have top : nat u1 pu = 0 := by
      have below : num u1 pu (1 + (c + 2)) < 65536 ^ (c + 2) := by
        rw [add_comm 1,rest]
        exact lt_trans remainder (num_lt ..)
      exact congrArg BitVec.toNat (num_zero (num_front below) 0 (by decide))
    have tail : num u1 (pu + 1) (k + (c + 2)) = num u pu (c + 3) % num v (pv + 1) (c + 2) * 65536 ^ k + num u (pu + (c + 3)) k := by
      have whole : num u1 pu (k + (c + 2) + 1) = num u1 pu (c + 3) * 65536 ^ k + num u1 (pu + (c + 3)) k := by
        have same : k + (c + 2) + 1 = c + 3 + k := by omega
        rw [same,num_append]
      have same : num u1 (pu + (c + 3)) k = num u (pu + (c + 3)) k := num_congr fun i _ => frame _ (.inr (by omega))
      rw [num_cons,top,zero_mul,zero_add,rest,same] at whole
      exact whole
    have follow : num u (pu + (c + 3)) k < 65536 ^ k := num_lt ..
    have small' : num u1 (pu + 1) (k + (c + 2)) < num v (pv + 1) (c + 2) * 65536 ^ k := by
      rw [tail]
      calc _ < (num u pu (c + 3) % num v (pv + 1) (c + 2) + 1) * 65536 ^ k := by
            rw [add_mul,one_mul]
            exact Nat.add_lt_add_left follow _
        _ ≤ _ := mul_le_mul_right _ remainder
    obtain ⟨rest',quotient',frame',kept⟩ := ih u1 (pu + 1) (update q pq qhat) (pq + 1) small'
    generalize longLoop v pv (c + 2) k u1 (pu + 1) (update q pq qhat) (pq + 1) = r at rest' quotient' frame' kept ⊢
    have whole : num u pu (k + 1 + (c + 2)) = num u1 (pu + 1) (k + (c + 2)) + qhat.toNat * 65536 ^ k * num v (pv + 1) (c + 2) := by
      rw [digits,split,tail,quotient]
      have parts := div_add_mod (num u pu (c + 3)) (num v (pv + 1) (c + 2))
      calc _ = (num v (pv + 1) (c + 2) * (num u pu (c + 3) / num v (pv + 1) (c + 2)) + num u pu (c + 3) % num v (pv + 1) (c + 2)) * 65536 ^ k +
            num u (pu + (c + 3)) k := by rw [parts]
        _ = _ := by ring
    have front : nat r.1 pu = 0 := by
      unfold nat at top ⊢
      rw [frame' pu (lt_succ_self _),top]
    have digit : nat r.2 pq = qhat.toNat := by
      unfold nat
      rw [kept pq (lt_succ_self _),update_self]
    refine ⟨?_,?_,fun i low => ?_,fun i low => ?_⟩
    · have same : k + 1 + (c + 2) = k + (c + 2) + 1 := by omega
      rw [whole,add_mul_mod_self_right,← rest',same,num_cons,front,zero_mul,zero_add]
    · rw [whole,add_mul_div_right _ _ pos,← quotient',num_cons,digit,add_comm]
    · rw [frame' i (lt_succ_of_lt low)]
      exact frame i (.inl low)
    rw [kept i (lt_succ_of_lt low)]
    exact update_of_ne (Nat.ne_of_lt low) ..

section shifts
variable {d : Nat}

section
variable (low : d < 16)
include low

theorem base_split : 65536 = 2 ^ d * 2 ^ (16 - d) := by
  rw [← Nat.pow_add,Nat.add_sub_cancel' (Nat.le_of_lt low)]

theorem left_digit (a : Nat) : a * 2 ^ d % 65536 = 2 ^ d * (a % 2 ^ (16 - d)) := by
  have base := base_split low
  rw [base,mul_comm a,mul_mod_mul_left]

theorem lhalf_shl (a : BitVec 16) : (lhalf (word a <<< d)).toNat = a.toNat * 2 ^ d % 65536 := by
  have bound := a.isLt
  have power : 2 ^ d ≤ 65536 := Nat.pow_le_pow_right (by decide) (Nat.le_of_lt low)
  have fits : a.toNat * 2 ^ d < 65536 * 65536 := Nat.mul_lt_mul_of_lt_of_le bound power (by decide)
  rw [lhalf_toNat,BitVec.toNat_shiftLeft,word_toNat,shiftLeft_eq,mod_eq_of_lt (a := a.toNat * 2 ^ d) fits]

theorem joined_digit (x y : BitVec 32) (a b : Nat) (upper : x.toNat = a * 2 ^ d % 65536) (lower : y.toNat = b) (small : b < 2 ^ d) :
    (digit (x ||| y)).toNat = a * 2 ^ d % 65536 + b := by
  have base := base_split low
  have inside := Nat.mod_lt a (Nat.two_pow_pos (16 - d))
  have fits : 2 ^ d * (a % 2 ^ (16 - d)) + b < 65536 := by
    calc _ < 2 ^ d * (a % 2 ^ (16 - d)) + 2 ^ d := Nat.add_lt_add_left small _
      _ = 2 ^ d * (a % 2 ^ (16 - d) + 1) := (Nat.mul_succ ..).symm
      _ ≤ 2 ^ d * 2 ^ (16 - d) := Nat.mul_le_mul_left _ inside
      _ = 65536 := base.symm
  rw [digit_toNat,BitVec.toNat_or,upper,lower,left_digit low,← Nat.two_pow_add_eq_or_of_lt small,Nat.mod_eq_of_lt fits]

theorem upper_small {b : Nat} (bound : b < 65536) : b / 2 ^ (16 - d) < 2 ^ d := by
  rw [Nat.div_lt_iff_lt_mul (Nat.two_pow_pos _),← base_split low]
  exact bound

theorem shl_spec (len : Nat) (x : Digits) (p : Nat) :
    (∀ k < len, nat (shl x p d len) (p + k) = nat x (p + k) * 2 ^ d % 65536 + nat x (p + k + 1) / 2 ^ (16 - d)) ∧
      nat (shl x p d len) (p + len) = nat x (p + len) * 2 ^ d % 65536 ∧ ∀ i, i < p ∨ p + len < i → shl x p d len i = x i := by
  induction len generalizing x p with
  | zero =>
    refine ⟨fun k inside => absurd inside (not_lt_zero k),?_,fun i outside => update_of_ne (by omega) ..⟩
    unfold shl nat
    rw [add_zero,update_self,digit_toNat,lhalf_shl low,mod_mod]
  | succ len ih =>
    have first : (digit (lhalf (word (x p) <<< d) ||| word (x (p + 1)) >>> (16 - d))).toNat = nat x p * 2 ^ d % 65536 + nat x (p + 1) / 2 ^ (16 - d) := by
      refine joined_digit low _ _ _ _ (lhalf_shl low _) ?_ (upper_small low (nat_lt x _))
      rw [BitVec.toNat_ushiftRight,word_toNat,shiftRight_eq_div_pow]
      rfl
    unfold shl
    generalize digit (lhalf (word (x p) <<< d) ||| word (x (p + 1)) >>> (16 - d)) = e at first ⊢
    obtain ⟨inner,last,frame⟩ := ih (update x p e) (p + 1)
    have kept : ∀ i, p < i → nat (update x p e) i = nat x i := fun i above => congrArg BitVec.toNat (update_of_ne (by omega) ..)
    refine ⟨fun k inside => ?_,?_,fun i outside => ?_⟩
    · cases k with
      | zero =>
        show (shl (update x p e) (p + 1) d len p).toNat = nat x p * 2 ^ d % 65536 + nat x (p + 1) / 2 ^ (16 - d)
        rw [frame p (.inl (lt_succ_self p)),update_self,first]
      | succ k =>
        have place : p + (k + 1) = p + 1 + k := by omega
        rw [place,inner k (lt_of_succ_lt_succ inside),kept _ (by omega),kept _ (by omega)]
    · have place : p + (len + 1) = p + 1 + len := by omega
      rw [place,last,kept _ (by omega)]
    rw [frame i (by omega)]
    exact update_of_ne (by omega) ..

theorem shl_num (len : Nat) (x : Digits) (p : Nat) (room : nat x p * 2 ^ d < 65536) :
    num (if d > 0 then shl x p d len else x) p (len + 1) = num x p (len + 1) * 2 ^ d := by
  by_cases some : d > 0
  · have none : nat x p / 2 ^ (16 - d) = 0 := by
      refine div_eq_of_lt ?_
      rw [base_split low,mul_comm] at room
      exact Nat.lt_of_mul_lt_mul_left room
    obtain ⟨inner,last,_⟩ := shl_spec low len x p
    have shifted := val_shl (base_split low) inner last
    rw [none,zero_mul,add_zero] at shifted
    rw [if_pos some]
    exact shifted
  have zero : d = 0 := by omega
  rw [if_neg some,zero,pow_zero,mul_one]

theorem unshift_spec (some : 0 < d) (n : Nat) (x : Digits) (p : Nat) :
    (∀ k < n, nat (unshift p d n x) (p + 1 + k) = nat x (p + 1 + k) / 2 ^ d + nat x (p + k) * 2 ^ (16 - d) % 65536) ∧
      ∀ i, i ≤ p ∨ p + n < i → unshift p d n x i = x i := by
  induction n generalizing x with
  | zero => exact ⟨fun k inside => absurd inside (not_lt_zero k),fun i _ => rfl⟩
  | succ n ih =>
    have last : (digit (word (x (p + n + 1)) >>> d ||| lhalf (word (x (p + n)) <<< (16 - d)))).toNat =
        nat x (p + n + 1) / 2 ^ d + nat x (p + n) * 2 ^ (16 - d) % 65536 := by
      have low' : 16 - d < 16 := by omega
      have back : 16 - (16 - d) = d := by omega
      have small := upper_small low' (nat_lt x (p + n + 1))
      rw [back] at small
      rw [BitVec.or_comm,joined_digit low' _ _ (nat x (p + n)) _ (lhalf_shl low' _) rfl,add_comm,BitVec.toNat_ushiftRight,word_toNat,
        shiftRight_eq_div_pow]
      · rfl
      · rwa [BitVec.toNat_ushiftRight,word_toNat,shiftRight_eq_div_pow]
    unfold unshift
    generalize digit (word (x (p + n + 1)) >>> d ||| lhalf (word (x (p + n)) <<< (16 - d))) = e at last ⊢
    obtain ⟨inner,frame⟩ := ih (update x (p + n + 1) e)
    have kept : ∀ i, i ≤ p + n → nat (update x (p + n + 1) e) i = nat x i := fun i below => congrArg BitVec.toNat (update_of_ne (by omega) ..)
    refine ⟨fun k inside => ?_,fun i outside => ?_⟩
    · rcases Nat.lt_succ_iff_lt_or_eq.mp inside with before | rfl
      · rw [inner k before,kept _ (by omega),kept _ (by omega)]
      have place : p + 1 + k = p + k + 1 := by omega
      rw [place]
      show (unshift p d k (update x (p + k + 1) e) (p + k + 1)).toNat = _
      rw [frame _ (.inr (lt_succ_self _)),update_self,last]
    rw [frame i (by omega)]
    exact update_of_ne (by omega) ..

theorem unshift_num (some : 0 < d) (n : Nat) (x : Digits) (p : Nat) (zero : x p = 0) :
    num (unshift p d n x) (p + 1) n = num x p (n + 1) / 2 ^ d :=
  val_shr (base_split low) (congrArg BitVec.toNat zero) (unshift_spec low some n x p).1
end

theorem half_toNat : (digitBase / 2).toNat = 32768 := by decide

theorem normal_spec (k : Nat) (t : BitVec 32) (digit : t.toNat < 65536) (enough : 32768 ≤ t.toNat * 2 ^ k) :
    ∃ d ≤ k, normal t k = some d ∧ t.toNat * 2 ^ d < 65536 := by
  induction k generalizing t with
  | zero =>
    have stop : ¬ t < digitBase / 2 := by
      rw [BitVec.lt_def,half_toNat]
      omega
    unfold normal
    rw [if_neg stop]
    exact ⟨0,le_refl 0,rfl,by omega⟩
  | succ k ih =>
    unfold normal
    by_cases small : t < digitBase / 2
    · have small' : t.toNat < 32768 := by rwa [BitVec.lt_def,half_toNat] at small
      have twice : (t <<< 1).toNat = t.toNat * 2 := by
        rw [BitVec.toNat_shiftLeft,shiftLeft_eq]
        omega
      obtain ⟨d,le,found,fits⟩ := ih (t <<< 1) (by omega) (by
        rw [twice]
        calc 32768 ≤ t.toNat * 2 ^ (k + 1) := enough
          _ = t.toNat * 2 * 2 ^ k := by ring)
      refine ⟨d + 1,succ_le_succ le,?_,?_⟩
      · rw [if_pos small,found]
        rfl
      calc t.toNat * 2 ^ (d + 1) = (t <<< 1).toNat * 2 ^ d := by
            rw [twice]
            ring
        _ < 65536 := fits
    rw [if_neg small]
    exact ⟨0,zero_le _,rfl,by omega⟩
end shifts

theorem divisor_spec (v : Digits) (n pv : Nat) (some : num v (pv + 1) (n + 2) ≠ 0) :
    ∃ n' pv', divisor v pv (n + 2) = (n',pv') ∧ (n' = 1 ∧ num v (pv + 1) (n + 2) = nat v (pv' + 2) ∨
      ∃ c, n' = c + 2 ∧ c + pv' = n + pv ∧ v (pv' + 1) ≠ 0 ∧ num v (pv + 1) (n + 2) = num v (pv' + 1) (c + 2)) := by
  induction n generalizing pv with
  | zero =>
    unfold divisor
    by_cases zero : v (pv + 1) = 0
    · have front : nat v (pv + 1) = 0 := congrArg BitVec.toNat zero
      refine ⟨1,pv,by rw [if_pos zero]; rfl,.inl ⟨rfl,?_⟩⟩
      rw [num_cons,front,zero_mul,zero_add]
      exact val_one
    · exact ⟨2,pv,if_neg zero,.inr ⟨0,rfl,rfl,zero,rfl⟩⟩
  | succ n ih =>
    unfold divisor
    by_cases zero : v (pv + 1) = 0
    · have front : nat v (pv + 1) = 0 := congrArg BitVec.toNat zero
      have rest : num v (pv + 1) (n + 3) = num v (pv + 1 + 1) (n + 2) := by
        rw [num_cons,front,zero_mul,zero_add]
      have some' : num v (pv + 1 + 1) (n + 2) ≠ 0 := by
        rw [← rest]
        exact some
      obtain ⟨n',pv',found,outcome⟩ := ih (pv + 1) some'
      refine ⟨n',pv',?_,?_⟩
      · rw [if_pos zero,if_neg (by omega)]
        exact found
      rw [rest]
      rcases outcome with ⟨one,digit⟩ | ⟨c,two,place,lead,same⟩
      · exact .inl ⟨one,digit⟩
      · exact .inr ⟨c,two,by omega,lead,same⟩
    · exact ⟨n + 3,pv,if_neg zero,.inr ⟨n + 1,rfl,rfl,zero,rfl⟩⟩

theorem dividend_spec (u : Digits) (m n pu : Nat) (front : u pu = 0) (large : 65536 ^ n ≤ num u (pu + 1) (m + (n + 1))) :
    ∃ m' pu', dividend u m pu (m + (n + 1)) = some (m',pu') ∧ m' + pu' = m + pu ∧ pu ≤ pu' ∧ (∀ i, pu ≤ i → i ≤ pu' → u i = 0) ∧
      num u (pu' + 1) (m' + (n + 1)) = num u (pu + 1) (m + (n + 1)) := by
  induction m generalizing pu with
  | zero =>
    have lead : u (pu + 1) ≠ 0 := by
      intro zero
      have front' : nat u (pu + 1) = 0 := congrArg BitVec.toNat zero
      rw [zero_add,num_cons,front',zero_mul,zero_add] at large
      exact absurd (num_lt u (pu + 1 + 1) n) (not_lt.mpr large)
    unfold dividend
    rw [if_neg lead]
    refine ⟨0,pu,rfl,rfl,le_refl _,fun i low high => ?_,by rw [zero_add]⟩
    rwa [le_antisymm high low]
  | succ m ih =>
    have count : m + 1 + (n + 1) = m + (n + 1) + 1 := by omega
    rw [count] at large ⊢
    unfold dividend
    by_cases zero : u (pu + 1) = 0
    · have front' : nat u (pu + 1) = 0 := congrArg BitVec.toNat zero
      rw [num_cons,front',zero_mul,zero_add] at large ⊢
      obtain ⟨m',pu',found,place,le,zeros,same⟩ := ih (pu + 1) zero large
      refine ⟨m',pu',?_,by omega,by omega,fun i low high => ?_,same⟩
      · rw [if_pos zero,if_neg (Nat.succ_ne_zero m),Nat.add_sub_cancel]
        exact found
      rcases eq_or_lt_of_le low with rfl | above
      · exact front
      · exact zeros i above high
    rw [if_neg zero]
    refine ⟨m + 1,pu,rfl,rfl,le_refl _,fun i low high => ?_,by rw [count]⟩
    rwa [le_antisymm high low]

theorem clear_spec (q : Digits) (n : Nat) : (∀ i < n, clear q n i = 0) ∧ ∀ i, n ≤ i → clear q n i = q i := by
  induction n generalizing q with
  | zero => exact ⟨fun i low => absurd low (not_lt_zero i),fun i _ => rfl⟩
  | succ n ih =>
    obtain ⟨zeros,frame⟩ := ih (update q n 0)
    refine ⟨fun i low => ?_,fun i above => ?_⟩
    · rcases Nat.lt_succ_iff_lt_or_eq.mp low with before | rfl
      · exact zeros i before
      · exact (frame i (le_refl i)).trans (update_self ..)
    · exact (frame i (le_of_succ_le above)).trans (update_of_ne (by omega) ..)

theorem num_last {x : Digits} {a n : Nat} (whole : a + n = 4) (zeros : ∀ i, 1 ≤ i → i ≤ a → x i = 0) : num x 1 4 = num x (a + 1) n := by
  rw [← whole,num_skip a fun k low => zeros (1 + k) (le_add_right 1 k) (by omega),add_comm 1 a]

theorem long_spec {u v q : Digits} {pu m pv c : Nat} (some_ : v (pv + 1) ≠ 0) (zeros : ∀ i ≤ pu, u i = 0) (whole : pu + (m + (c + 2)) = 4) :
    ∃ quot rest, long u pu m v pv (c + 2) q = some (quot,rest) ∧
      quot.toNat = num u (pu + 1) (m + (c + 2)) / num v (pv + 1) (c + 2) ∧ rest.toNat = num u (pu + 1) (m + (c + 2)) % num v (pv + 1) (c + 2) := by
  have lead : 0 < nat v (pv + 1) := Nat.pos_of_ne_zero fun zero => some_ (BitVec.eq_of_toNat_eq zero)
  obtain ⟨d,_,found,fits⟩ := normal_spec 16 (word (v (pv + 1))) (by rw [word_toNat]; exact nat_lt v _) (by
    exact Nat.le_trans (by decide) (Nat.mul_le_mul_right (2 ^ 16) lead))
  have power : 2 ^ d < 2 ^ 16 := Nat.lt_of_le_of_lt (Nat.le_mul_of_pos_left _ lead) fits
  have low : d < 16 := (Nat.pow_lt_pow_iff_right (by decide)).mp power
  have front : nat u pu = 0 := congrArg BitVec.toNat (zeros pu (Nat.le_refl pu))
  have count : m + 1 + (c + 2) = m + (c + 2) + 1 := by omega
  have dividend_ := shl_num low (m + (c + 2)) u pu (by rw [front]; omega)
  have divisor_ := shl_num low (c + 1) v (pv + 1) fits
  have before : ∀ i < pu, (if d > 0 then shl u pu d (m + (c + 2)) else u) i = 0 := by
    intro i below
    split
    · exact ((shl_spec low _ u pu).2.2 i (.inl below)).trans (zeros i (Nat.le_of_lt below))
    · exact zeros i (Nat.le_of_lt below)
  rw [num_cons u pu,front,Nat.zero_mul,Nat.zero_add] at dividend_
  unfold long
  dsimp only
  rw [found,Option.map_some,Nat.add_sub_cancel (c + 1) 1]
  generalize (if d > 0 then shl u pu d (m + (c + 2)) else u) = u1 at dividend_ before ⊢
  generalize (if d > 0 then shl v (pv + 1) d (c + 1) else v) = v1 at divisor_ ⊢
  have bound : num u (pu + 1) (m + (c + 2)) < 65536 ^ (m + (c + 2)) := num_lt ..
  have large : 65536 ^ (c + 1) ≤ num v (pv + 1) (c + 2) := by
    rw [num_cons]
    exact Nat.le_add_right_of_le (Nat.le_mul_of_pos_left _ lead)
  generalize num u (pu + 1) (m + (c + 2)) = U at *
  generalize num v (pv + 1) (c + 2) = V at *
  have unit : 0 < 2 ^ d := Nat.two_pow_pos d
  have top : v1 (pv + 1) ≠ 0 := by
    intro zero
    have front' : nat v1 (pv + 1) = 0 := congrArg BitVec.toNat zero
    have less : num v1 (pv + 1 + 1) (c + 1) < 65536 ^ (c + 1) := num_lt ..
    have grown : V ≤ V * 2 ^ d := Nat.le_mul_of_pos_right _ unit
    rw [num_cons,front',Nat.zero_mul,Nat.zero_add] at divisor_
    omega
  have small : num u1 pu (m + 1 + (c + 2)) < num v1 (pv + 1) (c + 2) * 65536 ^ (m + 1) := by
    rw [count,dividend_,divisor_]
    calc U * 2 ^ d < 65536 ^ (m + (c + 2)) * 2 ^ d := Nat.mul_lt_mul_of_pos_right bound unit
      _ = 65536 ^ (c + 1) * 2 ^ d * 65536 ^ (m + 1) := by ring
      _ ≤ V * 2 ^ d * 65536 ^ (m + 1) := Nat.mul_le_mul_right _ (Nat.mul_le_mul_right _ large)
  obtain ⟨remainder,quotient,frame,kept⟩ := longLoop_spec top (m + 1) u1 pu (clear q (4 - m)) (4 - m) small
  generalize longLoop v1 pv (c + 2) (m + 1) u1 pu (clear q (4 - m)) (4 - m) = r at remainder quotient frame kept ⊢
  obtain ⟨u2,q2⟩ := r
  rw [count,dividend_,divisor_,Nat.mul_mod_mul_right] at remainder
  rw [count,dividend_,divisor_,Nat.mul_div_mul_right _ _ unit] at quotient
  refine ⟨_,_,rfl,?_,?_⟩
  · rw [gather_toNat,num_last (a := 3 - m) (n := m + 1) (by omega) fun i _ le => (kept i (by omega)).trans ((clear_spec q _).1 i (by omega))]
    have place : 3 - m + 1 = 4 - m := by omega
    rw [place,quotient]
  have rest : U % V < V := Nat.mod_lt _ (Nat.lt_of_lt_of_le (Nat.pow_pos (by decide)) large)
  have inside : num u2 pu (m + 1 + (c + 2)) < 65536 ^ (c + 2) := by
    have less : num v1 (pv + 1) (c + 2) < 65536 ^ (c + 2) := num_lt ..
    rw [count,remainder]
    rw [divisor_] at less
    exact Nat.lt_trans (Nat.mul_lt_mul_of_pos_right rest unit) less
  have zeros' := num_zero (num_front inside)
  have zero : ∀ i ≤ pu + m, u2 i = 0 := by
    intro i le
    by_cases below : i < pu
    · exact (frame i below).trans (before i below)
    have there := zeros' (i - pu) (by omega)
    rwa [Nat.add_sub_cancel' (Nat.not_lt.mp below)] at there
  have tail : num u2 (pu + m) (c + 2 + 1) = U % V * 2 ^ d := by
    rw [← remainder,← count,Nat.add_assoc m 1,Nat.add_comm 1]
    exact (num_skip m fun k low => zero (pu + k) (by omega)).symm
  rw [gather_toNat]
  by_cases shifted : d ≠ 0
  · rw [if_pos shifted]
    obtain ⟨_,kept'⟩ := unshift_spec low (Nat.pos_of_ne_zero shifted) (c + 2) u2 (pu + m)
    have value := unshift_num low (Nat.pos_of_ne_zero shifted) (c + 2) u2 (pu + m) (zero _ (Nat.le_refl _))
    generalize unshift (pu + m) d (c + 2) u2 = u3 at kept' value ⊢
    rw [num_last (a := pu + m) (n := c + 2) (by omega) fun i _ le => ?_]
    · rw [tail,Nat.mul_div_cancel _ unit] at value
      rw [← value]
      exact num_congr fun k _ => update_of_ne (by omega) ..
    by_cases last : i = pu + m
    · rw [last,update_self]
    · rw [update_of_ne last,kept' i (.inl le),zero i le]
  have none : d = 0 := Decidable.not_not.mp shifted
  rw [if_neg shifted,num_last (a := pu + m) (n := c + 2) (by omega) fun i _ le => zero i le]
  rw [none,Nat.pow_zero,Nat.mul_one,num_cons] at tail
  have lead' : nat u2 (pu + m) = 0 := congrArg BitVec.toNat (zero _ (Nat.le_refl _))
  rw [lead',Nat.zero_mul,Nat.zero_add] at tail
  exact tail

theorem short_digit {r t : BitVec 32} (a : BitVec 16) (less : r.toNat < t.toNat) (one : t.toNat < 65536) :
    (digit (combine r (word a) / t)).toNat * t.toNat + (combine r (word a) % t).toNat = r.toNat * 65536 + a.toNat ∧
      (combine r (word a) % t).toNat < t.toNat := by
  have bound := a.isLt
  have two : (combine r (word a)).toNat = r.toNat * 65536 + a.toNat := by
    rw [combine_toNat (by omega) (by rw [word_toNat]; exact bound),word_toNat]
  have pos : 0 < t.toNat := zero_lt_of_lt less
  have fits : (r.toNat * 65536 + a.toNat) / t.toNat < 65536 := by
    rw [div_lt_iff_lt_mul pos]
    omega
  have parts := div_add_mod (r.toNat * 65536 + a.toNat) t.toNat
  rw [digit_toNat,BitVec.toNat_udiv,BitVec.toNat_umod,two,mod_eq_of_lt fits]
  exact ⟨by rw [mul_comm,parts],mod_lt _ pos⟩

theorem short_spec (u : Digits) {t : BitVec 32} (some_ : t ≠ 0) (one : t.toNat < 65536) :
    ∃ quot rest, short u t = some (quot,rest) ∧ quot.toNat = num u 1 4 / t.toNat ∧ rest.toNat = num u 1 4 % t.toNat := by
  have pos : 0 < t.toNat := pos_of_ne_zero fun zero => some_ (BitVec.eq_of_toNat_eq zero)
  have start : combine 0 (word (u 1)) = word (u 1) := by
    apply BitVec.eq_of_toNat_eq
    rw [combine_toNat (by decide) (by rw [word_toNat]; exact (u 1).isLt)]
    simp
  have first := short_digit (r := 0) (u 1) pos one
  rw [start] at first
  unfold short
  rw [if_neg some_]
  dsimp only
  obtain ⟨sum1,less1⟩ := first
  obtain ⟨sum2,less2⟩ := short_digit (u 2) less1 one
  obtain ⟨sum3,less3⟩ := short_digit (u 3) less2 one
  obtain ⟨sum4,less4⟩ := short_digit (u 4) less3 one
  generalize word (u 1) % t = r1 at *
  generalize digit (word (u 1) / t) = q1 at *
  generalize combine r1 (word (u 2)) % t = r2 at *
  generalize digit (combine r1 (word (u 2)) / t) = q2 at *
  generalize combine r2 (word (u 3)) % t = r3 at *
  generalize digit (combine r2 (word (u 3)) / t) = q3 at *
  generalize combine r3 (word (u 4)) % t = r4 at *
  generalize digit (combine r3 (word (u 4)) / t) = q4 at *
  have low (x : BitVec 16) : (word x).toNat < 65536 := by
    exact x.isLt
  have zero : (0 : BitVec 32).toNat = 0 := rfl
  have quot : (quad (combine (word q1) (word q2)) (combine (word q3) (word q4))).toNat =
      ((q1.toNat * 65536 + q2.toNat) * 65536 + q3.toNat) * 65536 + q4.toNat := by
    rw [quad_toNat,combine_toNat (low _) (low _),combine_toNat (low _) (low _)]
    simp only [word_toNat]
    ring
  have rest : (r4.setWidth 64).toNat = r4.toNat := by
    rw [BitVec.toNat_setWidth,mod_eq_of_lt]
    omega
  have whole : r4.toNat + (((q1.toNat * 65536 + q2.toNat) * 65536 + q3.toNat) * 65536 + q4.toNat) * t.toNat = num u 1 4 := by
    simp only [num,val,nat,add_zero,reduceAdd]
    rw [zero] at sum1
    calc _ = (q1.toNat * t.toNat * 65536 + q2.toNat * t.toNat) * 65536 * 65536 + q3.toNat * t.toNat * 65536 + (q4.toNat * t.toNat + r4.toNat) := by ring
      _ = (q1.toNat * t.toNat * 65536 + q2.toNat * t.toNat) * 65536 * 65536 + (q3.toNat * t.toNat + r3.toNat) * 65536 + (u 4).toNat := by
        rw [sum4]
        ring
      _ = (q1.toNat * t.toNat * 65536 + (q2.toNat * t.toNat + r2.toNat)) * 65536 * 65536 + (u 3).toNat * 65536 + (u 4).toNat := by
        rw [sum3]
        ring
      _ = (q1.toNat * t.toNat + r1.toNat) * 65536 * 65536 * 65536 + (u 2).toNat * 65536 * 65536 + (u 3).toNat * 65536 + (u 4).toNat := by
        rw [sum2]
        ring
      _ = _ := by
        rw [sum1]
        ring
  obtain ⟨quotient,remainder⟩ := quotient_unique whole less4
  exact ⟨_,_,rfl,by rw [quot,quotient],by rw [rest,remainder]⟩

theorem qdivrem_spec (stack : Digits) (uq vq : BitVec 64) (some_ : vq ≠ 0) : qdivrem stack uq vq = some (uq / vq,uq % vq) := by
  have pos : 0 < vq.toNat := pos_of_ne_zero fun zero => some_ (BitVec.eq_of_toNat_eq zero)
  have enough : ∃ quot rest, qdivrem stack uq vq = some (quot,rest) ∧ quot.toNat = uq.toNat / vq.toNat ∧ rest.toNat = uq.toNat % vq.toNat := by
    unfold qdivrem
    rw [if_neg some_]
    by_cases small : uq < vq
    · have small' : uq.toNat < vq.toNat := small
      rw [if_pos small]
      exact ⟨0,uq,rfl,(div_eq_of_lt small').symm,(mod_eq_of_lt small').symm⟩
    have large : vq.toNat ≤ uq.toNat := not_lt.mp small
    have uval := spread_num (update stack 0 0) uq
    have vval := spread_num stack vq
    have first : spread (update stack 0 0) uq 0 = 0 := rfl
    rw [if_neg small]
    dsimp only
    generalize spread (update stack 0 0) uq = u at *
    generalize spread stack vq = v at *
    obtain ⟨n,pv,found,outcome⟩ := divisor_spec v 2 0 (by rw [vval]; exact pos_iff_ne_zero.mp pos)
    rw [found]
    rcases outcome with ⟨rfl,one⟩ | ⟨c,rfl,place,lead,same⟩
    · rw [vval] at one
      have digit : (word (v (pv + 2))).toNat = vq.toNat := by
        rw [word_toNat,one]
        rfl
      have some' : word (v (pv + 2)) ≠ 0 := by
        intro zero
        rw [zero] at digit
        have none : (0 : BitVec 32).toNat = 0 := rfl
        omega
      obtain ⟨quot,rest,ran,quotient,remainder⟩ := short_spec u some' (by rw [word_toNat]; exact (v (pv + 2)).isLt)
      rw [if_pos rfl,ran]
      rw [uval,digit] at quotient remainder
      exact ⟨quot,rest,rfl,quotient,remainder⟩
    have count : 4 - (c + 2) + (c + 1 + 1) = 4 := by omega
    have power : 65536 ^ (c + 1) ≤ vq.toNat := by
      have some' : 0 < nat v (pv + 1) := pos_of_ne_zero fun zero => lead (BitVec.eq_of_toNat_eq zero)
      rw [← vval,same,num_cons]
      exact Nat.le_add_right_of_le (Nat.le_mul_of_pos_left _ some')
    obtain ⟨m,pu,ran,place',_,zeros,value⟩ := dividend_spec u (4 - (c + 2)) (c + 1) 0 first (by
      rw [count,uval]
      exact le_trans power large)
    rw [count] at ran value
    rw [if_neg (by omega),ran]
    obtain ⟨quot,rest,done,quotient,remainder⟩ := long_spec (q := stack) (u := u) (m := m) (c := c) lead (fun i le => zeros i (zero_le i) le) (by omega)
    rw [value,uval,← same,vval] at quotient remainder
    exact ⟨quot,rest,done,quotient,remainder⟩
  obtain ⟨quot,rest,ran,quotient,remainder⟩ := enough
  rw [ran]
  congr 2
  · apply BitVec.eq_of_toNat_eq
    rw [quotient,BitVec.toNat_udiv]
  apply BitVec.eq_of_toNat_eq
  rw [remainder,BitVec.toNat_umod]

example : qdivrem (fun _ => 0) 0x7fff800000000000 0x800000000001 = some (65534,140737488289794) := by decide +kernel

-- __divdi3, which has no use for the remainder, and __moddi3; the divisor's sign
-- does not count for the remainder.
def divdi3 (stack : Digits) (a b : BitVec 64) : Option (BitVec 64) :=
  let ua := magnitude a
  let ub := magnitude b
  (qdivrem stack ua.1 ub.1).map fun r => if ua.2 ^^ ub.2 then -r.1 else r.1

def moddi3 (stack : Digits) (a b : BitVec 64) : Option (BitVec 64) :=
  let ua := magnitude a
  (qdivrem stack ua.1 (magnitude b).1).map fun r => if ua.2 then -r.2 else r.2

-- What the compiler calls on this machine.
def avr32Sdiv64 (stack : Digits) (s1 s2 : BitVec 64) : Option (BitVec 64) := divdi3 stack s1 s2
def avr32Smod64 (stack : Digits) (s1 s2 : BitVec 64) : Option (BitVec 64) := moddi3 stack s1 s2

theorem magnitude_eq (a : BitVec 64) : magnitude a = (if a.msb then -a else a,a.msb) := by
  unfold magnitude
  rw [BitVec.msb_eq_toInt]
  by_cases neg : a.toInt < 0
  · simp [neg,Int.not_le.mpr neg]
  · simp [neg,Int.not_lt.mp neg]

theorem magnitude_some {b : BitVec 64} (some_ : b ≠ 0) : (magnitude b).1 ≠ 0 := by
  unfold magnitude
  split
  · exact some_
  · exact fun zero => some_ (neg_eq_zero.mp zero)

theorem divdi3_spec (stack : Digits) (a b : BitVec 64) (some_ : b ≠ 0) : divdi3 stack a b = some (a.sdiv b) := by
  unfold divdi3
  dsimp only
  rw [qdivrem_spec stack _ _ (magnitude_some some_),magnitude_eq a,magnitude_eq b,BitVec.sdiv_eq]
  cases a.msb <;> cases b.msb <;> rfl

theorem moddi3_spec (stack : Digits) (a b : BitVec 64) (some_ : b ≠ 0) : moddi3 stack a b = some (a.srem b) := by
  unfold moddi3
  dsimp only
  rw [qdivrem_spec stack _ _ (magnitude_some some_),magnitude_eq a,magnitude_eq b,BitVec.srem_eq]
  cases a.msb <;> cases b.msb <;> rfl

theorem division_exact (stack : Digits) (u v a b : BitVec 64) (some_ : v ≠ 0) (some' : b ≠ 0) :
    (∃ q r, qdivrem stack u v = some (q,r) ∧ q.toNat = u.toNat / v.toNat ∧ r.toNat = u.toNat % v.toNat) ∧
      ∃ q r, divdi3 stack a b = some q ∧ moddi3 stack a b = some r ∧ avr32Sdiv64 stack a b = some q ∧ avr32Smod64 stack a b = some r ∧
        q = BitVec.ofInt 64 (a.toInt.tdiv b.toInt) ∧ r.toInt = a.toInt.tmod b.toInt ∧ a = q * b + r := by
  have quotient : a.sdiv b = BitVec.ofInt 64 (a.toInt.tdiv b.toInt) := by
    rw [← BitVec.toInt_inj,BitVec.toInt_sdiv,BitVec.toInt_ofInt]
  have remainder : a.srem b = BitVec.ofInt 64 (a.toInt.tmod b.toInt) := by
    rw [← BitVec.toInt_srem,BitVec.ofInt_toInt]
  refine ⟨⟨_,_,qdivrem_spec stack u v some_,BitVec.toNat_udiv ..,BitVec.toNat_umod ..⟩,_,_,divdi3_spec stack a b some',moddi3_spec stack a b some',
    divdi3_spec stack a b some',moddi3_spec stack a b some',quotient,BitVec.toInt_srem a b,?_⟩
  calc a = BitVec.ofInt 64 (a.toInt.tdiv b.toInt * b.toInt + a.toInt.tmod b.toInt) := by rw [Int.tdiv_mul_add_tmod,BitVec.ofInt_toInt]
    _ = a.sdiv b * b + a.srem b := by rw [BitVec.ofInt_add,BitVec.ofInt_mul,BitVec.ofInt_toInt,quotient,remainder]

-- The one quotient of signed numbers that does not fit, and what it wraps to.
theorem division_exact_least :
    (∃ q r, qdivrem (fun _ => 0) 7 2 = some (q,r) ∧ q.toNat = (7 : BitVec 64).toNat / (2 : BitVec 64).toNat ∧ r.toNat = (7 : BitVec 64).toNat % (2 : BitVec 64).toNat) ∧
      ∃ q r, divdi3 (fun _ => 0) (BitVec.intMin 64) (-1) = some q ∧ moddi3 (fun _ => 0) (BitVec.intMin 64) (-1) = some r ∧
        avr32Sdiv64 (fun _ => 0) (BitVec.intMin 64) (-1) = some q ∧ avr32Smod64 (fun _ => 0) (BitVec.intMin 64) (-1) = some r ∧
        q = BitVec.ofInt 64 ((BitVec.intMin 64).toInt.tdiv (-1 : BitVec 64).toInt) ∧
        r.toInt = (BitVec.intMin 64).toInt.tmod (-1 : BitVec 64).toInt ∧ BitVec.intMin 64 = q * (-1) + r :=
  division_exact (fun _ => 0) 7 2 (BitVec.intMin 64) (-1) (by decide) (by decide)
end NetbsdAvr32.Quad
