import NetbsdAvr32.Radix

-- quad.h: a quad is two words and a word is two half words.
namespace NetbsdAvr32.Quad
open DoubleWord Nat

-- union uu
def quad (h l : BitVec 32) : BitVec 64 := h ++ l
def ulH (q : BitVec 64) : BitVec 32 := q.extractLsb' 32 32
def ulL (q : BitVec 64) : BitVec 32 := q.extractLsb' 0 32

theorem ulH_toNat (q : BitVec 64) : (ulH q).toNat = q.toNat / 4294967296 := by
  unfold ulH
  rw [BitVec.extractLsb'_toNat,shiftRight_eq_div_pow]
  omega

theorem ulL_toNat (q : BitVec 64) : (ulL q).toNat = q.toNat % 4294967296 := by
  unfold ulL
  rw [BitVec.extractLsb'_toNat,shiftRight_zero]

theorem quad_toNat (h l : BitVec 32) : (quad h l).toNat = h.toNat * 4294967296 + l.toNat := append_toNat h l

theorem quad_parts (q : BitVec 64) : quad (ulH q) (ulL q) = q := by
  apply BitVec.eq_of_toNat_eq
  rw [quad_toNat,ulH_toNat,ulL_toNat]
  omega

-- HALF_BITS is 16.
def hhalf (x : BitVec 32) : BitVec 32 := x >>> 16
def lhalf (x : BitVec 32) : BitVec 32 := x &&& 65535
def lhup (x : BitVec 32) : BitVec 32 := x <<< 16

@[simp] theorem hhalf_toNat (x : BitVec 32) : (hhalf x).toNat = x.toNat / 65536 := by
  unfold hhalf
  rw [BitVec.toNat_ushiftRight,shiftRight_eq_div_pow]

@[simp] theorem lhalf_toNat (x : BitVec 32) : (lhalf x).toNat = x.toNat % 65536 := by
  unfold lhalf
  exact and_two_pow_sub_one_eq_mod x.toNat 16

@[simp] theorem lhup_toNat (x : BitVec 32) : (lhup x).toNat = x.toNat * 65536 % 4294967296 := by
  unfold lhup
  rw [BitVec.toNat_shiftLeft,shiftLeft_eq]

theorem quad_half (x : BitVec 32) : quad (hhalf x) (lhup x) = BitVec.ofNat 64 (x.toNat * 65536) := by
  apply BitVec.eq_of_toNat_eq
  rw [quad_toNat,hhalf_toNat,lhup_toNat,BitVec.toNat_ofNat]
  omega

-- The 64-bit product out of 16-bit products, by Karatsuba's identity used twice.

def difference (x y : BitVec 32) : BitVec 32 × Bool := if x ≥ y then (x - y,false) else (y - x,true)

-- The end of lmulq: high << 2N + high << N, then mid << N by its sign, then
-- low << N and low, with the carries between the two words.
def lmulqSum (high mid low : BitVec 32) (neg : Bool) : BitVec 64 :=
  let prodh := high + hhalf high
  let prodl := lhup high
  let was := prodl
  let (prodl,prodh) :=
    if neg then (prodl - lhup mid,prodh - (hhalf mid + if prodl - lhup mid > was then 1 else 0))
    else (prodl + lhup mid,prodh + (hhalf mid + if prodl + lhup mid < was then 1 else 0))
  let was := prodl
  let prodl := prodl + lhup low
  let prodh := prodh + (hhalf low + if prodl < was then 1 else 0)
  let prodl := prodl + low
  let prodh := if prodl < low then prodh + 1 else prodh
  quad prodh prodl

def lmulq (u v : BitVec 32) : BitVec 64 :=
  let u1 := hhalf u
  let u0 := lhalf u
  let v1 := hhalf v
  let v0 := lhalf v
  let low := u0 * v0
  if u1 = 0 ∧ v1 = 0 then low.setWidth 64
  else
    let udiff := difference u1 u0
    let vdiff := difference v0 v1
    let mid := udiff.1 * vdiff.1
    let high := u1 * v1
    lmulqSum high mid low (udiff.2 ^^ vdiff.2)

-- A quad made positive, and whether it was negative; -2^63 stays as it is.
def magnitude (a : BitVec 64) : BitVec 64 × Bool := if a.toInt ≥ 0 then (a,false) else (-a,true)

def muldi3 (a b : BitVec 64) : BitVec 64 :=
  let u := magnitude a
  let v := magnitude b
  let negall := u.2 ^^ v.2
  let u1 := ulH u.1
  let u0 := ulL u.1
  let v1 := ulH v.1
  let v0 := ulL v.1
  let prod :=
    if u1 = 0 ∧ v1 = 0 then lmulq u0 v0
    else
      let low := lmulq u0 v0
      let udiff := difference u1 u0
      let vdiff := difference v0 v1
      let negmid := udiff.2 ^^ vdiff.2
      let mid := udiff.1 * vdiff.1
      let high := u1 * v1
      quad (high + (if negmid then -mid else mid) + ulL low + ulH low) (ulL low)
  if negall then -prod else prod

def signed (p : BitVec w × Bool) : BitVec w := if p.2 then -p.1 else p.1

theorem signed_mul (p q : BitVec w × Bool) : signed (p.1 * q.1,p.2 ^^ q.2) = signed p * signed q := by
  obtain ⟨x,s⟩ := p
  obtain ⟨y,t⟩ := q
  cases s <;> cases t <;> simp [signed]

theorem signed_difference (x y : BitVec 32) : signed (difference x y) = x - y := by
  unfold difference signed
  split
  · rfl
  · exact neg_sub y x

theorem signed_magnitude (a : BitVec 64) : signed (magnitude a) = a := by
  unfold magnitude signed
  split
  · rfl
  · exact neg_neg a

theorem difference_toNat (x y : BitVec 32) :
    ((difference x y).1.toNat : Int) = if (difference x y).2 then (y.toNat : Int) - x.toNat else x.toNat - y.toNat := by
  unfold difference
  split
  · next order =>
    have below : y.toNat ≤ x.toNat := order
    rw [if_neg Bool.false_ne_true,BitVec.toNat_sub_of_le order]
    omega
  next order =>
  have above : x.toNat ≤ y.toNat := le_of_lt (not_le.mp order)
  rw [if_pos rfl,BitVec.toNat_sub_of_le above]
  omega

theorem lmulqSum_eq (high mid low : BitVec 32) (neg : Bool) :
    lmulqSum high mid low neg = BitVec.ofNat 64 (high.toNat * 4294967296) + BitVec.ofNat 64 (high.toNat * 65536) +
      signed (BitVec.ofNat 64 (mid.toNat * 65536),neg) + BitVec.ofNat 64 (low.toNat * 65536) + BitVec.ofNat 64 low.toNat := by
  have start : quad (high + hhalf high) (lhup high) = BitVec.ofNat 64 (high.toNat * 4294967296) + BitVec.ofNat 64 (high.toNat * 65536) := by
    have sum := add_append high 0 (hhalf high) (lhup high) (by decide)
    have none : carry 0 (lhup high) = 0 := if_neg BitVec.not_lt_zero
    have upper : quad high 0 = BitVec.ofNat 64 (high.toNat * 4294967296) := by
      apply BitVec.eq_of_toNat_eq
      rw [quad_toNat,BitVec.toNat_ofNat]
      simp
      omega
    rw [none,add_zero,zero_add] at sum
    rw [← upper,← quad_half]
    exact sum
  have middle (h l x : BitVec 32) : quad (h + (hhalf x + if l + lhup x < l then 1 else 0)) (l + lhup x) = quad h l + BitVec.ofNat 64 (x.toNat * 65536) := by
    rw [← quad_half]
    exact add_append h l (hhalf x) (lhup x) (by decide)
  have less (h l x : BitVec 32) : quad (h - (hhalf x + if l - lhup x > l then 1 else 0)) (l - lhup x) = quad h l - BitVec.ofNat 64 (x.toNat * 65536) := by
    rw [← quad_half]
    exact sub_append h l (hhalf x) (lhup x) (by decide)
  have last (h l : BitVec 32) : quad (if l + low < low then h + 1 else h) (l + low) = quad h l + BitVec.ofNat 64 low.toNat := by
    have sum := add_append h l 0 low (by decide)
    have lower : quad 0 low = BitVec.ofNat 64 low.toNat := by
      apply BitVec.eq_of_toNat_eq
      rw [quad_toNat,BitVec.toNat_ofNat]
      simp
      omega
    have same : l + low < low ↔ l + low < l := by
      simp only [BitVec.lt_def,BitVec.toNat_add]
      omega
    rw [zero_add] at sum
    rw [← lower]
    refine .trans ?_ sum
    unfold carry quad
    simp only [same]
    split
    · rfl
    · rw [add_zero]
  unfold lmulqSum
  cases neg
  · simp only [Bool.false_eq_true,if_false,signed]
    rw [last,middle,middle,start]
  simp only [if_true,signed]
  rw [last,middle,less,start,sub_eq_add_neg]

theorem product_toNat {x y : BitVec 32} (left : x.toNat < 65536) (right : y.toNat < 65536) : (x * y).toNat = x.toNat * y.toNat := by
  have fits : x.toNat * y.toNat < 4294967296 := mul_lt_mul'' left right
  rw [BitVec.toNat_mul,mod_eq_of_lt fits]

theorem difference_half {x y : BitVec 32} (left : x.toNat < 65536) (right : y.toNat < 65536) : (difference x y).1.toNat < 65536 := by
  have size := difference_toNat x y
  split at size <;> omega

theorem signed_mid (x y x' y' : BitVec 32) :
    signed (BitVec.ofNat 64 ((difference x y).1.toNat * (difference x' y').1.toNat * 65536),(difference x y).2 ^^ (difference x' y').2) =
      ((((x.toNat : Int) - y.toNat) * (x'.toNat - y'.toNat) * 65536 : Int) : BitVec 64) := by
  have first := difference_toNat x y
  have second := difference_toNat x' y'
  have cast (n : Nat) : BitVec.ofNat 64 n = ((n : Int) : BitVec 64) := by rw [Int.cast_natCast,BitVec.natCast_eq_ofNat]
  rw [cast,cast_mul,cast_mul,first,second]
  unfold signed
  generalize (difference x y).2 = s
  generalize (difference x' y').2 = t
  cases s <;> cases t <;>
    simp only [Bool.xor_false,Bool.xor_true,Bool.not_true,Bool.not_false,Bool.false_eq_true,if_true,if_false,← Int.cast_neg] <;>
    congr 1 <;>
    push_cast <;>
    ring

theorem lmulq_spec (u v : BitVec 32) : lmulq u v = BitVec.ofNat 64 (u.toNat * v.toNat) := by
  have u1 : (hhalf u).toNat < 65536 := by
    rw [hhalf_toNat]
    omega
  have u0 : (lhalf u).toNat < 65536 := by
    rw [lhalf_toNat]
    omega
  have v1 : (hhalf v).toNat < 65536 := by
    rw [hhalf_toNat]
    omega
  have v0 : (lhalf v).toNat < 65536 := by
    rw [lhalf_toNat]
    omega
  have left : u.toNat = (hhalf u).toNat * 65536 + (lhalf u).toNat := by
    rw [hhalf_toNat,lhalf_toNat]
    omega
  have right : v.toNat = (hhalf v).toNat * 65536 + (lhalf v).toNat := by
    rw [hhalf_toNat,lhalf_toNat]
    omega
  have low := product_toNat u0 v0
  unfold lmulq
  dsimp only
  split
  · next small =>
    obtain ⟨zero,zero'⟩ := small
    rw [left,right,zero,zero']
    apply BitVec.eq_of_toNat_eq
    rw [BitVec.toNat_setWidth,low,BitVec.toNat_ofNat]
    simp
  have high := product_toNat u1 v1
  have mid := product_toNat (difference_half u1 u0) (difference_half v0 v1)
  have cast (n : Nat) : BitVec.ofNat 64 n = ((n : Int) : BitVec 64) := by rw [Int.cast_natCast,BitVec.natCast_eq_ofNat]
  rw [lmulqSum_eq,high,low,mid,signed_mid,cast,cast,cast,cast,cast,← Int.cast_add,← Int.cast_add,← Int.cast_add,← Int.cast_add,
    left,right]
  congr 1
  push_cast
  ring

theorem lmulq_toNat (u v : BitVec 32) : (lmulq u v).toNat = u.toNat * v.toNat := by
  have fits : u.toNat * v.toNat < 4294967296 * 4294967296 := mul_lt_mul'' u.isLt v.isLt
  rw [lmulq_spec,BitVec.toNat_ofNat,mod_eq_of_lt fits]

theorem quad_mul (u1 u0 v1 v0 : BitVec 32) :
    quad (u1 * v0 + u0 * v1 + ulH (lmulq u0 v0)) (ulL (lmulq u0 v0)) = quad u1 u0 * quad v1 v0 := by
  have low : (ulH (lmulq u0 v0)).toNat * 4294967296 + (ulL (lmulq u0 v0)).toNat = u0.toNat * v0.toNat := by
    rw [← quad_toNat,quad_parts,lmulq_toNat]
  have upper : u1 * v0 + u0 * v1 + ulH (lmulq u0 v0) =
      BitVec.ofNat 32 (u1.toNat * v0.toNat + u0.toNat * v1.toNat + (ulH (lmulq u0 v0)).toNat) := by
    rw [BitVec.ofNat_add,BitVec.ofNat_add,BitVec.ofNat_mul,BitVec.ofNat_mul]
    simp
  have whole : quad (u1 * v0 + u0 * v1 + ulH (lmulq u0 v0)) (ulL (lmulq u0 v0)) =
      BitVec.ofNat 64 ((u1.toNat * v0.toNat + u0.toNat * v1.toNat) * 4294967296 + u0.toNat * v0.toNat) := by
    rw [upper,← low,← add_assoc,← add_mul]
    exact append_ofNat _ _
  have parts (h l : BitVec 32) : quad h l = BitVec.ofNat 64 (h.toNat * 4294967296 + l.toNat) := append_eq h l
  have past (n m : Nat) : BitVec.ofNat 64 (n + m * 18446744073709551616) = BitVec.ofNat 64 n := by
    apply BitVec.eq_of_toNat_eq
    rw [BitVec.toNat_ofNat,BitVec.toNat_ofNat]
    exact add_mul_mod_self_right n m _
  have numbers : (u1.toNat * v0.toNat + u0.toNat * v1.toNat) * 4294967296 + u0.toNat * v0.toNat + u1.toNat * v1.toNat * 18446744073709551616 =
      (u1.toNat * 4294967296 + u0.toNat) * (v1.toNat * 4294967296 + v0.toNat) := by ring
  rw [whole,parts u1,parts v1,← BitVec.ofNat_mul,← past _ (u1.toNat * v1.toNat),numbers]

theorem inner_eq (u1 u0 v1 v0 : BitVec 32) : (if u1 = 0 ∧ v1 = 0 then lmulq u0 v0
    else quad (u1 * v1 + (if (difference u1 u0).2 ^^ (difference v0 v1).2 then -((difference u1 u0).1 * (difference v0 v1).1)
      else (difference u1 u0).1 * (difference v0 v1).1) + ulL (lmulq u0 v0) + ulH (lmulq u0 v0)) (ulL (lmulq u0 v0))) =
    quad u1 u0 * quad v1 v0 := by
  split
  · next small =>
    obtain ⟨rfl,rfl⟩ := small
    rw [← quad_mul,zero_mul,mul_zero,zero_add,zero_add,quad_parts]
  have mid := signed_mul (difference u1 u0) (difference v0 v1)
  rw [signed_difference,signed_difference] at mid
  have low : ulL (lmulq u0 v0) = u0 * v0 := by
    apply BitVec.eq_of_toNat_eq
    rw [ulL_toNat,lmulq_toNat,BitVec.toNat_mul]
  have upper : u1 * v1 + (u1 - u0) * (v0 - v1) + ulL (lmulq u0 v0) + ulH (lmulq u0 v0) = u1 * v0 + u0 * v1 + ulH (lmulq u0 v0) := by
    rw [low]
    ring
  unfold signed at mid
  rw [mid,upper,quad_mul]

theorem muldi3_spec (a b : BitVec 64) : muldi3 a b = a * b := by
  have product := inner_eq (ulH (magnitude a).1) (ulL (magnitude a).1) (ulH (magnitude b).1) (ulL (magnitude b).1)
  have sign := signed_mul (magnitude a) (magnitude b)
  rw [quad_parts,quad_parts] at product
  rw [signed_magnitude,signed_magnitude,← product] at sign
  exact sign

-- Both as signed numbers modulo 2^64, -2^63 included.
theorem multiplication (u v : BitVec 32) (a b : BitVec 64) :
    (lmulq u v).toNat = u.toNat * v.toNat ∧ muldi3 a b = BitVec.ofInt 64 (a.toInt * b.toInt) := by
  refine ⟨lmulq_toNat u v,?_⟩
  rw [muldi3_spec,BitVec.ofInt_mul,BitVec.ofInt_toInt,BitVec.ofInt_toInt]
end NetbsdAvr32.Quad
