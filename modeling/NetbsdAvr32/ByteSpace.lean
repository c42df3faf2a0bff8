import Mathlib.Tactic.Ring

-- A byte-addressed memory whose addresses wrap, with big-endian units of n
-- bytes, and the loops that walk over it.
namespace NetbsdAvr32.ByteSpace
open Nat

abbrev Byte := BitVec 8
abbrev Space (w : Nat) := BitVec w → Byte

variable {w n c i j k p q : Nat} {a b x : BitVec w} {m m' : Space w} {v : Nat}

def place (a : BitVec w) (k : Nat) : BitVec w := a + BitVec.ofNat w k
@[simp] theorem place_zero (a : BitVec w) : place a 0 = a := BitVec.add_zero a

theorem place_place (a : BitVec w) (j k : Nat) : place (place a j) k = place a (j + k) := by
  unfold place
  rw [BitVec.ofNat_add,BitVec.add_assoc]

theorem place_unit (a : BitVec w) (n i k : Nat) : place (place a n) (n * i + k) = place a (n * (i + 1) + k) := by
  rw [place_place,← add_assoc,add_comm n,← mul_succ]

theorem place_inj (high : p < 2 ^ w) (top : q < 2 ^ w) (same : place a p = place a q) : p = q := by
  have value := congrArg BitVec.toNat (BitVec.add_right_inj a |>.mp same)
  rwa [BitVec.toNat_ofNat,BitVec.toNat_ofNat,mod_eq_of_lt high,mod_eq_of_lt top] at value

theorem place_sub (a x : BitVec w) : place a (x - a).toNat = x := by
  unfold place
  rw [BitVec.ofNat_toNat,BitVec.setWidth_eq,BitVec.add_comm,BitVec.sub_add_cancel]

theorem sub_place (high : k < 2 ^ w) : (place a k - a).toNat = k := by
  have gap : place a k - a = BitVec.ofNat w k := by
    unfold place
    rw [BitVec.add_comm,BitVec.add_sub_cancel]
  rw [gap,BitVec.toNat_ofNat,mod_eq_of_lt high]

-- Byte k of a value of n bytes, the most significant one first.
def digit (n v k : Nat) : Byte := BitVec.ofNat 8 (v / 256 ^ (n - 1 - k))

def load (m : Space w) : Nat → BitVec w → Nat
  | 0,_ => 0
  | n+1,a => (m a).toNat * 256 ^ n + load m n (place a 1)

def store (n : Nat) (a : BitVec w) (v : Nat) (m : Space w) : Space w :=
  fun x => if (x - a).toNat < n then digit n v (x - a).toNat else m x

theorem load_lt (m : Space w) (n : Nat) (a : BitVec w) : load m n a < 256 ^ n := by
  induction n generalizing a with
  | zero => exact one_pos
  | succ n ih =>
    have byte : (m a).toNat ≤ 255 := le_of_lt_succ (m a).isLt
    have rest := ih (place a 1)
    have top : (m a).toNat * 256 ^ n ≤ 255 * 256 ^ n := mul_le_mul_right _ byte
    show (m a).toNat * 256 ^ n + load m n (place a 1) < _
    omega

theorem digit_cons (d r : Nat) (low : k < n) : digit (n + 1) (d * 256 ^ n + r) (k + 1) = digit n r k := by
  have size : n = (n - 1 - k) + 1 + k := by omega
  have split : d * 256 ^ n = 256 ^ (n - 1 - k) * (d * 256 ^ k * 256) := by
    conv => lhs; rw [size]
    ring
  have power : n + 1 - 1 - (k + 1) = n - 1 - k := by omega
  unfold digit
  rw [power,split,Nat.mul_add_div (Nat.pow_pos (by decide)),BitVec.ofNat_add,BitVec.ofNat_mul _ 256]
  show _ * 0#8 + _ = _
  rw [BitVec.mul_zero,BitVec.zero_add]

theorem digit_head (d r : Nat) (high : d < 256) (small : r < 256 ^ n) : digit (n + 1) (d * 256 ^ n + r) 0 = BitVec.ofNat 8 d := by
  unfold digit
  rw [Nat.add_sub_cancel,Nat.sub_zero,Nat.mul_comm,Nat.mul_add_div (Nat.pow_pos (by decide)),Nat.div_eq_of_lt small,Nat.add_zero]

theorem digit_load (low : k < n) : digit n (load m n a) k = m (place a k) := by
  induction n generalizing a k with
  | zero => cases low
  | succ n ih =>
    show digit (n + 1) ((m a).toNat * 256 ^ n + load m n (place a 1)) k = _
    cases k with
    | zero =>
      rw [digit_head _ _ (m a).isLt (load_lt m n _),BitVec.ofNat_toNat,BitVec.setWidth_eq,place_zero]
    | succ k =>
      rw [digit_cons _ _ (lt_of_succ_lt_succ low),ih (lt_of_succ_lt_succ low),place_place,add_comm 1 k]

theorem load_congr (same : ∀ k < n, m (place a k) = m' (place b k)) : load m n a = load m' n b := by
  induction n generalizing a b with
  | zero => rfl
  | succ n ih =>
    have first := same 0 (succ_pos n)
    rw [place_zero,place_zero] at first
    have rest : load m n (place a 1) = load m' n (place b 1) := ih fun k low => by
      rw [place_place,place_place,add_comm 1 k]
      exact same (k + 1) (succ_lt_succ low)
    show (m a).toNat * 256 ^ n + _ = (m' b).toNat * 256 ^ n + _
    rw [first,rest]

theorem store_inside (low : k < n) (fits : n ≤ 2 ^ w) : store n a v m (place a k) = digit n v k := by
  have gap : (place a k - a).toNat = k := sub_place (lt_of_lt_of_le low fits)
  unfold store
  rw [gap,if_pos low]

theorem store_outside (apart : ∀ k < n, x ≠ place a k) : store n a v m x = m x :=
  if_neg fun low => apart _ low (place_sub a x).symm

theorem load_digits (small : v < 256 ^ n) (bytes : ∀ k < n, m (place a k) = digit n v k) : load m n a = v := by
  induction n generalizing a v with
  | zero => exact (lt_one_iff.mp small).symm
  | succ n ih =>
    have whole : v = v / 256 ^ n * 256 ^ n + v % 256 ^ n := (div_add_mod' v (256 ^ n)).symm
    have high : v / 256 ^ n < 256 := Nat.div_lt_of_lt_mul (by rwa [Nat.pow_succ] at small)
    have low : v % 256 ^ n < 256 ^ n := Nat.mod_lt _ (Nat.pow_pos (by decide))
    have first := bytes 0 (succ_pos n)
    rw [whole,digit_head _ _ high low,place_zero] at first
    have rest : load m n (place a 1) = v % 256 ^ n := ih low fun k le => by
      rw [place_place,add_comm 1 k,bytes (k + 1) (succ_lt_succ le)]
      conv => lhs; rw [whole]
      exact digit_cons _ _ le
    show (m a).toNat * 256 ^ n + load m n (place a 1) = v
    rw [first,rest,BitVec.toNat_ofNat,mod_eq_of_lt high]
    exact whole.symm

theorem load_store (small : v < 256 ^ n) (fits : n ≤ 2 ^ w) : load (store n a v m) n a = v :=
  load_digits small fun _ low => store_inside low fits

def fill (n stride : Nat) : Nat → (Nat → Nat) → BitVec w → Space w → Space w
  | 0,_,_,m => m
  | c+1,val,a,m => fill n stride c (fun i => val (i + 1)) (place a stride) (store n a (val 0) m)

def moveUp (n : Nat) : Nat → BitVec w → BitVec w → Space w → Space w
  | 0,_,_,m => m
  | c+1,a,b,m => moveUp n c (place a n) (place b n) (store n b (load m n a) m)

def moveDown (n : Nat) (a b : BitVec w) : Nat → Space w → Space w
  | 0,m => m
  | c+1,m => moveDown n a b c (store n (place b (n * c)) (load m n (place a (n * c))) m)

def scan (m : Space w) : Nat → BitVec w → Option Nat
  | 0,_ => none
  | n+1,a => if m a = 0 then some 0 else (scan m n (place a 1)).map (· + 1)

def span (m : Space w) (n : Nat) (a : BitVec w) : Nat := ((scan m n a).map (· + 1)).getD n

variable {stride : Nat} {val : Nat → Nat}

theorem fill_outside (apart : ∀ i < c, ∀ k < n, x ≠ place a (stride * i + k)) : fill n stride c val a m x = m x := by
  induction c generalizing val a m with
  | zero => rfl
  | succ c ih =>
    refine (ih fun i low k le => ?_).trans (store_outside fun k le => ?_)
    · rw [place_unit]
      exact apart (i + 1) (succ_lt_succ low) k le
    have := apart 0 (succ_pos c) k le
    rwa [mul_zero,zero_add] at this

theorem fill_touched (fits : n ≤ 2 ^ w) (low : i < c) (le : k < n) :
    ∃ j < c, ∃ q < n, fill n stride c val a m (place a (stride * i + k)) = digit n (val j) q := by
  induction c generalizing val a m i k with
  | zero => cases low
  | succ c ih =>
    by_cases later : ∃ j < c, ∃ q < n, place a (stride * i + k) = place (place a stride) (stride * j + q)
    · obtain ⟨j,lower,q,less,same⟩ := later
      have inner : ∃ j' < c, ∃ q' < n, fill n stride c (fun i => val (i + 1)) (place a stride) (store n a (val 0) m)
          (place (place a stride) (stride * j + q)) = digit n (val (j' + 1)) q' := ih lower less
      obtain ⟨j',lower',q',less',found⟩ := inner
      refine ⟨j' + 1,succ_lt_succ lower',q',less',?_⟩
      show fill n stride c _ (place a stride) _ _ = _
      rw [same,found]
    have kept : fill n stride (c + 1) val a m (place a (stride * i + k)) = store n a (val 0) m (place a (stride * i + k)) :=
      fill_outside fun j lower q less same => later ⟨j,lower,q,less,same⟩
    cases i with
    | zero =>
      refine ⟨0,succ_pos c,k,le,?_⟩
      rw [kept,mul_zero,zero_add,store_inside le fits]
    | succ i =>
      refine absurd ⟨i,lt_of_succ_lt_succ low,k,le,?_⟩ later
      rw [place_unit]

theorem fill_unit (fits : n * c ≤ 2 ^ w) (low : i < c) (le : k < n) : fill n n c val a m (place a (n * i + k)) = digit n (val i) k := by
  induction c generalizing val a m i with
  | zero => cases low
  | succ c ih =>
    rw [mul_succ] at fits
    cases i with
    | succ i =>
      rw [← place_unit]
      exact ih (by omega) (lt_of_succ_lt_succ low)
    | zero =>
      have kept : fill n n (c + 1) val a m (place a (n * 0 + k)) = store n a (val 0) m (place a (n * 0 + k)) := by
        show fill n n c (fun i => val (i + 1)) (place a n) (store n a (val 0) m) _ = _
        refine fill_outside fun j lower q less same => ?_
        have above : n * j + n ≤ n * c := by
          exact mul_le_mul_left n lower
        rw [place_place] at same
        have := place_inj (by omega) (by omega) same
        omega
      rw [kept,mul_zero,zero_add,store_inside le (by omega)]

theorem moveUp_outside (apart : ∀ i < c, ∀ k < n, x ≠ place b (n * i + k)) : moveUp n c a b m x = m x := by
  induction c generalizing a b m with
  | zero => rfl
  | succ c ih =>
    refine (ih fun i low k le => ?_).trans (store_outside fun k le => ?_)
    · rw [place_unit]
      exact apart (i + 1) (succ_lt_succ low) k le
    have := apart 0 (succ_pos c) k le
    rwa [mul_zero,zero_add] at this

theorem moveUp_byte (fits : n * c ≤ 2 ^ w) (low : j < c) (le : k < n)
    (clear : ∀ l < j, ∀ q < n, place a (n * j + k) ≠ place b (n * l + q)) :
    moveUp n c a b m (place b (n * j + k)) = m (place a (n * j + k)) := by
  induction c generalizing a b m j with
  | zero => cases low
  | succ c ih =>
    rw [mul_succ] at fits
    show moveUp n c (place a n) (place b n) (store n b (load m n a) m) _ = _
    cases j with
    | succ j =>
      have rest : moveUp n c (place a n) (place b n) (store n b (load m n a) m) (place (place b n) (n * j + k)) =
          store n b (load m n a) m (place (place a n) (n * j + k)) := by
        refine ih (by omega) (lt_of_succ_lt_succ low) fun l lower q less => ?_
        rw [place_unit,place_unit]
        exact clear (l + 1) (succ_lt_succ lower) q less
      rw [place_unit,place_unit] at rest
      rw [rest]
      refine store_outside fun q less => ?_
      have := clear 0 (succ_pos j) q less
      rwa [mul_zero,zero_add] at this
    | zero =>
      rw [moveUp_outside fun i lower q less same => ?_,mul_zero,zero_add,store_inside le (by omega),digit_load le]
      have above : n * i + n ≤ n * c := by
        exact mul_le_mul_left n lower
      rw [place_unit,mul_succ] at same
      have := place_inj (by omega) (by omega) same
      omega

theorem moveDown_outside (apart : ∀ i < c, ∀ k < n, x ≠ place b (n * i + k)) : moveDown n a b c m x = m x := by
  induction c generalizing m with
  | zero => rfl
  | succ c ih =>
    refine (ih fun i low => apart i (lt_succ_of_lt low)).trans (store_outside fun k le => ?_)
    rw [place_place]
    exact apart c (lt_succ_self c) k le

theorem moveDown_byte (fits : n * c ≤ 2 ^ w) (low : j < c) (le : k < n)
    (clear : ∀ l < c, j < l → ∀ q < n, place a (n * j + k) ≠ place b (n * l + q)) :
    moveDown n a b c m (place b (n * j + k)) = m (place a (n * j + k)) := by
  induction c generalizing m with
  | zero => cases low
  | succ c ih =>
    rw [mul_succ] at fits
    show moveDown n a b c (store n (place b (n * c)) (load m n (place a (n * c))) m) _ = _
    rcases lt_or_ge j c with lower | top
    · rw [ih (by omega) lower fun l less => clear l (lt_succ_of_lt less)]
      refine store_outside fun q less => ?_
      rw [place_place]
      exact clear c (lt_succ_self c) lower q less
    have last : j = c := by omega
    subst last
    rw [moveDown_outside fun i lower q less same => ?_,← place_place,store_inside le (by omega),digit_load le,place_place]
    have below : n * i + n ≤ n * j := by
      exact mul_le_mul_left n lower
    have := place_inj (by omega) (by omega) same
    omega

theorem scan_lt (found : scan m n a = some i) : i < n := by
  induction n generalizing a i with
  | zero => cases found
  | succ n ih =>
    unfold scan at found
    split_ifs at found with zero
    · obtain rfl := Option.some.inj found
      exact succ_pos n
    obtain ⟨j,later,rfl⟩ := Option.map_eq_some_iff.mp found
    exact succ_lt_succ (ih later)

theorem span_le (m : Space w) (n : Nat) (a : BitVec w) : span m n a ≤ n := by
  unfold span
  cases found : scan m n a with
  | none => exact le_refl n
  | some i => exact scan_lt found

theorem span_zero (zero : m a = 0) : span m (n + 1) a = 1 := by
  unfold span scan
  rw [if_pos zero]
  rfl

theorem span_succ (other : m a ≠ 0) : span m (n + 1) a = span m n (place a 1) + 1 := by
  unfold span
  conv => lhs; unfold scan
  rw [if_neg other]
  cases scan m n (place a 1) <;> rfl

theorem scan_congr (same : ∀ i < span m n a, m (place a i) = m' (place a i)) : scan m n a = scan m' n a := by
  induction n generalizing a with
  | zero => rfl
  | succ n ih =>
    have some_ : 0 < span m (n + 1) a := by
      by_cases zero : m a = 0
      · rw [span_zero zero]
        exact one_pos
      rw [span_succ zero]
      exact succ_pos _
    have first := same 0 some_
    rw [place_zero] at first
    unfold scan
    rw [← first]
    split_ifs with zero
    · rfl
    rw [ih fun i low => ?_]
    rw [place_place,add_comm 1 i]
    exact same (i + 1) (by rw [span_succ zero]; omega)
end NetbsdAvr32.ByteSpace
