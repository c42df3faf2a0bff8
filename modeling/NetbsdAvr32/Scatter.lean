import Mathlib.Data.List.Basic

-- Texts that are scattered over cells of one size in a pool.
namespace NetbsdAvr32.Scatter
open List Nat
variable {α : Type} {size p q n : Nat} {pool pool' : Nat → α} {cells done todo : List Nat} {text bytes : List α}

def poke (pool : Nat → α) (start : Nat) (bytes : List α) (k : Nat) : α :=
  if start ≤ k then bytes.getD (k - start) (pool k) else pool k

def slice (size : Nat) (pool : Nat → α) (p : Nat) : List α := (List.range size).map fun i => pool (p * size + i)
def gather (size : Nat) (pool : Nat → α) (cells : List Nat) : List α := cells.flatMap (slice size pool)
@[simp] theorem slice_length : (slice size pool p).length = size := by simp [slice]
@[simp] theorem gather_nil : gather size pool [] = [] := rfl

theorem gather_append (size : Nat) (pool : Nat → α) (done todo : List Nat) : gather size pool (done ++ todo) = gather size pool done ++ gather size pool todo :=
  flatMap_append

theorem gather_cons (size : Nat) (pool : Nat → α) (p : Nat) (todo : List Nat) : gather size pool (p :: todo) = slice size pool p ++ gather size pool todo := flatMap_cons

theorem gather_length (size : Nat) (pool : Nat → α) (cells : List Nat) : (gather size pool cells).length = cells.length * size := by
  induction cells with
  | nil => simp
  | cons p cells ih => rw [gather_cons,length_append,slice_length,ih,length_cons,Nat.succ_mul,Nat.add_comm]

theorem gather_congr (same : ∀ p ∈ cells,slice size pool' p = slice size pool p) : gather size pool' cells = gather size pool cells := flatMap_congr same

theorem slice_take (size : Nat) (pool : Nat → α) (p n : Nat) : (slice size pool p).take n = (range (min size n)).map fun i => pool (p * size + i) := by
  unfold slice
  rw [← map_take,take_range,Nat.min_comm]

theorem slice_poke (fits : bytes.length ≤ size) : (slice size (poke pool (p * size) bytes) p).take bytes.length = bytes := by
  rw [slice_take,Nat.min_eq_right fits]
  refine ext_getElem (by simp) fun i low high => ?_
  have inside : i < bytes.length := high
  simp [poke,inside]

theorem slice_poke_else (fits : bytes.length ≤ size) (ne : q ≠ p) : slice size (poke pool (p * size) bytes) q = slice size pool q := by
  refine map_congr_left fun i mem => ?_
  have low : i < size := mem_range.mp mem
  unfold poke
  split
  · next after =>
    rcases Nat.lt_or_gt_of_ne ne with less | more
    · have : (q + 1) * size ≤ p * size := mul_le_mul_right size less
      rw [succ_mul] at this
      omega
    have : (p + 1) * size ≤ q * size := mul_le_mul_right size more
    rw [succ_mul] at this
    rw [getD_eq_getElem?_getD,getElem?_eq_none (by omega),Option.getD_none]
  · rfl

def Filled (size : Nat) (pool : Nat → α) (done : List Nat) (text : List α) : Prop :=
  (gather size pool done).take text.length = text.take (done.length * size)

theorem Filled.nil : Filled size pool [] text := by simp [Filled]

section
variable (filled : Filled size pool done text)
include filled

theorem Filled.congr (same : ∀ p ∈ done,slice size pool' p = slice size pool p) : Filled size pool' done text := by
  unfold Filled
  rw [gather_congr same]
  exact filled

theorem Filled.step (off : p ∉ done) (more : done.length * size < text.length)
    (fresh : bytes = (text.drop (done.length * size)).take size) : Filled size (poke pool (p * size) bytes) (done ++ [p]) text := by
  have fits : bytes.length ≤ size := by
    rw [fresh,length_take]
    exact Nat.min_le_left ..
  have kept : gather size (poke pool (p * size) bytes) done = gather size pool done := by
    refine gather_congr fun q mem => slice_poke_else fits ?_
    rintro rfl
    exact off mem
  have length := gather_length size pool done
  have whole : gather size pool done = text.take (done.length * size) := by
    rw [← filled,take_of_length_le (by omega)]
  have size_ : bytes.length = min size (text.length - done.length * size) := by rw [fresh,length_take,length_drop]
  have here : (slice size (poke pool (p * size) bytes) p).take (text.length - done.length * size) = bytes := by
    rcases Nat.le_total size (text.length - done.length * size) with full | part
    · rw [take_of_length_le (by rw [slice_length]; exact full)]
      have all : (slice size (poke pool (p * size) bytes) p).take bytes.length = bytes := slice_poke fits
      rwa [size_,Nat.min_eq_left full,take_of_length_le (Nat.le_of_eq slice_length)] at all
    have all : (slice size (poke pool (p * size) bytes) p).take bytes.length = bytes := slice_poke fits
    rwa [size_,Nat.min_eq_right part] at all
  unfold Filled
  rw [gather_append,kept,gather_cons,gather_nil,append_nil,take_append,length,here,take_of_length_le (by omega),whole,fresh]
  rw [length_append,length_singleton,succ_mul]
  exact (take_add).symm

theorem Filled.whole (all : text.length ≤ done.length * size) : (gather size pool done).take text.length = text := by
  rw [filled,take_of_length_le all]
end

theorem take_gather :
    ((gather size pool (done ++ p :: todo)).take n).take (done.length * size + size) =
      ((gather size pool (done ++ p :: todo)).take n).take (done.length * size) ++ (slice size pool p).take (n - done.length * size) := by
  rw [take_take,take_take,gather_append,gather_cons]
  have length := gather_length size pool done
  rcases Nat.le_total n (done.length * size) with short | long
  · rw [Nat.min_eq_right (by omega),Nat.min_eq_right short,Nat.sub_eq_zero_of_le short,take_zero,append_nil]
  have first : (gather size pool done ++ (slice size pool p ++ gather size pool todo)).take (min (done.length * size) n) = gather size pool done := by
    rw [Nat.min_eq_left long]
    exact take_left' length
  rw [first,take_append,length,take_of_length_le (by omega),take_append,slice_length]
  have rest : min (done.length * size + size) n - done.length * size - size = 0 := by omega
  rw [rest,take_zero,append_nil]
  rcases Nat.le_total n (done.length * size + size) with last | more
  · rw [Nat.min_eq_right last]
  · rw [Nat.min_eq_left more,Nat.add_sub_cancel_left,take_of_length_le (Nat.le_of_eq slice_length),take_of_length_le (by rw [slice_length]; omega)]
end NetbsdAvr32.Scatter
