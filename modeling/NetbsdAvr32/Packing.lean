import Mathlib.Algebra.BigOperators.Group.Finset.Basic
import Mathlib.Order.Interval.Finset.Nat

-- Segments that lie one behind the other and leave no gap.
namespace NetbsdAvr32.Packing
open Finset Function Nat
variable {ι : Type} [DecidableEq ι] {live live' : ι → Prop} {base base' len : ι → Nat} {total : Nat} {i k : ι} {j : Nat}

structure Packed (live : ι → Prop) (base len : ι → Nat) (total : Nat) : Prop where
  pos : ∀ i,live i → 0 < len i
  within : ∀ i,live i → base i + len i ≤ total
  cover : ∀ j < total,∃ i,live i ∧ base i ≤ j ∧ j < base i + len i
  apart : ∀ i k,live i → live k → i ≠ k → base i + len i ≤ base k ∨ base k + len k ≤ base i

section
variable (packed : Packed live base len total)
include packed

theorem Packed.unique (here : live i ∧ base i ≤ j ∧ j < base i + len i) (there : live k ∧ base k ≤ j ∧ j < base k + len k) :
    i = k := by
  by_contra ne
  have := packed.apart i k here.1 there.1 ne
  omega

theorem Packed.congr {len' : ι → Nat} (same : ∀ i,live' i ↔ live i) (equal : ∀ i,live i → base' i = base i ∧ len' i = len i) :
    Packed live' base' len' total := by
  refine ⟨fun i used => ?_,fun i used => ?_,fun j low => ?_,fun i k used used' ne => ?_⟩
  · rw [(equal i ((same i).mp used)).2]
    exact packed.pos i ((same i).mp used)
  · rw [(equal i ((same i).mp used)).1,(equal i ((same i).mp used)).2]
    exact packed.within i ((same i).mp used)
  · obtain ⟨i,used,inside⟩ := packed.cover j low
    refine ⟨i,(same i).mpr used,?_⟩
    rw [(equal i used).1,(equal i used).2]
    exact inside
  rw [(equal i ((same i).mp used)).1,(equal i ((same i).mp used)).2,(equal k ((same k).mp used')).1,(equal k ((same k).mp used')).2]
  exact packed.apart i k ((same i).mp used) ((same k).mp used') ne

theorem Packed.push (fresh : ¬live i) {n : Nat} (some_ : 0 < n) :
    Packed (fun k => k = i ∨ live k) (update base i total) (update len i n) (total + n) := by
  have other (k : ι) (used : live k) : k ≠ i := by
    rintro rfl
    exact fresh used
  have old (k : ι) (used : live k) : update base i total k = base k ∧ update len i n k = len k :=
    ⟨update_of_ne (other k used) ..,update_of_ne (other k used) ..⟩
  have new : update base i total i = total ∧ update len i n i = n := ⟨update_self ..,update_self ..⟩
  refine ⟨fun k used => ?_,fun k used => ?_,fun j low => ?_,fun k m used used' ne => ?_⟩
  · rcases used with rfl | used
    · rw [new.2]
      exact some_
    rw [(old k used).2]
    exact packed.pos k used
  · rcases used with rfl | used
    · rw [new.1,new.2]
    rw [(old k used).1,(old k used).2]
    exact le_trans (packed.within k used) (Nat.le_add_right ..)
  · rcases lt_or_ge j total with before | behind
    · obtain ⟨k,used,inside⟩ := packed.cover j before
      refine ⟨k,.inr used,?_⟩
      rw [(old k used).1,(old k used).2]
      exact inside
    refine ⟨i,.inl rfl,?_⟩
    rw [new.1,new.2]
    exact ⟨behind,low⟩
  rcases used with rfl | used
  · have used' := used'.resolve_left (Ne.symm ne)
    rw [new.1,(old m used').1,(old m used').2]
    exact .inr (packed.within m used')
  rcases used' with rfl | used'
  · rw [new.1,(old k used).1,(old k used).2]
    exact .inl (packed.within k used)
  rw [(old k used).1,(old k used).2,(old m used').1,(old m used').2]
  exact packed.apart k m used used' ne

theorem Packed.behind (gone : live i) (used : live k) (ne : k ≠ i) :
    base k + len k ≤ base i ∨ base i + len i ≤ base k ∧ base i < base k := by
  have := packed.apart k i used gone ne
  have := packed.pos i gone
  omega

theorem Packed.pull (gone : live i) (base' : ι → Nat)
    (moved : ∀ k,live k → k ≠ i → base' k = if base i < base k then base k - len i else base k) :
    Packed (fun k => k ≠ i ∧ live k) base' len (total - len i) := by
  have within := packed.within i gone
  refine ⟨fun k used => packed.pos k used.2,fun k used => ?_,fun j low => ?_,fun k m used used' ne => ?_⟩
  · have place := packed.behind gone used.2 used.1
    have := packed.within k used.2
    rw [moved k used.2 used.1]
    split <;> omega
  · rcases lt_or_ge j (base i) with before | behind
    · obtain ⟨k,used,inside⟩ := packed.cover j (by omega)
      have ne : k ≠ i := by
        rintro rfl
        omega
      refine ⟨k,⟨ne,used⟩,?_⟩
      rw [moved k used ne,if_neg (by omega)]
      exact inside
    obtain ⟨k,used,inside⟩ := packed.cover (j + len i) (by omega)
    have ne : k ≠ i := by
      rintro rfl
      omega
    have place := packed.behind gone used ne
    refine ⟨k,⟨ne,used⟩,?_⟩
    rw [moved k used ne,if_pos (by omega)]
    omega
  have := packed.apart k m used.2 used'.2 ne
  have := packed.behind gone used.2 used.1
  have := packed.behind gone used'.2 used'.1
  rw [moved k used.2 used.1,moved m used'.2 used'.1]
  split <;> split <;> omega

theorem Packed.sum (s : Finset ι) (all : ∀ i,i ∈ s ↔ live i) : ∑ i ∈ s,len i = total := by
  have cover : s.biUnion (fun i => Finset.Ico (base i) (base i + len i)) = range total := by
    ext j
    rw [mem_biUnion,mem_range]
    constructor
    · rintro ⟨i,mem,inside⟩
      have := packed.within i ((all i).mp mem)
      have := (mem_Ico.mp inside).2
      omega
    intro low
    obtain ⟨i,used,inside⟩ := packed.cover j low
    exact ⟨i,(all i).mpr used,mem_Ico.mpr inside⟩
  have disjoint : (s : Set ι).PairwiseDisjoint fun i => Finset.Ico (base i) (base i + len i) := by
    intro i mem k mem' ne
    refine disjoint_left.mpr fun j here there => ne ?_
    exact packed.unique ⟨(all i).mp mem,mem_Ico.mp here⟩ ⟨(all k).mp mem',mem_Ico.mp there⟩
  have count := congrArg card cover
  rw [card_biUnion disjoint,card_range] at count
  rw [← count]
  refine sum_congr rfl fun i _ => ?_
  rw [Nat.card_Ico,Nat.add_sub_cancel_left]
end

-- Where the segments of the indices below m begin when they are laid out anew.
def layout (live : Nat → Bool) (len : Nat → Nat) : Nat → Nat
  | 0 => 0
  | m + 1 => layout live len m + if live m then len m else 0

variable {used : Nat → Bool} {size : Nat → Nat} {m n : Nat}

theorem layout_le (le : m ≤ n) : layout used size m ≤ layout used size n := by
  induction n with
  | zero => exact le_of_eq (congrArg _ (le_zero.mp le))
  | succ n ih =>
    rcases lt_or_ge n m with high | low
    · exact le_of_eq (congrArg _ (by omega))
    · exact le_trans (ih low) (Nat.le_add_right ..)

theorem layout_next (live : used m = true) (less : m < n) : layout used size m + size m ≤ layout used size n := by
  have step : layout used size (m + 1) = layout used size m + size m := by rw [layout,if_pos live]
  rw [← step]
  exact layout_le less

theorem layout_packed (bound : ∀ i,used i = true → i < n) (pos : ∀ i,used i = true → 0 < size i) :
    Packed (fun i => used i = true) (layout used size) size (layout used size n) := by
  refine ⟨pos,fun i live => layout_next live (bound i live),fun j low => ?_,fun i k live live' ne => ?_⟩
  · clear bound
    induction n with
    | zero => exact absurd low (not_lt_zero j)
    | succ n ih =>
      rcases lt_or_ge j (layout used size n) with before | behind
      · exact ih before
      rw [layout] at low
      split at low
      · next live => exact ⟨n,live,behind,low⟩
      · omega
  rcases lt_or_gt_of_ne ne with less | more
  · exact .inl (layout_next live less)
  · exact .inr (layout_next live' more)

theorem layout_sum (used : Nat → Bool) (size : Nat → Nat) (n : Nat) : layout used size n = ∑ i ∈ (range n).filter fun i => used i = true,size i := by
  induction n with
  | zero => rfl
  | succ n ih =>
    rw [layout,ih,range_add_one,filter_insert]
    split
    · rw [sum_insert (by simp),add_comm]
    · rw [add_zero]
end NetbsdAvr32.Packing
