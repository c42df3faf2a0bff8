import Mathlib.Algebra.GroupWithZero.Nat
import Mathlib.Algebra.Ring.Int.Defs
import Mathlib.Tactic.Common

-- Binary search by a three-way comparison: `probe i` compares the key sought
-- with element i, and `n` elements are in ascending order.
namespace NetbsdAvr32.Bisect

structure Ascending (probe : Nat → Int) (n : Nat) : Prop where
  below : ∀ i j, i < j → j < n → 0 ≤ probe j → 0 < probe i
  above : ∀ i j, i < j → j < n → probe i ≤ 0 → probe j < 0

structure Window (probe : Nat → Int) (n base distance : Nat) : Prop where
  inside : base + distance ≤ n
  below : ∀ i < base, 0 < probe i
  above : ∀ i, base + distance ≤ i → i < n → probe i < 0

variable {probe : Nat → Int} {n base distance idx : Nat}

theorem window_whole (probe : Nat → Int) (n : Nat) : Window probe n 0 n where
  inside := by omega
  below := by omega
  above := by omega

namespace Window

theorem middle (window : Window probe n base distance) (more : distance ≠ 0) : base + distance / 2 < n := by
  have := window.inside
  omega

theorem right (sorted : Ascending probe n) (window : Window probe n base distance) (more : distance ≠ 0)
    (greater : 0 < probe (base + distance / 2)) :
    Window probe n (base + distance / 2 + 1) ((distance - 1) / 2) where
  inside := by
    have := window.inside
    omega
  below i lt := by
    rcases Nat.lt_or_eq_of_le (Nat.le_of_lt_succ lt) with before | rfl
    · exact sorted.below i _ before (window.middle more) (Int.le_of_lt greater)
    · exact greater
  above i le lt := window.above i (by omega) lt

theorem left (sorted : Ascending probe n) (window : Window probe n base distance) (more : distance ≠ 0)
    (less : probe (base + distance / 2) < 0) : Window probe n base (distance / 2) where
  inside := by
    have := window.inside
    omega
  below := window.below
  above i le lt := by
    rcases Nat.lt_or_eq_of_le le with after | rfl
    · exact sorted.above _ i after lt (Int.le_of_lt less)
    · exact less
end Window

def Borders (n base distance idx : Nat) : Prop := idx + 1 = base ∨ idx = base + distance ∧ idx < n

structure Missed (probe : Nat → Int) (n idx : Nat) : Prop where
  looked : idx < n
  less : probe idx < 0 → ∀ i < idx, 0 < probe i
  greater : ¬probe idx < 0 → 0 < probe idx ∧ ∀ i, idx < i → i < n → probe i < 0

theorem missed_closed (sorted : Ascending probe n) (window : Window probe n base 0) (borders : Borders n base 0 idx) :
    Missed probe n idx := by
  have inside := window.inside
  rcases borders with after | ⟨same,lt⟩
  · have positive := window.below idx (by omega)
    refine ⟨by omega,fun less => ?_,fun _ => ⟨positive,fun i gt lt => window.above i (by omega) lt⟩⟩
    omega
  have negative := window.above idx (by omega) lt
  exact ⟨lt,fun _ i before => window.below i (by omega),fun no => (no negative).elim⟩
end NetbsdAvr32.Bisect
