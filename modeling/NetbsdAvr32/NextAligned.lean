import NetbsdAvr32.PowerMask

-- The first address that has a given residue and starts a stretch that no
-- multiple of a boundary cuts.
namespace NetbsdAvr32.NextAligned
open Nat
variable {A N r c x y size : Nat}

def next (A r c : Nat) : Nat := c + (r + (A - c % A)) % A
theorem next_ge (A r c : Nat) : c ≤ next A r c := le_add_right _ _
theorem next_lt (pos : 0 < A) (r c : Nat) : next A r c < c + A := Nat.add_lt_add_left (Nat.mod_lt _ pos) c

theorem next_mod (small : r < A) (c : Nat) : next A r c % A = r := by
  have low := mod_lt c (zero_lt_of_lt small)
  have parts := div_add_mod c A
  have whole : c + (r + (A - c % A)) = r + A * (c / A + 1) := by
    rw [mul_succ]
    omega
  unfold next
  rw [add_mod_mod,whole,add_mul_mod_self_left,mod_eq_of_lt small]

theorem apart (same : x % A = y % A) (less : x < y) : x + A ≤ y := by
  have dvd : A ∣ y - x := dvd_of_mod_eq_zero (sub_mod_eq_zero_of_mod_eq same.symm)
  have le := le_of_dvd (by omega) dvd
  omega

theorem next_least (small : r < A) (spot : y % A = r) (from_ : c ≤ y) : next A r c ≤ y := by
  by_contra less
  have gap := apart (spot.trans (next_mod small c).symm) (not_le.mp less)
  have near := next_lt (zero_lt_of_lt small) r c
  omega

-- No multiple of the boundary N lies inside the stretch, or N is zero.
def Uncut (N size a : Nat) : Prop := N ≠ 0 → a / N = (a + size - 1) / N
instance : Decidable (Uncut N size x) := inferInstanceAs (Decidable (_ → _))

theorem Uncut.shift (uncut : Uncut N size x) (some : 0 < size) (same : y % N = x % N) : Uncut N size y := by
  intro bounded
  have pos := Nat.pos_of_ne_zero bounded
  have fits := uncut bounded
  have parts := div_add_mod x N
  have parts' := div_add_mod y N
  have end_ : x + size - 1 = N * (x / N) + (x % N + (size - 1)) := by omega
  have end' : y + size - 1 = N * (y / N) + (x % N + (size - 1)) := by omega
  rw [end_,mul_add_div pos] at fits
  rw [end',mul_add_div pos]
  omega

theorem Uncut.size_le (uncut : Uncut N size x) (bounded : N ≠ 0) (some : 0 < size) : x % N + size ≤ N := by
  have pos := Nat.pos_of_ne_zero bounded
  have fits := uncut bounded
  have parts := div_add_mod x N
  have end_ : x + size - 1 = N * (x / N) + (x % N + (size - 1)) := by omega
  rw [end_,mul_add_div pos] at fits
  have inside : (x % N + (size - 1)) / N = 0 := by omega
  have less := (div_eq_zero_iff_lt pos).mp inside
  omega

theorem uncut_iff (bounded : N ≠ 0) (some : 0 < size) : Uncut N size x ↔ x % N + size ≤ N := by
  refine ⟨fun uncut => uncut.size_le bounded some,fun fits _ => ?_⟩
  have pos := Nat.pos_of_ne_zero bounded
  have parts := div_add_mod x N
  have end_ : x + size - 1 = N * (x / N) + (x % N + (size - 1)) := by omega
  have inside : (x % N + (size - 1)) / N = 0 := div_eq_of_lt (by omega)
  rw [end_,mul_add_div pos,inside,add_zero]

-- From an address of the right residue on: itself, or r past the next boundary.
def clear (N r size x : Nat) : Nat := if Uncut N size x then x else next N r x

section boundary
variable (base : Uncut N size r) (some : 0 < size) (nest : N ≠ 0 → A ∣ N ∨ N ∣ A)
include base some nest

theorem finer (spot : x % A = r % A) (cut : ¬ Uncut N size x) : N ≠ 0 ∧ A ∣ N ∧ ¬ N ∣ A := by
  have bounded : N ≠ 0 := fun zero => cut fun bounded => absurd zero bounded
  have coarse : ¬ N ∣ A := by
    intro dvd
    refine cut (base.shift some ?_)
    rw [← mod_mod_of_dvd x dvd,spot,mod_mod_of_dvd r dvd]
  exact ⟨bounded,(nest bounded).resolve_right coarse,coarse⟩

variable (small : r < A) (spot : x % A = r)
include small spot

theorem clear_spec : x ≤ clear N r size x ∧ clear N r size x % A = r ∧ Uncut N size (clear N r size x) := by
  unfold clear
  split
  · next uncut => exact ⟨le_refl x,spot,uncut⟩
  next cut =>
  obtain ⟨bounded,dvd,_⟩ := finer base some nest (spot.trans (mod_eq_of_lt small).symm) cut
  have wider : r < N := Nat.lt_of_lt_of_le small (Nat.le_of_dvd (Nat.pos_of_ne_zero bounded) dvd)
  have place := next_mod wider x
  refine ⟨next_ge N r x,?_,base.shift some ?_⟩
  · rw [← mod_mod_of_dvd _ dvd,place,mod_eq_of_lt small]
  · rw [place,mod_eq_of_lt wider]

theorem clear_least (spot' : y % A = r) (uncut' : Uncut N size y) (from_ : x ≤ y) : clear N r size x ≤ y := by
  unfold clear
  split
  · exact from_
  next cut =>
  obtain ⟨bounded,dvd,_⟩ := finer base some nest (spot.trans (mod_eq_of_lt small).symm) cut
  have pos := Nat.pos_of_ne_zero bounded
  have wider : r < N := lt_of_lt_of_le small (le_of_dvd pos dvd)
  have past := (uncut_iff bounded some (x := x)).not.mp cut
  have fits := (uncut_iff bounded some (x := y)).mp uncut'
  -- y lies past the boundary that cuts x, and r is the first residue there.
  have above : r ≤ y % N := by
    rw [← spot',← mod_mod_of_dvd y dvd]
    exact mod_le _ _
  have down : (y - (y % N - r)) % N = r := by
    have parts := div_add_mod y N
    have shape : y - (y % N - r) = N * (y / N) + r := by omega
    rw [shape,mul_add_mod,mod_eq_of_lt wider]
  have beyond : x ≤ y - (y % N - r) := by
    by_contra less
    have low := mod_lt x pos
    have parts := div_add_mod x N
    have parts' := div_add_mod y N
    have same : x / N = y / N := by
      have up : y / N ≤ x / N := by
        by_contra more
        have step := mul_le_mul_left N (succ_le_of_lt (not_le.mp more))
        rw [mul_succ] at step
        omega
      have down := Nat.div_le_div_right (c := N) from_
      omega
    rw [same] at parts
    omega
  have least := next_least wider down beyond
  omega
end boundary
end NetbsdAvr32.NextAligned
