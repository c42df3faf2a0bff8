import Mathlib.Algebra.GroupWithZero.Nat
import Mathlib.Algebra.Ring.Int.Defs
import Mathlib.Tactic.Common
import Mathlib.Algebra.Order.Group.Int

-- The int of a C program that lets it wrap, 32 bits wide.
namespace NetbsdAvr32.Wrapped

def int (x : Int) : Int := Int.bmod x 4294967296

variable {x y : Int}

theorem int_eq (x : Int) : ∃ k, int x = x + 4294967296 * k := ⟨-Int.bdiv x 4294967296,by
  have := Int.bmod_add_bdiv x 4294967296
  unfold int
  omega⟩

theorem int_small (low : -2147483648 ≤ x) (high : x < 2147483648) : int x = x := Int.bmod_eq_of_le (by omega) (by omega)

theorem int_shift (x k : Int) : int (x + 4294967296 * k) = int x := by
  have same : (x + 4294967296 * k) % (4294967296 : Nat) = x % (4294967296 : Nat) := by omega
  unfold int
  rw [← Int.emod_bmod,same,Int.emod_bmod]

theorem int_sub (x y : Int) : int (int x - int y) = int (x - y) := by
  obtain ⟨k,eqx⟩ := int_eq x
  obtain ⟨l,eqy⟩ := int_eq y
  have : int x - int y = x - y + 4294967296 * (k - l) := by omega
  rw [this,int_shift]

theorem int_add_mod (x : Int) (n : Nat) : int (x + (n % 4294967296 : Nat)) = int (x + n) := by
  have : x + (n : Int) = x + (n % 4294967296 : Nat) + 4294967296 * (n / 4294967296 : Nat) := by omega
  rw [this,int_shift]
end NetbsdAvr32.Wrapped
