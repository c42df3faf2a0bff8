import Mathlib.Tactic.Common

-- Pieces of a sequence that goes on without end.
namespace NetbsdAvr32.Cuts
variable {α : Type} {st : Int → α} {a : Int} {m n : Nat}

def cut (st : Int → α) (a : Int) (n : Nat) : List α := (List.range n).map fun i : Nat => st (a + i)
@[simp] theorem cut_length : (cut st a n).length = n := by simp [cut]
@[simp] theorem cut_getElem {i : Nat} (lt : i < (cut st a n).length) : (cut st a n)[i] = st (a + i) := by simp [cut]
@[simp] theorem cut_zero : cut st a 0 = [] := rfl

theorem cut_append : cut st a m ++ cut st (a + m) n = cut st a (m + n) := by
  unfold cut
  rw [List.range_add,List.map_append,List.map_map]
  congr 1
  refine List.map_congr_left fun i _ => ?_
  exact congrArg st (by dsimp only; omega)

theorem cut_take (short_ : m ≤ n) : (cut st a n).take m = cut st a m := by
  obtain ⟨k,rfl⟩ := Nat.exists_eq_add_of_le short_
  rw [← cut_append]
  exact List.take_left' cut_length

theorem cut_drop (short_ : m ≤ n) : (cut st a n).drop m = cut st (a + m) (n - m) := by
  obtain ⟨k,rfl⟩ := Nat.exists_eq_add_of_le short_
  rw [← cut_append,Nat.add_sub_cancel_left]
  exact List.drop_left' cut_length

theorem cut_shift (b : Int) : cut (fun i => st (b + i)) a n = cut st (b + a) n := by
  exact List.map_congr_left fun i _ => congrArg st (Int.add_assoc b a i).symm
end NetbsdAvr32.Cuts
