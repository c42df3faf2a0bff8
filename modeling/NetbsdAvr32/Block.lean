import NetbsdAvr32.Outcome
import Mathlib.Tactic.Common

-- An array of a C program: a list of its elements, with accesses that stay in it.
namespace NetbsdAvr32.Block
open List

def load (cells : List α) (i : Nat) : Except Halt α :=
  match cells[i]? with
  | some x => .ok x
  | none => .error (.fault "read past the array")

def store (cells : List α) (i : Nat) (x : α) : Except Halt (List α) :=
  if i < cells.length then .ok (cells.set i x) else .error (.fault "write past the array")

-- memmove of `n` elements inside the array.
def move (cells : List α) (dst src n : Nat) : Except Halt (List α) :=
  if src + n ≤ cells.length ∧ dst + n ≤ cells.length then
    .ok (cells.take dst ++ ((cells.drop src).take n ++ cells.drop (dst + n)))
  else .error (.fault "memmove past the array")

-- memcpy of the first `n` elements into another array.
def copy (cells source : List α) (n : Nat) : Except Halt (List α) :=
  if n ≤ source.length ∧ n ≤ cells.length then .ok (source.take n ++ cells.drop n)
  else .error (.fault "memcpy past the array")

variable {cells a b c : List α} {x y : α} {i : Nat}

theorem load_ok (at_ : cells[i]? = some x) : load cells i = .ok x := by rw [load,at_]

theorem store_middle (place : i = a.length) : store (a ++ x :: b) i y = .ok (a ++ y :: b) := by
  rw [store,if_pos (by simp [place]),place,set_append_right _ _ (Nat.le_refl _),Nat.sub_self,set_cons_zero]

theorem move_up (place : i = a.length) : move (a ++ (b ++ x :: c)) (i + 1) i b.length =
    .ok (a ++ ((b ++ [x]).head (by simp) :: (b ++ c))) := by
  have fits : i + b.length ≤ (a ++ (b ++ x :: c)).length ∧ i + 1 + b.length ≤ (a ++ (b ++ x :: c)).length := by
    simp only [length_append,length_cons]
    omega
  rw [move,if_pos fits,place]
  have moved : ((a ++ (b ++ x :: c)).drop a.length).take b.length = b := by simp
  have above : (a ++ (b ++ x :: c)).drop (a.length + 1 + b.length) = c := by
    rw [Nat.add_assoc,drop_length_add_append,Nat.add_comm 1,drop_length_add_append]
    rfl
  have below : (a ++ (b ++ x :: c)).take (a.length + 1) = a ++ [(b ++ [x]).head (by simp)] := by
    rw [take_length_add_append]
    cases b <;> rfl
  rw [moved,above,below,append_assoc]
  rfl

theorem move_down (place : i = a.length) : move (a ++ x :: (b ++ c)) i (i + 1) b.length =
    .ok (a ++ (b ++ (x :: b).getLast (by simp) :: c)) := by
  have fits : i + 1 + b.length ≤ (a ++ x :: (b ++ c)).length ∧ i + b.length ≤ (a ++ x :: (b ++ c)).length := by
    simp only [length_append,length_cons]
    omega
  rw [move,if_pos fits,place]
  have moved : ((a ++ x :: (b ++ c)).drop (a.length + 1)).take b.length = b := by
    rw [drop_length_add_append]
    exact take_left
  have below : (a ++ x :: (b ++ c)).take a.length = a := by simp
  have last : ∀ (b : List α) (x : α), (x :: (b ++ c)).drop b.length = (x :: b).getLast (by simp) :: c := by
    intro b
    induction b with
    | nil => exact fun x => rfl
    | cons y b ih => exact fun x => ih y
  have above : (a ++ x :: (b ++ c)).drop (a.length + b.length) = (x :: b).getLast (by simp) :: c := by
    rw [drop_length_add_append,last]
  rw [moved,below,above]

theorem copy_grown (fits : a.length ≤ b.length) : copy b a a.length = .ok (a ++ b.drop a.length) := by
  rw [copy,if_pos ⟨Nat.le_refl _,fits⟩,take_length]
end NetbsdAvr32.Block
