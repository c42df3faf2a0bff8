import Mathlib.Data.List.Nodup

-- A doubly linked list of distinct elements, as the list of them from the head on.
namespace NetbsdAvr32.Splice
open List
variable {α : Type} [DecidableEq α] {x y : α} {l before after : List α}

def nextOf (x : α) : List α → Option α
  | [] => none
  | y :: l => if y = x then l.head? else nextOf x l

def insertBefore (x new : α) : List α → List α
  | [] => []
  | y :: l => if y = x then new :: y :: l else y :: insertBefore x new l

def insertAfter (x new : α) : List α → List α
  | [] => []
  | y :: l => if y = x then y :: new :: l else y :: insertAfter x new l

theorem nextOf_append (fresh : x ∉ before) : nextOf x (before ++ x :: after) = after.head? := by
  induction before with
  | nil => exact if_pos rfl
  | cons y before ih =>
    rw [mem_cons,not_or] at fresh
    rw [cons_append,nextOf,if_neg (Ne.symm fresh.1),ih fresh.2]

theorem insertBefore_append (new : α) (fresh : x ∉ before) : insertBefore x new (before ++ x :: after) = before ++ new :: x :: after := by
  induction before with
  | nil => exact if_pos rfl
  | cons y before ih =>
    rw [mem_cons,not_or] at fresh
    rw [cons_append,insertBefore,if_neg (Ne.symm fresh.1),ih fresh.2]
    rfl

theorem insertAfter_append (new : α) (after : List α) (fresh : x ∉ before) : insertAfter x new (before ++ x :: after) = before ++ x :: new :: after := by
  induction before with
  | nil => exact if_pos rfl
  | cons y before ih =>
    rw [mem_cons,not_or] at fresh
    rw [cons_append,insertAfter,if_neg (Ne.symm fresh.1),ih fresh.2]
    rfl

theorem mem_insertBefore (mem : y ∈ insertBefore x new l) : y = new ∨ y ∈ l := by
  induction l with
  | nil => cases mem
  | cons z l ih =>
    rw [insertBefore] at mem
    split at mem
    · exact mem_cons.mp mem
    rcases mem_cons.mp mem with rfl | mem
    · exact .inr mem_cons_self
    · exact (ih mem).imp_right (mem_cons_of_mem _)

theorem mem_insertAfter (mem : y ∈ insertAfter x new l) : y = new ∨ y ∈ l := by
  induction l with
  | nil => cases mem
  | cons z l ih =>
    rw [insertAfter] at mem
    split at mem
    · rcases mem_cons.mp mem with rfl | mem
      · exact .inr mem_cons_self
      · exact (mem_cons.mp mem).imp_right (mem_cons_of_mem _)
    rcases mem_cons.mp mem with rfl | mem
    · exact .inr mem_cons_self
    · exact (ih mem).imp_right (mem_cons_of_mem _)

theorem erase_append (fresh : x ∉ before) : (before ++ x :: after).erase x = before ++ after := by
  rw [erase_append_right _ fresh,erase_cons_head]
end NetbsdAvr32.Splice
