import NetbsdAvr32.RingBuffer
import Mathlib.Algebra.BigOperators.Group.Finset.Basic
import Mathlib.Tactic.Abel

-- Maximal runs of true in a list, and sums of which one summand changes.
namespace NetbsdAvr32.BoolRuns
open RingBuffer List Nat Finset

def one (n : Nat) : List Nat := if n = 0 then [] else [n]

def runsFrom : Nat → List Bool → List Nat
  | n,[] => one n
  | n,true :: l => runsFrom (n + 1) l
  | n,false :: l => one n ++ runsFrom 0 l

def runs (l : List Bool) : List Nat := runsFrom 0 l

variable {l p q : List Bool} {n m k : Nat}

theorem runsFrom_false (n : Nat) (l r : List Bool) : runsFrom n (l ++ false :: r) = runsFrom n l ++ runs r := by
  induction l generalizing n with
  | nil => rfl
  | cons x l ih =>
    cases x with
    | true => exact ih (n + 1)
    | false =>
      show one n ++ runsFrom 0 (l ++ false :: r) = one n ++ runsFrom 0 l ++ runs r
      rw [ih 0,append_assoc]

theorem runsFrom_true (n m : Nat) (l : List Bool) : runsFrom n (replicate m true ++ l) = runsFrom (n + m) l := by
  induction m generalizing n with
  | zero => rfl
  | succ m ih =>
    show runsFrom (n + 1) (replicate m true ++ l) = _
    rw [ih,add_assoc,add_comm 1 m]

theorem runs_replicate (n : Nat) : runs (replicate n true) = one n := by
  have whole := runsFrom_true 0 n []
  rw [append_nil,zero_add] at whole
  exact whole

theorem runs_left (ends : p.getLast? ≠ some true) (l : List Bool) : runs (p ++ l) = runs p ++ runs l := by
  rcases eq_nil_or_concat p with rfl | ⟨p,x,rfl⟩
  · rfl
  rw [concat_eq_append] at ends ⊢
  cases x with
  | true => exact absurd getLast?_concat ends
  | false =>
    rw [append_assoc]
    show runsFrom 0 (p ++ false :: l) = runsFrom 0 (p ++ false :: []) ++ runs l
    rw [runsFrom_false,runsFrom_false]
    exact congrArg (· ++ runs l) (append_nil _).symm

theorem runs_right (l : List Bool) (starts : q.head? ≠ some true) : runs (l ++ q) = runs l ++ runs q := by
  cases q with
  | nil => rw [append_nil,show runs [] = [] from rfl,append_nil]
  | cons x q =>
    cases x with
    | true => exact absurd rfl starts
    | false =>
      show runsFrom 0 (l ++ false :: q) = runsFrom 0 l ++ (one 0 ++ runsFrom 0 q)
      rw [runsFrom_false]
      rfl

theorem runs_run (ends : p.getLast? ≠ some true) (n : Nat) (starts : q.head? ≠ some true) :
    runs (p ++ (replicate n true ++ q)) = runs p ++ (one n ++ runs q) := by
  rw [runs_left ends,runs_right _ starts,runs_replicate]

theorem runs_none (k : Nat) : runs (replicate k false) = [] := by
  induction k with
  | zero => rfl
  | succ k ih => exact ih

theorem runs_hole (p : List Bool) (pos : 0 < k) (l : List Bool) : runs (p ++ (replicate k false ++ l)) = runs p ++ runs l := by
  obtain ⟨k,rfl⟩ := exists_eq_succ_of_ne_zero (ne_of_gt pos)
  have ends : (p ++ replicate (k + 1) false).getLast? ≠ some true := by
    rw [getLast?_append,getLast?_replicate]
    simp
  have none_ : runs (p ++ replicate (k + 1) false) = runs p := by
    rw [runs_right _ (by simp [replicate_succ]),runs_none,append_nil]
  rw [← append_assoc,runs_left ends,none_]

theorem count_one (n k : Nat) (pos : 0 < k) : (one n).count k = if n = k then 1 else 0 := by
  unfold one
  split
  · rename_i zero
    rw [if_neg (by omega),count_nil]
  rw [count_singleton]
  simp

variable {α : Type} {f g : Nat → α} {x : α} {start : Nat}

theorem slice_append (f : Nat → α) (start m n : Nat) : slice f start (m + n) = slice f start m ++ slice f (start + m) n := by
  have left : (slice f start (m + n)).take m = slice f start m := by
    rw [slice_take,min_eq_left (le_add_right ..)]
  have right : (slice f start (m + n)).drop m = slice f (start + m) n := by
    rw [slice_drop,Nat.add_sub_cancel_left]
  rw [← left,← right,take_append_drop]

theorem slice_const (same : ∀ i < n,f (start + i) = x) : slice f start n = replicate n x := by
  apply ext_getElem
  · simp
  intro i low _
  rw [slice_getElem,getElem_replicate]
  exact same i (by simpa using low)

theorem slice_congr (same : ∀ i < n,g (start + i) = f (start + i)) : slice g start n = slice f start n := by
  apply ext_getElem
  · simp
  intro i low _
  rw [slice_getElem,slice_getElem]
  exact same i (by simpa using low)

theorem slice_one (f : Nat → α) (start : Nat) : slice f start 1 = [f start] := rfl

theorem slice_head (f : Nat → α) (start n : Nat) : (slice f start n).head? = if n = 0 then none else some (f start) := by
  cases n with
  | zero => rfl
  | succ n =>
    rw [add_comm,slice_append,slice_one]
    simp

theorem slice_last (f : Nat → α) (start n : Nat) : (slice f start n).getLast? = if n = 0 then none else some (f (start + (n - 1))) := by
  cases n with
  | zero => rfl
  | succ n =>
    rw [slice_append,slice_one,getLast?_append]
    simp

theorem run_ahead (f : Nat → Bool) {start last : Nat} (le : start ≤ last) :
    ∃ n,start + n ≤ last ∧ (∀ i < n,f (start + i) = true) ∧ (start + n = last ∨ f (start + n) = false) := by
  obtain ⟨len,rfl⟩ := Nat.exists_eq_add_of_le le
  clear le
  induction len with
  | zero => exact ⟨0,le_refl _,nofun,.inl rfl⟩
  | succ len ih =>
    obtain ⟨n,within,all,stop⟩ := ih
    rcases stop with last | stop
    · have same : n = len := add_left_cancel last
      subst same
      cases here : f (start + n) with
      | false => exact ⟨n,le_succ _,all,.inr here⟩
      | true =>
        refine ⟨n + 1,le_refl _,fun i low => ?_,.inl rfl⟩
        rcases Nat.lt_succ_iff_lt_or_eq.mp low with below | rfl
        · exact all i below
        · exact here
    · exact ⟨n,le_succ_of_le within,all,.inr stop⟩

theorem run_behind (f : Nat → Bool) (start : Nat) :
    ∃ n ≤ start,(∀ i,start - n ≤ i → i < start → f i = true) ∧ (n = start ∨ f (start - n - 1) = false) := by
  induction start with
  | zero => exact ⟨0,le_refl _,fun i _ low => absurd low (not_lt_zero i),.inl rfl⟩
  | succ start ih =>
    cases here : f start with
    | false => exact ⟨0,Nat.zero_le _,fun i high low => absurd low (Nat.not_lt_of_le high),.inr here⟩
    | true =>
      obtain ⟨n,within,all,stop⟩ := ih
      refine ⟨n + 1,succ_le_succ within,fun i high low => ?_,stop.imp (congrArg succ) fun stop => ?_⟩
      · rcases Nat.lt_succ_iff_lt_or_eq.mp low with below | rfl
        · exact all i (by omega) below
        · exact here
      rw [succ_sub_succ]
      exact stop

theorem sum_change {β : Type} [AddCommGroup β] {f g : Nat → β} {b n : Nat} (low : b < n) (same : ∀ i,i ≠ b → g i = f i) :
    ∑ i ∈ range n,g i = ∑ i ∈ range n,f i + (g b - f b) := by
  have mem : b ∈ Finset.range n := Finset.mem_range.mpr low
  have rest : ∑ i ∈ (Finset.range n).erase b,g i = ∑ i ∈ (Finset.range n).erase b,f i :=
    sum_congr rfl fun i others => same i (mem_erase.mp others).1
  rw [← add_sum_erase _ g mem,← add_sum_erase _ f mem,rest]
  abel
end NetbsdAvr32.BoolRuns
