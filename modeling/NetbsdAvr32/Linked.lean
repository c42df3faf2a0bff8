import Mathlib.Algebra.GroupWithZero.Nat
import Mathlib.Algebra.Ring.Int.Defs
import Mathlib.Data.List.Nodup
import Mathlib.Data.List.Perm.Subperm

-- Singly linked chains through a heap of cells: `heap` gives the live cells,
-- `next` the link stored in one.
namespace NetbsdAvr32.Linked
open List Function
variable {heap heap' : ι → Option α} {next next' : α → Option ι}

def Path (heap : ι → Option α) (next : α → Option ι) : Option ι → List ι → Option ι → Prop
  | p, [], q => p = q
  | p, a :: l, q => p = some a ∧ ∃ cell, heap a = some cell ∧ Path heap next (next cell) l q

theorem path_append : Path heap next p (l ++ r) q ↔ ∃ m, Path heap next p l m ∧ Path heap next m r q := by
  induction l generalizing p with
  | nil => simp [Path]
  | cons a l ih =>
    constructor
    · rintro ⟨rfl,cell,got,rest⟩
      obtain ⟨m,left,right⟩ := ih.mp rest
      exact ⟨m,⟨rfl,cell,got,left⟩,right⟩
    rintro ⟨m,⟨rfl,cell,got,left⟩,right⟩
    exact ⟨rfl,cell,got,ih.mpr ⟨m,left,right⟩⟩

theorem Path.frame (path : Path heap next p l q)
    (same : ∀ a ∈ l, (heap' a).map next' = (heap a).map next) : Path heap' next' p l q := by
  induction l generalizing p with
  | nil => exact path
  | cons a l ih =>
    obtain ⟨rfl,cell,got,rest⟩ := path
    have here := same a (by simp)
    rw [got,Option.map_some] at here
    obtain ⟨cell',got',link⟩ := Option.map_eq_some_iff.mp here
    refine ⟨rfl,cell',got',?_⟩
    rw [link]
    exact ih rest (fun b member => same b (mem_cons_of_mem _ member))

theorem Path.live (path : Path heap next p l q) (member : a ∈ l) : ∃ cell, heap a = some cell := by
  induction l generalizing p with
  | nil => cases member
  | cons b l ih =>
    obtain ⟨_,cell,got,rest⟩ := path
    rcases mem_cons.mp member with rfl | later
    · exact ⟨cell,got⟩
    · exact ih rest later

theorem Path.unique (one : Path heap next p l none) (two : Path heap next p r none) : l = r := by
  induction l generalizing p r with
  | nil =>
    cases r with
    | nil => rfl
    | cons b r => cases one; exact absurd two.1 (by simp)
  | cons a l ih =>
    obtain ⟨rfl,cell,got,rest⟩ := one
    cases r with
    | nil => cases two
    | cons b r =>
      obtain ⟨same,cell',got',rest'⟩ := two
      cases Option.some.inj same
      rw [got] at got'
      cases Option.some.inj got'
      rw [ih rest rest']

theorem Path.nodup (path : Path heap next p l none) : l.Nodup := by
  induction l generalizing p with
  | nil => exact nodup_nil
  | cons a l ih =>
    obtain ⟨rfl,cell,got,rest⟩ := path
    refine nodup_cons.mpr ⟨?_,ih rest⟩
    intro again
    obtain ⟨left,right,rfl⟩ := append_of_mem again
    obtain ⟨m,_,tail⟩ := path_append.mp rest
    obtain ⟨rfl,cell',got',rest'⟩ := tail
    rw [got] at got'
    cases Option.some.inj got'
    have same := rest.unique rest'
    have length := congrArg length same
    simp at length
    omega

theorem Path.tail (path : Path heap next p (a :: l) q) (got : heap a = some cell) : Path heap next (next cell) l q := by
  obtain ⟨_,cell',got',rest⟩ := path
  rw [got] at got'
  cases Option.some.inj got'
  exact rest

theorem Path.free [DecidableEq ι] (path : Path heap next p l q) (off : a ∉ l) :
    Path (update heap a cell) next p l q := by
  refine path.frame (fun b member => ?_)
  have other : b ≠ a := fun same => off (same ▸ member)
  rw [update_of_ne other]

theorem Path.cut [DecidableEq ι] (path : Path heap next p (l ++ a :: n :: r) none) (gotN : heap n = some y)
    (link : next x = next y) :
    Path (update (update heap a (some x)) n none) next p (l ++ a :: r) none := by
  have nodup := path.nodup
  obtain ⟨m,left,right⟩ := path_append.mp path
  obtain ⟨rfl,cell,gotA,rest⟩ := right
  have tail := rest.tail gotN
  obtain ⟨apart,rightNodup,disjoint⟩ := nodup_append.mp nodup
  simp only [nodup_cons,mem_cons,not_or] at rightNodup
  have offA : a ∉ l := fun member => disjoint a member a (by simp) rfl
  have offN : n ∉ l := fun member => disjoint n member n (by simp) rfl
  refine path_append.mpr ⟨some a,(left.free offA).free offN,rfl,x,?_,?_⟩
  · rw [update_of_ne rightNodup.1.1,update_self]
  rw [link]
  exact (tail.free rightNodup.1.2).free rightNodup.2.1

def walk (heap : ι → Option α) (next : α → Option ι) : Nat → Option ι → List ι
  | 0, _ => []
  | _, none => []
  | fuel + 1, some a => match heap a with
    | none => []
    | some cell => a :: walk heap next fuel (next cell)

theorem Path.walk (path : Path heap next p l none) (enough : l.length ≤ fuel) : walk heap next fuel p = l := by
  induction l generalizing p fuel with
  | nil => cases path; cases fuel <;> rfl
  | cons a l ih =>
    obtain ⟨rfl,cell,got,rest⟩ := path
    cases fuel with
    | zero => simp at enough
    | succ fuel => simp only [Linked.walk,got]; rw [ih rest (by simpa using enough)]

theorem length_bound {l : List Nat} (nodup : l.Nodup) (below : ∀ a ∈ l, a < n) : l.length ≤ n := by
  have sub : l ⊆ range n := fun a member => mem_range.mpr (below a member)
  have := (subperm_of_subset nodup sub).length_le
  simpa using this
end NetbsdAvr32.Linked
