import Mathlib.Algebra.GroupWithZero.Nat
import Mathlib.Algebra.Ring.Int.Defs
import Mathlib.Data.Set.Basic
import Mathlib.Tactic.Tauto

-- Sets of naturals as lists of closed intervals.
namespace NetbsdAvr32.Intervals
open List

abbrev Interval := Nat × Nat
def points (l : List Interval) : Set Nat := {x | ∃ r ∈ l, r.1 ≤ x ∧ x ≤ r.2}

structure Normal (l : List Interval) : Prop where
  order : ∀ r ∈ l, r.1 ≤ r.2
  gaps : l.Pairwise (fun a b => a.2 + 1 < b.1)

structure Maximal (S : Set Nat) (r : Interval) : Prop where
  order : r.1 ≤ r.2
  inside : ∀ x, r.1 ≤ x → x ≤ r.2 → x ∈ S
  left : ∀ x, x + 1 = r.1 → x ∉ S
  right : r.2 + 1 ∉ S

variable {l l' : List Interval} {r q : Interval} {x : Nat} {S : Set Nat}

@[simp] theorem mem_points : x ∈ points l ↔ ∃ r ∈ l, r.1 ≤ x ∧ x ≤ r.2 := Iff.rfl

@[simp] theorem points_nil : points [] = ∅ := by
  ext x
  simp

theorem points_cons (r : Interval) (l : List Interval) : points (r :: l) = {x | r.1 ≤ x ∧ x ≤ r.2} ∪ points l := by
  ext x
  simp

theorem points_append (l l' : List Interval) : points (l ++ l') = points l ∪ points l' := by
  ext x
  simp [or_and_right,exists_or]

theorem normal_nil : Normal [] := ⟨by simp,.nil⟩

theorem normal_cons : Normal (r :: l) ↔ r.1 ≤ r.2 ∧ (∀ q ∈ l, r.2 + 1 < q.1) ∧ Normal l := by
  constructor
  · rintro ⟨order,gaps⟩
    obtain ⟨first,rest⟩ := pairwise_cons.mp gaps
    exact ⟨order r (by simp),first,fun q member => order q (by simp [member]),rest⟩
  rintro ⟨here,first,order,gaps⟩
  refine ⟨?_,pairwise_cons.mpr ⟨first,gaps⟩⟩
  intro q member
  rcases mem_cons.mp member with rfl | later
  · exact here
  · exact order q later

theorem normal_append : Normal (l ++ l') ↔ Normal l ∧ Normal l' ∧ ∀ a ∈ l, ∀ b ∈ l', a.2 + 1 < b.1 := by
  constructor
  · rintro ⟨order,gaps⟩
    obtain ⟨first,second,across⟩ := pairwise_append.mp gaps
    exact ⟨⟨fun r member => order r (by simp [member]),first⟩,⟨fun r member => order r (by simp [member]),second⟩,across⟩
  rintro ⟨⟨order,first⟩,⟨order',second⟩,across⟩
  refine ⟨?_,pairwise_append.mpr ⟨first,second,across⟩⟩
  intro r member
  rcases mem_append.mp member with here | there
  · exact order r here
  · exact order' r there

theorem Normal.apart (normal : Normal l) (one : r ∈ l) (two : q ∈ l) : r = q ∨ r.2 + 1 < q.1 ∨ q.2 + 1 < r.1 := by
  induction l with
  | nil => cases one
  | cons a l ih =>
    obtain ⟨_,first,rest⟩ := normal_cons.mp normal
    rcases mem_cons.mp one with rfl | later
    · rcases mem_cons.mp two with rfl | later'
      · exact .inl rfl
      · exact .inr (.inl (first q later'))
    rcases mem_cons.mp two with rfl | later'
    · exact .inr (.inr (first r later))
    · exact ih rest later later'

theorem Normal.maximal (normal : Normal l) (member : r ∈ l) : Maximal (points l) r := by
  have order := normal.order r member
  refine ⟨order,fun x low high => ⟨r,member,low,high⟩,?_,?_⟩
  · rintro x next ⟨q,other,low,high⟩
    rcases normal.apart member other with rfl | before | behind <;> omega
  rintro ⟨q,other,low,high⟩
  rcases normal.apart member other with rfl | before | behind <;> omega

theorem Normal.mem_iff (normal : Normal l) : r ∈ l ↔ Maximal (points l) r := by
  refine ⟨normal.maximal,?_⟩
  intro maximal
  have order := maximal.order
  obtain ⟨q,member,low,high⟩ := maximal.inside r.1 (Nat.le_refl _) order
  have around := normal.maximal member
  have start : q.1 = r.1 := by
    by_contra other
    exact maximal.left (r.1 - 1) (by omega) (around.inside _ (by omega) (by omega))
  have fin : q.2 = r.2 := by
    rcases Nat.lt_trichotomy q.2 r.2 with less | same | more
    · exact absurd (maximal.inside (q.2 + 1) (by omega) (by omega)) around.right
    · exact same
    · exact absurd (around.inside (r.2 + 1) (by omega) (by omega)) maximal.right
  rw [show r = q from Prod.ext start.symm fin.symm]
  exact member

variable {L M M' R : List Interval} {a b : Nat}

theorem Normal.covers_iff (normal : Normal l) (order : a ≤ b) : (∀ x, a ≤ x → x ≤ b → x ∈ points l) ↔ ∃ r ∈ l, r.1 ≤ a ∧ b ≤ r.2 := by
  constructor
  · intro all
    obtain ⟨r,member,low,high⟩ := all a (Nat.le_refl _) order
    refine ⟨r,member,low,?_⟩
    by_contra short
    exact (normal.maximal member).right (all (r.2 + 1) (by omega) (by omega))
  rintro ⟨r,member,low,high⟩ x first last
  exact ⟨r,member,by omega,by omega⟩

theorem Normal.replace (normal : Normal (L ++ M ++ R)) (middle : Normal M') (left : ∀ r ∈ L, ∀ m ∈ M', r.2 + 1 < m.1)
    (right : ∀ m ∈ M', ∀ r ∈ R, m.2 + 1 < r.1) : Normal (L ++ M' ++ R) := by
  obtain ⟨front,back,across⟩ := normal_append.mp normal
  obtain ⟨first,_,_⟩ := normal_append.mp front
  refine normal_append.mpr ⟨normal_append.mpr ⟨first,middle,left⟩,back,?_⟩
  intro r member q member'
  rcases mem_append.mp member with here | there
  · exact across r (by simp [here]) q member'
  · exact right r there q member'

theorem Normal.absorb (normal : Normal (L ++ M ++ R)) (order : r.1 ≤ r.2) (whole : ∀ x, r.1 ≤ x ∧ x ≤ r.2 ↔ x ∈ points M ∨ a ≤ x ∧ x ≤ b)
    (left : ∀ q ∈ L, q.2 + 1 < r.1) (right : ∀ q ∈ R, r.2 + 1 < q.1) :
    Normal (L ++ [r] ++ R) ∧ points (L ++ [r] ++ R) = points (L ++ M ++ R) ∪ {x | a ≤ x ∧ x ≤ b} := by
  constructor
  · refine normal.replace (normal_cons.mpr ⟨order,by simp,normal_nil⟩) ?_ ?_
    · intro q member m here
      rw [mem_singleton.mp here]
      exact left q member
    intro m here q member
    rw [mem_singleton.mp here]
    exact right q member
  ext x
  have here := whole x
  simp only [points_append,points_cons,points_nil,Set.mem_union,Set.mem_ofPred_eq,Set.mem_empty_iff_false] at here ⊢
  tauto

theorem Normal.remove (normal : Normal (L ++ [r] ++ R)) (middle : Normal M') (inside : ∀ m ∈ M', r.1 ≤ m.1 ∧ m.2 ≤ r.2)
    (rest : ∀ x, x ∈ points M' ↔ (r.1 ≤ x ∧ x ≤ r.2) ∧ ¬ (a ≤ x ∧ x ≤ b)) (here : r.1 ≤ a ∧ b ≤ r.2) :
    Normal (L ++ M' ++ R) ∧ points (L ++ M' ++ R) = points (L ++ [r] ++ R) \ {x | a ≤ x ∧ x ≤ b} := by
  obtain ⟨front,back,across⟩ := normal_append.mp normal
  obtain ⟨first,_,before⟩ := normal_append.mp front
  have ahead : ∀ q ∈ L, q.2 + 1 < r.1 := fun q member => before q member r (by simp)
  have behind : ∀ q ∈ R, r.2 + 1 < q.1 := fun q member => across r (by simp) q member
  constructor
  · refine normal.replace middle ?_ ?_
    · intro q member m part
      have low := ahead q member
      have bound := inside m part
      omega
    intro m part q member
    have low := behind q member
    have bound := inside m part
    omega
  ext x
  have part := rest x
  have outL : x ∈ points L → ¬ (a ≤ x ∧ x ≤ b) := by
    rintro ⟨q,member,_,high⟩ ⟨low,_⟩
    have := ahead q member
    omega
  have outR : x ∈ points R → ¬ (a ≤ x ∧ x ≤ b) := by
    rintro ⟨q,member,low,_⟩ ⟨_,high⟩
    have := behind q member
    omega
  simp only [points_append,points_cons,points_nil,Set.mem_union,Set.mem_ofPred_eq,Set.mem_empty_iff_false,Set.mem_sdiff] at part ⊢
  tauto
end NetbsdAvr32.Intervals
