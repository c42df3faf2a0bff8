import Mathlib.Data.Finset.Card

-- A packed list of the live elements of a range, with the place of each in it:
-- slots lists them, and bckptr of an element is its index in the list.
namespace NetbsdAvr32.Packed
open Function Nat Finset

structure Indexed (slots bckptr : Nat → Nat) (used bound : Nat) (live : Nat → Prop) : Prop where
  inside : ∀ i < used, slots i < bound
  held : ∀ i < used, live (slots i)
  back : ∀ i < used, bckptr (slots i) = i
  listed : ∀ s, live s → ∃ i < used, slots i = s

variable {slots bckptr slots' bckptr' : Nat → Nat} {used bound bound' s : Nat} {live live' : Nat → Prop}

namespace Indexed

theorem distinct (indexed : Indexed slots bckptr used bound live) (i j : Nat) (lti : i < used) (ltj : j < used)
    (same : slots i = slots j) : i = j := by
  rw [← indexed.back i lti,same,indexed.back j ltj]

theorem place (indexed : Indexed slots bckptr used bound live) (here : live s) :
    bckptr s < used ∧ slots (bckptr s) = s ∧ s < bound := by
  obtain ⟨i,lt,rfl⟩ := indexed.listed s here
  rw [indexed.back i lt]
  exact ⟨lt,rfl,indexed.inside i lt⟩

theorem empty (slots bckptr : Nat → Nat) (bound : Nat) (none_ : ∀ s, ¬live s) : Indexed slots bckptr 0 bound live where
  inside := by omega
  held := by omega
  back := by omega
  listed s here := (none_ s here).elim

section
variable (indexed : Indexed slots bckptr used bound live)
include indexed

theorem congr (same : ∀ s, live' s ↔ live s) (wider : bound ≤ bound') :
    Indexed slots bckptr used bound' live' where
  inside i lt := lt_of_lt_of_le (indexed.inside i lt) wider
  held i lt := (same _).mpr (indexed.held i lt)
  back := indexed.back
  listed s here := indexed.listed s ((same s).mp here)

theorem used_le : used ≤ bound := by
  have injective : Set.InjOn slots (range used) := by
    intro i mi j mj same
    simp only [coe_range,Set.mem_Iio] at mi mj
    exact indexed.distinct i j mi mj same
  have maps : ∀ i ∈ range used, slots i ∈ range bound := by
    intro i mem
    rw [mem_range] at mem ⊢
    exact indexed.inside i mem
  have count := card_le_card_of_injOn slots maps injective
  rwa [card_range,card_range] at count

theorem push (free : ¬live s) (inside : s < bound)
    (more : ∀ t, live' t ↔ live t ∨ t = s) :
    Indexed (update slots used s) (update bckptr s used) (used + 1) bound live' where
  inside i lt := by
    rcases lt_or_eq_of_le (le_of_lt_succ lt) with before | rfl
    · rw [update_of_ne (Nat.ne_of_lt before)]
      exact indexed.inside i before
    · rwa [update_self]
  held i lt := by
    rw [more]
    rcases lt_or_eq_of_le (le_of_lt_succ lt) with before | rfl
    · rw [update_of_ne (Nat.ne_of_lt before)]
      exact .inl (indexed.held i before)
    rw [update_self]
    exact .inr rfl
  back i lt := by
    rcases lt_or_eq_of_le (le_of_lt_succ lt) with before | rfl
    · have other : slots i ≠ s := fun same => free (same ▸ indexed.held i before)
      rw [update_of_ne (Nat.ne_of_lt before),update_of_ne other]
      exact indexed.back i before
    · rw [update_self,update_self]
  listed t here := by
    rcases (more t).mp here with old | rfl
    · obtain ⟨i,lt,same⟩ := indexed.listed t old
      exact ⟨i,Nat.lt_succ_of_lt lt,by rwa [update_of_ne (Nat.ne_of_lt lt)]⟩
    · exact ⟨used,lt_succ_self _,update_self ..⟩

theorem used_lt (free : ¬live s) (inside : s < bound) : used < bound :=
  lt_of_succ_le (indexed.push free inside (fun _ => Iff.rfl)).used_le

theorem drop_last (here : live s) (last : bckptr s = used - 1)
    (less : ∀ t, live' t ↔ live t ∧ t ≠ s) : Indexed slots bckptr (used - 1) bound live' := by
  obtain ⟨lt,at_,_⟩ := indexed.place here
  refine ⟨fun i lt => indexed.inside i (by omega),fun i lt => ?_,fun i lt => indexed.back i (by omega),fun t here => ?_⟩
  · refine (less _).mpr ⟨indexed.held i (by omega),fun same => ?_⟩
    have := indexed.back i (by omega)
    rw [same,last] at this
    omega
  obtain ⟨old,other⟩ := (less t).mp here
  obtain ⟨i,lt,same⟩ := indexed.listed t old
  refine ⟨i,?_,same⟩
  have : i ≠ used - 1 := by
    rintro rfl
    rw [last] at at_
    exact other (same.symm.trans at_)
  omega

theorem drop_swap (here : live s) (other : bckptr s ≠ used - 1)
    (less : ∀ t, live' t ↔ live t ∧ t ≠ s) :
    Indexed (update slots (bckptr s) (slots (used - 1))) (update bckptr (slots (used - 1)) (bckptr s)) (used - 1) bound live' := by
  obtain ⟨lt,at_,_⟩ := indexed.place here
  have last := indexed.inside (used - 1) (by omega)
  have apart : slots (used - 1) ≠ s := by
    intro same
    rw [← same,indexed.back _ (by omega)] at other
    exact other rfl
  have kept : ∀ i < used - 1, i ≠ bckptr s → slots i ≠ slots (used - 1) := by
    intro i lti _ same
    have := indexed.distinct i (used - 1) (by omega) (by omega) same
    omega
  refine ⟨fun i lti => ?_,fun i lti => ?_,fun i lti => ?_,fun t here => ?_⟩
  · by_cases same : i = bckptr s
    · rwa [same,update_self]
    rw [update_of_ne same]
    exact indexed.inside i (by omega)
  · by_cases same : i = bckptr s
    · rw [same,update_self]
      exact (less _).mpr ⟨indexed.held _ (by omega),apart⟩
    rw [update_of_ne same]
    refine (less _).mpr ⟨indexed.held i (by omega),fun back => same ?_⟩
    rw [← back,indexed.back i (by omega)]
  · by_cases same : i = bckptr s
    · rw [same,update_self,update_self]
    rw [update_of_ne same,update_of_ne (kept i lti same)]
    exact indexed.back i (by omega)
  obtain ⟨old,ne⟩ := (less t).mp here
  obtain ⟨i,lti,same⟩ := indexed.listed t old
  by_cases end_ : i = used - 1
  · exact ⟨bckptr s,by omega,by rw [update_self,← end_,same]⟩
  refine ⟨i,by omega,?_⟩
  rw [update_of_ne]
  · exact same
  rintro rfl
  exact ne (same.symm.trans at_)

theorem shift {up down : Nat} (low : ∀ i < used, down ≤ slots i)
    (list : ∀ i < used, slots' i = slots i - down + up) (backs : ∀ s, live s → bckptr' (s - down + up) = bckptr s)
    (moved : ∀ t, live' t ↔ ∃ s, live s ∧ t = s - down + up) (fits : ∀ s, live s → s - down + up < bound') :
    Indexed slots' bckptr' used bound' live' where
  inside i lt := by
    rw [list i lt]
    exact fits _ (indexed.held i lt)
  held i lt := by
    rw [list i lt]
    exact (moved _).mpr ⟨_,indexed.held i lt,rfl⟩
  back i lt := by
    rw [list i lt,backs _ (indexed.held i lt),indexed.back i lt]
  listed t here := by
    obtain ⟨s,old,rfl⟩ := (moved t).mp here
    obtain ⟨i,lt,rfl⟩ := indexed.listed s old
    exact ⟨i,lt,list i lt⟩
end
end Indexed
end NetbsdAvr32.Packed
