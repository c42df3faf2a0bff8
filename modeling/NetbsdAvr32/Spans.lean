import Mathlib.Data.Set.Basic
import Mathlib.Tactic.Common

-- Lists of half-open spans of naturals: `lo` gives where an element starts, `hi`
-- where it stops.
namespace NetbsdAvr32.Spans
open List
variable {α : Type} {lo hi : α → Nat} {l l' : List α} {e q : α} {s t x : Nat}

def span (lo hi : α → Nat) (e : α) : Set Nat := {x | lo e ≤ x ∧ x < hi e}
def cover (lo hi : α → Nat) (l : List α) : Set Nat := {x | ∃ e ∈ l, x ∈ span lo hi e}

structure Apart (lo hi : α → Nat) (l : List α) : Prop where
  order : ∀ e ∈ l, lo e ≤ hi e
  apart : l.Pairwise fun a b => hi a ≤ lo b

def Fits (lo hi : α → Nat) : Nat → List α → Nat → Prop
  | s, [], t => s = t
  | s, e :: l, t => lo e = s ∧ Fits lo hi (hi e) l t

@[simp] theorem mem_span : x ∈ span lo hi e ↔ lo e ≤ x ∧ x < hi e := Iff.rfl
@[simp] theorem mem_cover : x ∈ cover lo hi l ↔ ∃ e ∈ l, lo e ≤ x ∧ x < hi e := Iff.rfl

@[simp] theorem cover_nil : cover lo hi [] = ∅ := by
  ext x
  simp

theorem cover_cons (e : α) (l : List α) : cover lo hi (e :: l) = span lo hi e ∪ cover lo hi l := by
  ext x
  simp

theorem cover_append (l l' : List α) : cover lo hi (l ++ l') = cover lo hi l ∪ cover lo hi l' := by
  ext x
  simp [or_and_right,exists_or]

theorem apart_nil : Apart lo hi [] := ⟨by simp,.nil⟩

theorem apart_cons : Apart lo hi (e :: l) ↔ lo e ≤ hi e ∧ (∀ q ∈ l, hi e ≤ lo q) ∧ Apart lo hi l := by
  constructor
  · rintro ⟨order,apart⟩
    obtain ⟨first,rest⟩ := pairwise_cons.mp apart
    exact ⟨order e (by simp),first,fun q mem => order q (by simp [mem]),rest⟩
  rintro ⟨here,first,order,apart⟩
  refine ⟨fun q mem => ?_,pairwise_cons.mpr ⟨first,apart⟩⟩
  rcases mem_cons.mp mem with rfl | later
  · exact here
  · exact order q later

theorem apart_append : Apart lo hi (l ++ l') ↔ Apart lo hi l ∧ Apart lo hi l' ∧ ∀ a ∈ l, ∀ b ∈ l', hi a ≤ lo b := by
  constructor
  · rintro ⟨order,apart⟩
    obtain ⟨left,right,across⟩ := pairwise_append.mp apart
    exact ⟨⟨fun e mem => order e (by simp [mem]),left⟩,⟨fun e mem => order e (by simp [mem]),right⟩,across⟩
  rintro ⟨⟨order,left⟩,⟨order',right⟩,across⟩
  refine ⟨fun e mem => ?_,pairwise_append.mpr ⟨left,right,across⟩⟩
  rcases mem_append.mp mem with here | there
  · exact order e here
  · exact order' e there

theorem Fits.le (fits : Fits lo hi s l t) (order : ∀ e ∈ l, lo e ≤ hi e) : s ≤ t := by
  induction l generalizing s with
  | nil => exact Nat.le_of_eq fits
  | cons e l ih =>
    obtain ⟨rfl,rest⟩ := fits
    exact Nat.le_trans (order e (by simp)) (ih rest fun q mem => order q (by simp [mem]))

theorem Fits.cover (fits : Fits lo hi s l t) (order : ∀ e ∈ l, lo e ≤ hi e) : x ∈ cover lo hi l ↔ s ≤ x ∧ x < t := by
  induction l generalizing s with
  | nil =>
    cases fits
    simp
  | cons e l ih =>
    have further := fits.2.le fun q mem => order q (by simp [mem])
    have here := order e (by simp)
    obtain ⟨rfl,rest⟩ := fits
    rw [cover_cons,Set.mem_union,ih rest fun q mem => order q (by simp [mem]),mem_span]
    omega

theorem Apart.fits (apart : Apart lo hi l) (le : s ≤ t) (low : ∀ e ∈ l, s ≤ lo e) (high : ∀ e ∈ l, hi e ≤ t)
    (full : ∀ x, s ≤ x → x < t → x ∈ Spans.cover lo hi l) : Fits lo hi s l t := by
  induction l generalizing s with
  | nil =>
    rcases Nat.lt_or_eq_of_le le with more | same
    · have := full s (Nat.le_refl s) more
      simp at this
    · exact same
  | cons e l ih =>
    obtain ⟨here,later,rest⟩ := apart_cons.mp apart
    have above := high e (by simp)
    have first : lo e = s := by
      by_contra off
      have below := low e (by simp)
      obtain ⟨q,mem,starts,_⟩ := full s (Nat.le_refl s) (by omega)
      rcases mem_cons.mp mem with rfl | mem
      · omega
      have := later q mem
      omega
    refine ⟨first,ih rest above later (fun q mem => high q (by simp [mem])) fun x above_ below => ?_⟩
    obtain ⟨q,mem,inside⟩ := full x (by omega) below
    rcases mem_cons.mp mem with rfl | mem
    · have := inside.2
      omega
    · exact ⟨q,mem,inside⟩

theorem Fits.last (fits : Fits lo hi s l t) (last : l.getLast? = some e) : hi e = t := by
  induction l generalizing s with
  | nil => cases last
  | cons q l ih =>
    cases l with
    | nil =>
      cases last
      exact fits.2
    | cons r l => exact ih fits.2 (by rwa [getLast?_cons_cons] at last)
end NetbsdAvr32.Spans
