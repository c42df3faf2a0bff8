import Mathlib.Algebra.GroupWithZero.Nat
import Mathlib.Algebra.Ring.Int.Defs
import Mathlib.Data.List.Nodup

-- Singly linked chains that are edited through pointers to links: a slot is a
-- list head or the link of a cell, and `link` gives what is stored in it.
namespace NetbsdAvr32.Linked
open Function List

inductive Slot (κ ι : Type) where
  | head (k : κ)
  | next (p : ι)
  deriving DecidableEq, Repr

variable {κ ι : Type} {link link' : Slot κ ι → Option ι} {slot : Slot κ ι} {p : ι} {l r : List ι}

def Seg (link : Slot κ ι → Option ι) : Slot κ ι → List ι → Prop
  | _, [] => True
  | slot, p :: rest => link slot = some p ∧ Seg link (.next p) rest

def lastSlot (slot : Slot κ ι) : List ι → Slot κ ι
  | [] => slot
  | p :: rest => lastSlot (.next p) rest

def Chain (link : Slot κ ι → Option ι) (slot : Slot κ ι) (l : List ι) : Prop :=
  Seg link slot l ∧ link (lastSlot slot l) = none

@[simp] theorem lastSlot_nil : lastSlot slot [] = slot := rfl
@[simp] theorem lastSlot_cons : lastSlot slot (p :: r) = lastSlot (.next p) r := rfl

@[simp] theorem lastSlot_append : lastSlot slot (l ++ r) = lastSlot (lastSlot slot l) r := by
  induction l generalizing slot with
  | nil => rfl
  | cons p l ih => exact ih

theorem lastSlot_mem (slot : Slot κ ι) (l : List ι) : lastSlot slot l = slot ∨ ∃ p ∈ l, lastSlot slot l = .next p := by
  induction l generalizing slot with
  | nil => exact .inl rfl
  | cons p l ih =>
    rcases ih (.next p) with same | ⟨q,member,same⟩
    · exact .inr ⟨p,by simp,same⟩
    · exact .inr ⟨q,by simp [member],same⟩

theorem seg_append : Seg link slot (l ++ r) ↔ Seg link slot l ∧ Seg link (lastSlot slot l) r := by
  induction l generalizing slot with
  | nil => simp [Seg]
  | cons p l ih => simp [Seg,ih,and_assoc]

theorem chain_append : Chain link slot (l ++ r) ↔ Seg link slot l ∧ Chain link (lastSlot slot l) r := by
  simp [Chain,seg_append,and_assoc]

theorem chain_cons : Chain link slot (p :: r) ↔ link slot = some p ∧ Chain link (.next p) r := by
  simp [Chain,Seg,and_assoc]

theorem chain_nil : Chain link slot [] ↔ link slot = none := by simp [Chain,Seg]

theorem Chain.first (chain : Chain link slot l) : link slot = l.head? := by
  cases l with
  | nil => exact chain_nil.mp chain
  | cons p r => exact (chain_cons.mp chain).1

theorem Seg.frame (seg : Seg link slot l) (nodup : l.Nodup) (off : ∀ p ∈ l, slot ≠ .next p)
    (same : ∀ x, x ≠ lastSlot slot l → x = slot ∨ (∃ p ∈ l, x = .next p) → link' x = link x) : Seg link' slot l := by
  induction l generalizing slot with
  | nil => trivial
  | cons p l ih =>
    obtain ⟨first,rest⟩ := seg
    obtain ⟨out,nodup⟩ := nodup_cons.mp nodup
    have apart : slot ≠ lastSlot slot (p :: l) := by
      rcases lastSlot_mem (.next p) l with equal | ⟨q,member,equal⟩
      · rw [lastSlot_cons,equal]
        exact off p (by simp)
      rw [lastSlot_cons,equal]
      exact off q (by simp [member])
    refine ⟨(same slot apart (.inl rfl)).trans first,ih rest nodup ?_ ?_⟩
    · intro q member equal
      cases equal
      exact out member
    intro x other place
    refine same x other (.inr ?_)
    rcases place with rfl | ⟨q,member,rfl⟩
    · exact ⟨p,by simp,rfl⟩
    · exact ⟨q,by simp [member],rfl⟩

theorem Chain.frame (chain : Chain link slot l) (first : link' slot = link slot)
    (same : ∀ p ∈ l, link' (.next p) = link (.next p)) : Chain link' slot l := by
  induction l generalizing slot with
  | nil => exact chain_nil.mpr (first.trans (chain_nil.mp chain))
  | cons p l ih =>
    obtain ⟨here,rest⟩ := chain_cons.mp chain
    refine chain_cons.mpr ⟨first.trans here,ih rest (same p (by simp)) ?_⟩
    intro q member
    exact same q (by simp [member])

theorem Chain.reseat {slot' : Slot κ ι} (chain : Chain link slot l) (first : link' slot' = link slot)
    (same : ∀ p ∈ l, link' (.next p) = link (.next p)) : Chain link' slot' l := by
  cases l with
  | nil => exact chain_nil.mpr (first.trans (chain_nil.mp chain))
  | cons p l =>
    obtain ⟨here,rest⟩ := chain_cons.mp chain
    refine chain_cons.mpr ⟨first.trans here,rest.frame (same p (by simp)) ?_⟩
    intro q member
    exact same q (by simp [member])

theorem Chain.push {slot' : Slot κ ι} (chain : Chain link slot l) (first : link' slot' = some p) (next : link' (.next p) = link slot)
    (same : ∀ q ∈ l, link' (.next q) = link (.next q)) : Chain link' slot' (p :: l) :=
  chain_cons.mpr ⟨first,chain.reseat next same⟩

theorem Chain.pop {slot' : Slot κ ι} (chain : Chain link slot (p :: r)) (first : link' slot' = link (.next p))
    (same : ∀ q ∈ r, link' (.next q) = link (.next q)) : Chain link' slot' r :=
  (chain_cons.mp chain).2.reseat first same

theorem Chain.splice (chain : Chain link slot (l ++ r)) (nodup : l.Nodup) (off : ∀ p ∈ l, slot ≠ .next p)
    (same : ∀ x, x ≠ lastSlot slot l → x = slot ∨ (∃ p ∈ l, x = .next p) → link' x = link x)
    (tail : Chain link' (lastSlot slot l) r') : Chain link' slot (l ++ r') :=
  chain_append.mpr ⟨(chain_append.mp chain).1.frame nodup off same,tail⟩

theorem lastSlot_off (nodup : (l ++ r).Nodup) (off : ∀ q ∈ l ++ r, slot ≠ .next q) (member : p ∈ r) :
    Slot.next p ≠ lastSlot slot l := by
  intro equal
  rcases lastSlot_mem slot l with same | ⟨q,before,same⟩
  · rw [same] at equal
    exact off p (by simp [member]) equal.symm
  rw [same] at equal
  cases equal
  exact (nodup_append.mp nodup).2.2 p before p member rfl

theorem Chain.unlink (chain : Chain link slot (l ++ p :: r)) (nodup : (l ++ p :: r).Nodup)
    (off : ∀ q ∈ l ++ p :: r, slot ≠ .next q) (here : link' (lastSlot slot l) = link (.next p))
    (same : ∀ x, x ≠ lastSlot slot l → x ≠ .next p → link' x = link x) : Chain link' slot (l ++ r) := by
  have left := (nodup_append.mp nodup).1
  have right := (nodup_cons.mp (nodup_append.mp nodup).2.1).1
  have out : p ∉ l := fun member => (nodup_append.mp nodup).2.2 p member p (by simp) rfl
  have tail := (chain_cons.mp (chain_append.mp chain).2).2
  have kept : ∀ q ∈ r, link' (.next q) = link (.next q) := by
    intro q member
    refine same _ (lastSlot_off nodup off (by simp [member])) ?_
    intro equal
    cases equal
    exact right member
  refine chain.splice left (fun q member => off q (by simp [member])) ?_ ?_
  · intro x other place
    refine same x other ?_
    rintro rfl
    rcases place with equal | ⟨q,member,equal⟩
    · exact off p (by simp) equal.symm
    cases equal
    exact out member
  cases r with
  | nil => exact chain_nil.mpr (here.trans (chain_nil.mp tail))
  | cons a r =>
    obtain ⟨first,rest⟩ := chain_cons.mp tail
    refine chain_cons.mpr ⟨here.trans first,rest.frame (kept a (by simp)) ?_⟩
    intro q member
    exact kept q (by simp [member])

theorem Chain.insert (chain : Chain link slot (l ++ r)) (nodup : (l ++ r).Nodup) (off : ∀ q ∈ l ++ r, slot ≠ .next q)
    (apart : slot ≠ .next p) (new : p ∉ l ++ r) (here : link' (lastSlot slot l) = some p)
    (behind : link' (.next p) = r.head?) (same : ∀ x, x ≠ lastSlot slot l → x ≠ .next p → link' x = link x) :
    Chain link' slot (l ++ p :: r) := by
  have tail := (chain_append.mp chain).2
  have kept : ∀ q ∈ r, link' (.next q) = link (.next q) := by
    intro q member
    refine same _ (lastSlot_off nodup off member) ?_
    intro equal
    cases equal
    exact new (by simp [member])
  refine chain.splice (nodup_append.mp nodup).1 (fun q member => off q (by simp [member])) ?_ ?_
  · intro x other place
    refine same x other ?_
    rintro rfl
    rcases place with equal | ⟨q,member,equal⟩
    · exact apart equal.symm
    cases equal
    exact new (by simp [member])
  refine chain_cons.mpr ⟨here,?_⟩
  cases r with
  | nil => exact chain_nil.mpr behind
  | cons a r =>
    have rest := (chain_cons.mp tail).2
    refine chain_cons.mpr ⟨behind,rest.frame (kept a (by simp)) ?_⟩
    intro q member
    exact kept q (by simp [member])

theorem chain_range {κ : Type} {link : Slot κ Nat → Option Nat} {n : Nat} (next : ∀ i,link (.next i) = if i + 1 < n then some (i + 1) else none) (m : Nat) {i : Nat}
    {slot : Slot κ Nat} (first : link slot = if i < n then some i else none) (all : i + m = n) : Chain link slot (range' i m) := by
  induction m generalizing i slot with
  | zero =>
    rw [if_neg (by omega)] at first
    exact chain_nil.mpr first
  | succ m ih =>
    rw [if_pos (by omega)] at first
    exact chain_cons.mpr ⟨first,ih (next i) (by omega)⟩

theorem Chain.unique (one : Chain link slot l) (two : Chain link slot r) : l = r := by
  induction l generalizing slot r with
  | nil =>
    have first := two.first
    rw [one.first] at first
    exact (head?_eq_none_iff.mp first.symm).symm
  | cons p l ih =>
    obtain ⟨here,rest⟩ := chain_cons.mp one
    cases r with
    | nil =>
      rw [chain_nil.mp two] at here
      cases here
    | cons q r =>
      obtain ⟨there,rest'⟩ := chain_cons.mp two
      rw [here] at there
      cases there
      rw [ih rest rest']

def walkSlots (link : Slot κ ι → Option ι) : Nat → Slot κ ι → List ι
  | 0, _ => []
  | fuel + 1, slot => match link slot with
    | none => []
    | some p => p :: walkSlots link fuel (.next p)

theorem Chain.walk (chain : Chain link slot l) (enough : l.length < fuel) : walkSlots link fuel slot = l := by
  induction l generalizing slot fuel with
  | nil =>
    cases fuel with
    | zero => rfl
    | succ fuel => simp [walkSlots,chain_nil.mp chain]
  | cons p l ih =>
    obtain ⟨here,rest⟩ := chain_cons.mp chain
    cases fuel with
    | zero => simp at enough
    | succ fuel => simp [walkSlots,here,ih rest (by simpa using enough)]
end NetbsdAvr32.Linked
