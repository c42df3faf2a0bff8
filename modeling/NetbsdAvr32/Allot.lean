import Mathlib.Data.List.Perm.Subperm
import NetbsdAvr32.Slots

-- The numbers below a bound, each on exactly one of several lists.
namespace NetbsdAvr32.Allot
open Function List
variable {κ : Type} [DecidableEq κ] {n x y : Nat} {cells : κ → List Nat} {a b k : κ} {l r : List Nat}

structure Allot (n : Nat) (cells : κ → List Nat) : Prop where
  nodup : ∀ k,(cells k).Nodup
  below : ∀ k,∀ x ∈ cells k,x < n
  covers : ∀ x < n,∃ k,x ∈ cells k
  apart : ∀ j k x,x ∈ cells j → x ∈ cells k → j = k

def give (cells : κ → List Nat) (a : κ) (l : List Nat) (b : κ) (r : List Nat) : κ → List Nat := update (update cells a l) b r
@[simp] theorem give_to : give cells a l b r b = r := update_self ..

theorem give_from (ne : a ≠ b) : give cells a l b r a = l := by
  unfold give
  rw [update_of_ne ne,update_self]

theorem give_else (ne : k ≠ a) (ne' : k ≠ b) : give cells a l b r k = cells k := by
  unfold give
  rw [update_of_ne ne',update_of_ne ne]

theorem mem_give (ne : a ≠ b) (took : (cells a).Perm (x :: l)) (gave : r.Perm (x :: cells b)) (allot : Allot n cells) :
    y ∈ give cells a l b r k ↔ if y = x then k = b else y ∈ cells k := by
  have out : x ∉ l := (nodup_cons.mp (took.nodup_iff.mp (allot.nodup a))).1
  have here : x ∈ cells a := took.mem_iff.mpr mem_cons_self
  by_cases there : k = b
  · subst there
    rw [give_to,gave.mem_iff,mem_cons]
    split
    · next same => exact ⟨fun _ => rfl,fun _ => .inl same⟩
    · next other => exact ⟨fun mem => mem.resolve_left other,.inr⟩
  by_cases source : k = a
  · subst source
    rw [give_from ne]
    split
    · next same => exact ⟨fun mem => absurd (same ▸ mem) out,fun is => absurd is there⟩
    next other =>
    rw [took.mem_iff,mem_cons]
    exact ⟨.inr,fun mem => mem.resolve_left other⟩
  rw [give_else source there]
  split
  · next same =>
    subst same
    exact ⟨fun mem => absurd (allot.apart _ _ _ mem here) source,fun is => absurd is there⟩
  · exact Iff.rfl

theorem Allot.move (allot : Allot n cells) (ne : a ≠ b) (took : (cells a).Perm (x :: l)) (gave : r.Perm (x :: cells b)) : Allot n (give cells a l b r) := by
  have here : x ∈ cells a := took.mem_iff.mpr mem_cons_self
  have member (y : Nat) (k : κ) := mem_give (y := y) (k := k) ne took gave allot
  refine ⟨fun k => ?_,fun k y mem => ?_,fun y low => ?_,fun j k y left right => ?_⟩
  · by_cases there : k = b
    · subst there
      rw [give_to]
      refine gave.nodup_iff.mpr (nodup_cons.mpr ⟨?_,allot.nodup k⟩)
      exact fun mem => ne (allot.apart _ _ _ here mem)
    by_cases source : k = a
    · subst source
      rw [give_from ne]
      exact (nodup_cons.mp (took.nodup_iff.mp (allot.nodup k))).2
    rw [give_else source there]
    exact allot.nodup k
  · rw [member] at mem
    split at mem
    · next same => exact same ▸ allot.below a x here
    · exact allot.below k y mem
  · by_cases same : y = x
    · exact ⟨b,(member y b).mpr (by rw [if_pos same])⟩
    obtain ⟨k,mem⟩ := allot.covers y low
    exact ⟨k,(member y k).mpr (by rw [if_neg same]; exact mem)⟩
  rw [member] at left right
  split at left
  · next same =>
    rw [if_pos same] at right
    rw [left,right]
  next other =>
  rw [if_neg other] at right
  exact allot.apart j k y left right

theorem Allot.off (allot : Allot n cells) (mem : x ∈ cells a) (ne : k ≠ a) : x ∉ cells k := fun other => ne (allot.apart k a x other mem)

theorem start (n : Nat) (a : κ) : Allot n (update (fun _ => []) a (range n)) := by
  have member (k : κ) (x : Nat) : x ∈ update (fun _ : κ => ([] : List Nat)) a (range n) k ↔ k = a ∧ x < n := by
    by_cases same : k = a
    · subst same
      simp
    · simp [update_of_ne same,same]
  refine ⟨fun k => ?_,fun k x mem => ((member k x).mp mem).2,fun x low => ⟨a,(member a x).mpr ⟨rfl,low⟩⟩,fun j k x left right => ?_⟩
  · by_cases same : k = a
    · subst same
      rw [update_self]
      exact nodup_range
    rw [update_of_ne same]
    exact nodup_nil
  · rw [((member j x).mp left).1,((member k x).mp right).1]

theorem Allot.length_le (allot : Allot n cells) (k : κ) : (cells k).length ≤ n := by
  have sub : cells k ⊆ range n := fun x mem => mem_range.mpr (allot.below k x mem)
  have := (subperm_of_subset (allot.nodup k) sub).length_le
  rwa [length_range] at this

open Linked
variable {link link' : Slot κ Nat → Option Nat} {live : κ → Prop} {p : Nat} {rest : List Nat}

theorem Allot.shift (allot : Allot n cells) (chains : ∀ k,live k → Chain link (.head k) (cells k)) (ne : a ≠ b) (from_ : live a) (to_ : live b)
    (first : cells a = p :: rest) (left : link' (.head a) = link (.next p)) (head : link' (.head b) = some p) (next : link' (.next p) = link (.head b))
    (same : ∀ x,x ≠ .head a → x ≠ .head b → x ≠ .next p → link' x = link x) :
    ∀ k,live k → Chain link' (.head k) (give cells a rest b (p :: cells b) k) := by
  have here : p ∈ cells a := first ▸ mem_cons_self
  have kept (k : κ) (off : p ∉ cells k) : ∀ q ∈ cells k,link' (.next q) = link (.next q) := by
    refine fun q mem => same _ nofun nofun ?_
    rintro ⟨⟩
    exact off mem
  intro k lives
  by_cases target : k = b
  · subst target
    rw [give_to]
    exact (chains k to_).push head next (kept k (allot.off here (Ne.symm ne)))
  by_cases source : k = a
  · subst source
    rw [give_from ne]
    have nodup := allot.nodup k
    rw [first] at nodup
    refine (first ▸ chains k from_ : Chain link (.head k) (p :: rest)).pop left ?_
    refine fun q mem => same _ nofun nofun ?_
    rintro ⟨⟩
    exact (nodup_cons.mp nodup).1 mem
  rw [give_else source target]
  refine (chains k lives).frame (same _ ?_ ?_ nofun) (kept k (allot.off here source))
  · exact fun is => source (Slot.head.inj is)
  · exact fun is => target (Slot.head.inj is)
end NetbsdAvr32.Allot
