import Mathlib.Algebra.GroupWithZero.Nat
import Mathlib.Algebra.Ring.Int.Defs
import Mathlib.Tactic.Common

-- A free-running counter of w bits beside a compare register: a request
-- becomes pending when the two are equal, and writing the register clears it.
namespace NetbsdAvr32.MatchTimer
open BitVec Nat

structure Timer (w : Nat) where
  boot : BitVec w
  now : Nat
  compare : BitVec w
  pending : Option Nat
  deriving DecidableEq

variable {w : Nat} {t : Timer w} {v : BitVec w} {a b n goal : Nat}

def Timer.reads (t : Timer w) (cycle : Nat) : BitVec w := t.boot + BitVec.ofNat w cycle
def Timer.count (t : Timer w) : BitVec w := t.reads t.now

def Timer.noticed (t : Timer w) : Timer w :=
  if t.pending = none ∧ t.count = t.compare then {t with pending := some t.now} else t

def Timer.cycle (t : Timer w) : Timer w := {t with now := t.now + 1}.noticed

def Timer.elapse : Nat → Timer w → Timer w
  | 0,t => t
  | n+1,t => elapse n t.cycle

def Timer.write (v : BitVec w) (t : Timer w) : Timer w := {t with compare := v, pending := none}.noticed

-- `goal` is the cycle of the request: it stands since then, or it comes then.
structure Armed (t : Timer w) (goal : Nat) : Prop where
  due : t.reads goal = t.compare
  when : t.pending = some goal ∧ goal ≤ t.now ∨ t.pending = none ∧ t.now < goal ∧ goal < t.now + 2 ^ w

theorem ofNat_sub (le : a ≤ b) : BitVec.ofNat w b - BitVec.ofNat w a = BitVec.ofNat w (b - a) := by
  have split : BitVec.ofNat w b = BitVec.ofNat w (b - a) + BitVec.ofNat w a := by
    rw [← ofNat_add,Nat.sub_add_cancel le]
  rw [split,add_sub_cancel]

theorem reads_sub (t : Timer w) (le : a ≤ b) : t.reads b - t.reads a = BitVec.ofNat w (b - a) := by
  have split : t.reads b = BitVec.ofNat w (b - a) + t.reads a := by
    unfold Timer.reads
    rw [← ofNat_sub le,BitVec.add_comm t.boot (BitVec.ofNat w a),← BitVec.add_assoc,BitVec.sub_add_cancel,BitVec.add_comm]
  rw [split,BitVec.add_sub_cancel]

theorem reads_ne (t : Timer w) (lt : a < b) (close : b < a + 2 ^ w) : t.reads a ≠ t.reads b := by
  intro same
  have zero := reads_sub t (le_of_lt lt)
  rw [same,BitVec.sub_self] at zero
  have value := congrArg BitVec.toNat zero
  rw [toNat_ofNat,toNat_ofNat,zero_mod,mod_eq_of_lt (by omega)] at value
  omega

@[simp] theorem noticed_boot (t : Timer w) : t.noticed.boot = t.boot := by unfold Timer.noticed; split <;> rfl
@[simp] theorem noticed_now (t : Timer w) : t.noticed.now = t.now := by unfold Timer.noticed; split <;> rfl
@[simp] theorem noticed_compare (t : Timer w) : t.noticed.compare = t.compare := by unfold Timer.noticed; split <;> rfl

@[simp] theorem cycle_boot (t : Timer w) : t.cycle.boot = t.boot := noticed_boot _
@[simp] theorem cycle_now (t : Timer w) : t.cycle.now = t.now + 1 := noticed_now _
@[simp] theorem cycle_compare (t : Timer w) : t.cycle.compare = t.compare := noticed_compare _

@[simp] theorem write_boot (v : BitVec w) (t : Timer w) : (t.write v).boot = t.boot := noticed_boot _
@[simp] theorem write_now (v : BitVec w) (t : Timer w) : (t.write v).now = t.now := noticed_now _
@[simp] theorem write_compare (v : BitVec w) (t : Timer w) : (t.write v).compare = v := noticed_compare _

@[simp] theorem elapse_boot (n : Nat) (t : Timer w) : (t.elapse n).boot = t.boot := by
  induction n generalizing t with
  | zero => rfl
  | succ n ih => exact (ih t.cycle).trans (cycle_boot t)

@[simp] theorem elapse_now (n : Nat) (t : Timer w) : (t.elapse n).now = t.now + n := by
  induction n generalizing t with
  | zero => rfl
  | succ n ih =>
    have := ih t.cycle
    rw [cycle_now] at this
    show (t.cycle.elapse n).now = _
    omega

@[simp] theorem elapse_compare (n : Nat) (t : Timer w) : (t.elapse n).compare = t.compare := by
  induction n generalizing t with
  | zero => rfl
  | succ n ih => exact (ih t.cycle).trans (cycle_compare t)

theorem reads_add (t : Timer w) (a b : Nat) : t.reads (a + b) = t.reads a + BitVec.ofNat w b := by
  unfold Timer.reads
  rw [BitVec.ofNat_add,BitVec.add_assoc]

theorem reads_turn (t : Timer w) (a : Nat) : t.reads (a + 2 ^ w) = t.reads a := by
  have turn : BitVec.ofNat w (2 ^ w) = 0#w := by
    apply eq_of_toNat_eq
    rw [toNat_ofNat,toNat_ofNat,mod_self,zero_mod]
  rw [reads_add,turn,BitVec.add_zero]

@[simp] theorem reads_elapse (n a : Nat) (t : Timer w) : (t.elapse n).reads a = t.reads a := by
  unfold Timer.reads
  rw [elapse_boot]

@[simp] theorem reads_write (v : BitVec w) (a : Nat) (t : Timer w) : (t.write v).reads a = t.reads a := by
  unfold Timer.reads
  rw [write_boot]

theorem noticed_armed (due : t.reads goal = t.compare) (clear : t.pending = none) (low : t.now ≤ goal) (high : goal < t.now + 2 ^ w) :
    Armed t.noticed goal := by
  by_cases at_ : goal = t.now
  · subst at_
    have noticed : t.noticed = {t with pending := some t.now} := if_pos ⟨clear,due⟩
    rw [noticed]
    exact ⟨due,.inl ⟨rfl,le_refl _⟩⟩
  have later : t.now < goal := by omega
  have same : t.noticed = t := if_neg fun both => reads_ne t later high (both.2.trans due.symm)
  rw [same]
  exact ⟨due,.inr ⟨clear,later,high⟩⟩

theorem Armed.cycle (armed : Armed t goal) : Armed t.cycle goal := by
  rcases armed.when with ⟨raised,past⟩ | ⟨clear,later,high⟩
  · have same : t.cycle = {t with now := t.now + 1} := if_neg fun both => by
      have none : t.pending = none := both.1
      rw [raised] at none
      cases none
    rw [same]
    exact ⟨armed.due,.inl ⟨raised,le_succ_of_le past⟩⟩
  · exact noticed_armed (t := {t with now := t.now + 1}) armed.due clear later (by dsimp only; omega)

theorem Armed.elapse (armed : Armed t goal) (n : Nat) : Armed (t.elapse n) goal := by
  induction n generalizing t with
  | zero => exact armed
  | succ n ih => exact ih armed.cycle

theorem write_armed (due : t.reads goal = v) (low : t.now ≤ goal) (high : goal < t.now + 2 ^ w) : Armed (t.write v) goal :=
  noticed_armed (t := {t with compare := v, pending := none}) due rfl low high

theorem Armed.raised (armed : Armed t goal) (pending : t.pending = some n) : goal = n := by
  rcases armed.when with ⟨raised,_⟩ | ⟨clear,_⟩
  · exact Option.some.inj (raised.symm.trans pending)
  rw [clear] at pending
  cases pending

theorem Armed.ahead (armed : Armed t goal) : t.pending.isSome ∨ (t.now < goal ∧ (t.compare - t.count).toNat = goal - t.now) := by
  rcases armed.when with ⟨raised,_⟩ | ⟨_,later,high⟩
  · exact .inl (by rw [raised]; rfl)
  refine .inr ⟨later,?_⟩
  have gap : t.compare - t.count = BitVec.ofNat w (goal - t.now) := by
    rw [← armed.due]
    exact reads_sub t (le_of_lt later)
  rw [gap,toNat_ofNat,mod_eq_of_lt (by omega)]

theorem exists_due (t : Timer w) (v : BitVec w) : ∃ goal, t.reads goal = v ∧ t.now ≤ goal ∧ goal < t.now + 2 ^ w := by
  refine ⟨t.now + (v - t.count).toNat,?_,Nat.le_add_right _ _,Nat.add_lt_add_left (v - t.count).isLt _⟩
  unfold Timer.reads
  rw [BitVec.ofNat_add,← BitVec.add_assoc]
  show t.count + BitVec.ofNat w (v - t.count).toNat = v
  rw [BitVec.ofNat_toNat,BitVec.setWidth_eq,BitVec.add_comm,BitVec.sub_add_cancel]
end NetbsdAvr32.MatchTimer
