import Mathlib.Algebra.GroupWithZero.Nat
import Mathlib.Algebra.Ring.Int.Defs
import Mathlib.Logic.Relation

namespace NetbsdAvr32

-- How a call can fail to return: an explicit panic, an access the language
-- leaves undefined, or a loop that used up the rounds it was given.
inductive Halt where
  | panic (text : String)
  | fault (text : String)
  | fuel
  deriving DecidableEq, Repr

namespace Outcome

@[simp] theorem ok_bind (a : α) (f : α → Except ε β) : (Except.ok a >>= f) = f a := rfl
@[simp] theorem error_bind (e : ε) (f : α → Except ε β) : (Except.error e >>= f) = .error e := rfl
@[simp] theorem some_bind (a : α) (f : α → Option β) : (some a >>= f) = f a := rfl
@[simp] theorem none_bind (f : α → Option β) : ((none : Option α) >>= f) = none := rfl

variable {x : Except ε α} {a : Option β}

theorem bind_ok {f : α → Except ε β} (ran : (x >>= f) = .ok r) :
    ∃ a, x = .ok a ∧ f a = .ok r := by
  cases x with
  | error e => cases ran
  | ok a => exact ⟨a,rfl,ran⟩

theorem bind_some {x : Option α} {f : α → Option β} (ran : (x >>= f) = some r) :
    ∃ a, x = some a ∧ f a = some r := by
  cases x with
  | none => cases ran
  | some a => exact ⟨a,rfl,ran⟩

-- The abstract call returns exactly when the concrete one does, and then the
-- two results stand in `rel`. Every way of not returning is one `none`.
def Simulates (rel : α → β → Prop) : Except ε α → Option β → Prop
  | .ok x, some y => rel x y
  | .error _, none => True
  | _, _ => False

variable {rel : α → β → Prop} {rel₁ : γ → δ → Prop}

theorem Simulates.bind {x : Except ε α} {a : Option β} (first : Simulates rel x a)
    (rest : ∀ p q, rel p q → Simulates rel₁ (f p) (g q)) : Simulates rel₁ (x >>= f) (a >>= g) := by
  cases x with
  | error e =>
    cases a with
    | none => trivial
    | some b => exact first.elim
  | ok p =>
    cases a with
    | none => exact first.elim
    | some q => exact rest p q first

theorem Simulates.failed (sim : Simulates rel x none) : ∃ e, x = .error e := by
  cases x with
  | error e => exact ⟨e,rfl⟩
  | ok p => exact sim.elim

section
variable (sim : Simulates rel x a)
include sim

theorem Simulates.forward (ran : x = .ok p) :
    ∃ q, a = some q ∧ rel p q := by
  subst x
  cases a with
  | none => exact sim.elim
  | some q => exact ⟨q,rfl,sim⟩

theorem Simulates.backward (ran : a = some q) :
    ∃ p, x = .ok p ∧ rel p q := by
  subst a
  cases x with
  | error e => exact sim.elim
  | ok p => exact ⟨p,rfl,sim⟩

theorem Simulates.pick {g : α → Except ε γ} 
    (rest : ∀ p q, rel p q → Simulates rel₂ (g p) (some q)) : Simulates rel₂ (x >>= g) a := by
  cases x with
  | error e =>
    cases a with
    | none => trivial
    | some b => exact sim.elim
  | ok p =>
    cases a with
    | none => exact sim.elim
    | some q => exact rest p q sim
end
end Outcome
end NetbsdAvr32
