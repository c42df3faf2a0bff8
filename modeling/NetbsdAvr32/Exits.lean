import NetbsdAvr32.Outcome

-- Rules for a computation that can leave early: what holds where it leaves, and where it goes on.
namespace NetbsdAvr32

def Exits {ε α : Type} (left : ε → Prop) (on : α → Prop) : Except ε α → Prop
  | .error e => left e
  | .ok a => on a

namespace Exits
variable {ε α β : Type} {left left' : ε → Prop} {on on' : α → Prop} {next : β → Prop} {x : Except ε α} {f : α → Except ε β}

theorem bind (first : Exits left on x) (second : ∀ a,on a → Exits left next (f a)) : Exits left next (x >>= f) := by
  cases x with
  | error e => exact first
  | ok a => exact second a first

theorem mono (exits : Exits left on x) (out : ∀ e,left e → left' e) (more : ∀ a,on a → on' a) : Exits left' on' x := by
  cases x with
  | error e => exact out e exits
  | ok a => exact more a exits

theorem and {left₂ : ε → Prop} {on₂ : α → Prop} (one : Exits left on x) (two : Exits left₂ on₂ x) : Exits (fun e => left e ∧ left₂ e) (fun a => on a ∧ on₂ a) x := by
  cases x with
  | error e => exact ⟨one,two⟩
  | ok a => exact ⟨one,two⟩

theorem ok (exits : Exits left on x) {a : α} (ran : x = .ok a) : on a := by
  subst ran
  exact exits

theorem error (exits : Exits left on x) {e : ε} (ran : x = .error e) : left e := by
  subst ran
  exact exits
end Exits
end NetbsdAvr32
