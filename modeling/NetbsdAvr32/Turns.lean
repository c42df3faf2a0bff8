import NetbsdAvr32.Outcome
import Mathlib.Tactic.Common

-- Loops that run until a turn of theirs returns.
namespace NetbsdAvr32.Turns

inductive Turn (σ ρ : Type) where
  | again (s : σ)
  | done (r : ρ)

def run (turn : σ → Except Halt (Turn σ ρ)) : Nat → σ → Except Halt ρ
  | 0, _ => .error .fuel
  | rounds + 1, s => do
    match ← turn s with
    | .again s => run turn rounds s
    | .done r => .ok r

def Reaches (turn : σ → Except Halt (Turn σ ρ)) (s t : σ) : Prop :=
  ∃ n, ∀ rounds, run turn (n + rounds) s = run turn rounds t

def Ends (turn : σ → Except Halt (Turn σ ρ)) (s : σ) (r : Except Halt ρ) : Prop :=
  ∃ n, ∀ rounds, run turn (n + rounds) s = r

variable {turn : σ → Except Halt (Turn σ ρ)} {s t u : σ} {r : Except Halt ρ}

theorem Reaches.refl (s : σ) : Reaches turn s s := ⟨0,fun rounds => by rw [Nat.zero_add]⟩

theorem Reaches.trans (first : Reaches turn s t) (second : Reaches turn t u) : Reaches turn s u := by
  obtain ⟨n,first⟩ := first
  obtain ⟨m,second⟩ := second
  exact ⟨n + m,fun rounds => by rw [Nat.add_assoc,first,second]⟩

theorem Reaches.ends (first : Reaches turn s t) (second : Ends turn t r) : Ends turn s r := by
  obtain ⟨n,first⟩ := first
  obtain ⟨m,second⟩ := second
  exact ⟨n + m,fun rounds => by rw [Nat.add_assoc,first,second]⟩

theorem run_succ (rounds : Nat) : run turn (1 + rounds) s = (do
    match ← turn s with
    | .again s => run turn rounds s
    | .done r => .ok r) := by
  rw [Nat.add_comm,run]

theorem reaches_again (took : turn s = .ok (.again t)) : Reaches turn s t :=
  ⟨1,fun rounds => by rw [run_succ,took,Outcome.ok_bind]⟩

theorem ends_done (took : turn s = .ok (.done a)) : Ends turn s (.ok a) :=
  ⟨1,fun rounds => by rw [run_succ,took,Outcome.ok_bind]⟩

theorem ends_error (took : turn s = .error e) : Ends turn s (.error e) :=
  ⟨1,fun rounds => by rw [run_succ,took,Outcome.error_bind]⟩

theorem run_more (n rounds : Nat) (ran : run turn n s = .ok a) : run turn (n + rounds) s = .ok a := by
  induction n generalizing s with
  | zero => cases ran
  | succ n ih =>
    rw [Nat.add_right_comm,run]
    obtain ⟨next,took,rest⟩ := Outcome.bind_ok ran
    rw [took,Outcome.ok_bind]
    cases next with
    | again t => exact ih rest
    | done r => exact rest

theorem Ends.returned (ends : Ends turn s r) (n : Nat) (ran : run turn n s = .ok a) : r = .ok a := by
  obtain ⟨m,ends⟩ := ends
  rw [← ends n,Nat.add_comm]
  exact run_more n m ran

theorem Ends.returns (ends : Ends turn s (.ok a)) : ∃ n, run turn n s = .ok a := by
  obtain ⟨n,ends⟩ := ends
  exact ⟨n,ends 0⟩
end NetbsdAvr32.Turns
