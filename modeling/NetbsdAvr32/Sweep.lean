import NetbsdAvr32.Outcome
import Mathlib.Tactic.Common

-- Loops `for (i = first; i <= last; i += by)` whose body may break.
namespace NetbsdAvr32.Sweep

inductive Round (σ : Type) where
  | next (s : σ)
  | stop (s : σ)

-- Returns the index and the state with which the loop is left.
def forLoop (last stride : Nat) (body : Nat → σ → Except Halt (Round σ)) : Nat → Nat → σ → Except Halt (Nat × σ)
  | 0, _, _ => .error .fuel
  | rounds + 1, i, s =>
    if i ≤ last then do
      match ← body i s with
      | .next s => forLoop last stride body rounds (i + stride) s
      | .stop s => .ok (i,s)
    else .ok (i,s)

variable {last stride : Nat} {body : Nat → σ → Except Halt (Round σ)}

-- What the body has to establish in the round with index 1 + j * stride.
def Carries (body : Nat → σ → Except Halt (Round σ)) (stride : Nat) (inv left : Nat → σ → Prop) (j : Nat) (s : σ) : Prop :=
  (∃ t, body (1 + j * stride) s = .ok (.next t) ∧ inv (j + 1) t) ∨
    ∃ t, body (1 + j * stride) s = .ok (.stop t) ∧ left j t

-- The loop visits 1 + j * stride for `j` from `from` to `total`: the invariant
-- holds at its end, or `left` at the round that broke it.
theorem forLoop_rule {inv left : Nat → σ → Prop} {total : Nat} (positive : 0 < stride)
    (covers : last = total * stride) (round : ∀ j s, j < total → inv j s → Carries body stride inv left j s)
    (j : Nat) (inside : j ≤ total) (start : inv j s) (rounds : Nat) (enough : total < j + rounds) :
    ∃ k t, forLoop last stride body rounds (1 + j * stride) s = .ok (1 + k * stride,t) ∧ k ≤ total ∧
      (k = total ∧ inv k t ∨ k < total ∧ left k t) := by
  induction rounds generalizing j s with
  | zero => omega
  | succ rounds ih =>
    rw [forLoop]
    rcases Nat.lt_or_eq_of_le inside with more | rfl
    · have below : 1 + j * stride ≤ last := by
        have := Nat.mul_le_mul_right stride more
        rw [Nat.succ_mul] at this
        omega
      rw [if_pos below]
      rcases round j s more start with ⟨t,ran,held⟩ | ⟨t,ran,held⟩
      · rw [ran,Outcome.ok_bind]
        have next : 1 + j * stride + stride = 1 + (j + 1) * stride := by
          rw [Nat.succ_mul]
          omega
        rw [next]
        exact ih (j + 1) more held (by omega)
      rw [ran,Outcome.ok_bind]
      exact ⟨j,t,rfl,inside,.inr ⟨more,held⟩⟩
    rw [if_neg (by omega)]
    exact ⟨j,s,rfl,inside,.inl ⟨rfl,start⟩⟩

-- The call returns with this, or it panics: every access is a defined one and
-- no loop runs out of its rounds.
def Stays (post : α → Prop) : Except Halt α → Prop
  | .ok a => post a
  | .error (.panic _) => True
  | .error (.fault _) => False
  | .error .fuel => False

theorem Stays.bind {first : α → Prop} {post : β → Prop} {x : Except Halt α} {f : α → Except Halt β} (stays : Stays first x)
    (rest : ∀ a, first a → Stays post (f a)) : Stays post (x >>= f) := by
  cases x with
  | ok a => exact rest a stays
  | error halt =>
    cases halt with
    | panic text => trivial
    | fault text => exact stays.elim
    | fuel => exact stays.elim

theorem Stays.mono {first post : α → Prop} {x : Except Halt α} (stays : Stays first x) (weaker : ∀ a, first a → post a) : Stays post x := by
  cases x with
  | ok a => exact weaker a stays
  | error halt =>
    cases halt with
    | panic text => trivial
    | fault text => exact stays.elim
    | fuel => exact stays.elim

-- What a round leaves: the invariant of the next one, or the end of the loop.
def Leaves (inv : Nat → σ → Prop) (left : σ → Prop) (j : Nat) : Round σ → Prop
  | .next s => inv (j + 1) s
  | .stop s => left s

theorem forLoop_stays {inv : Nat → σ → Prop} {left : σ → Prop} {total : Nat} (positive : 0 < stride) (covers : last = total * stride)
    (round : ∀ j s, j < total → inv j s → Stays (Leaves inv left j) (body (1 + j * stride) s))
    (j : Nat) (inside : j ≤ total) (start : inv j s) (rounds : Nat) (enough : total < j + rounds) :
    Stays (fun r => inv total r.2 ∨ left r.2) (forLoop last stride body rounds (1 + j * stride) s) := by
  induction rounds generalizing j s with
  | zero => omega
  | succ rounds ih =>
    rw [forLoop]
    rcases Nat.lt_or_eq_of_le inside with more | rfl
    · have below : 1 + j * stride ≤ last := by
        have := Nat.mul_le_mul_right stride more
        rw [Nat.succ_mul] at this
        omega
      have next : 1 + j * stride + stride = 1 + (j + 1) * stride := by
        rw [Nat.succ_mul]
        omega
      rw [if_pos below]
      refine (round j s more start).bind fun r held => ?_
      cases r with
      | next t =>
        rw [next]
        exact ih (j + 1) more held (by omega)
      | stop t => exact .inr held
    rw [if_neg (by omega)]
    exact .inl start

def Round.state : Round σ → σ
  | .next s => s
  | .stop s => s

theorem forLoop_keeps {p : σ → Prop} (keeps : ∀ i s r, p s → body i s = .ok r → p r.state) (rounds : Nat) :
    ∀ i s k t, p s → forLoop last stride body rounds i s = .ok (k,t) → p t := by
  induction rounds with
  | zero => exact fun _ _ _ _ _ ran => by cases ran
  | succ rounds ih =>
    intro i s k t held ran
    rw [forLoop] at ran
    split_ifs at ran with more
    · obtain ⟨r,round,ran⟩ := Outcome.bind_ok ran
      have kept := keeps i s r held round
      cases r with
      | next u => exact ih _ _ _ _ kept ran
      | stop u =>
        cases ran
        exact kept
    cases ran
    exact held
end NetbsdAvr32.Sweep
