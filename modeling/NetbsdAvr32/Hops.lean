import Mathlib.Logic.Basic

-- Following a partial function: a graph with at most one edge out of a node.
namespace NetbsdAvr32.Linked
variable {ι : Type} {w w' : ι → Option ι} {p q a b : ι} {n m : Nat}

def hops (w : ι → Option ι) : Nat → ι → Option ι
  | 0, p => some p
  | n + 1, p => (w p).bind (hops w n)

def Acyclic (w : ι → Option ι) : Prop := ∀ p n, hops w (n + 1) p ≠ some p
@[simp] theorem hops_zero : hops w 0 p = some p := rfl

theorem hops_succ : hops w (n + 1) p = some q ↔ ∃ a, w p = some a ∧ hops w n a = some q := by
  simp [hops,Option.bind_eq_some_iff]

theorem hops_add : hops w (n + m) p = (hops w n p).bind (hops w m) := by
  induction n generalizing p with
  | zero => simp
  | succ n ih =>
    rw [Nat.succ_add]
    cases here : w p with
    | none => simp [hops,here]
    | some a => simp [hops,here,ih]

theorem hops_last : hops w (n + 1) p = (hops w n p).bind w := by
  rw [hops_add]
  congr 1
  funext a
  simp [hops]

theorem hops_stuck (stuck : hops w n p = none) (more : n ≤ m) : hops w m p = none := by
  obtain ⟨d,rfl⟩ := Nat.exists_eq_add_of_le more
  rw [hops_add,stuck,Option.bind_none]

theorem hops_mono (sub : ∀ p q, w' p = some q → w p = some q) (path : hops w' n p = some q) : hops w n p = some q := by
  induction n generalizing p with
  | zero => exact path
  | succ n ih =>
    obtain ⟨a,edge,rest⟩ := hops_succ.mp path
    exact hops_succ.mpr ⟨a,sub p a edge,ih rest⟩

theorem acyclic_mono (acyclic : Acyclic w) (sub : ∀ p q, w' p = some q → w p = some q) : Acyclic w' :=
  fun p n cycle => acyclic p n (hops_mono sub cycle)

theorem acyclic_nil (none : ∀ p, w p = none) : Acyclic w := by
  intro p n cycle
  obtain ⟨a,edge,_⟩ := hops_succ.mp cycle
  rw [none] at edge
  cases edge

theorem hops_before (sub : ∀ p q, w' p = some q → w p = some q ∨ p = a) (path : hops w' n p = some a) : ∃ m, hops w m p = some a := by
  induction n generalizing p with
  | zero => exact ⟨0,path⟩
  | succ n ih =>
    obtain ⟨q,edge,rest⟩ := hops_succ.mp path
    rcases sub p q edge with old | rfl
    · obtain ⟨m,rest⟩ := ih rest
      exact ⟨m + 1,hops_succ.mpr ⟨q,old,rest⟩⟩
    · exact ⟨0,rfl⟩

theorem hops_avoid (sub : ∀ p q, w' p = some q → w p = some q ∨ p = a) (path : hops w' n p = some q) :
    hops w n p = some q ∨ ∃ i, hops w' i p = some a := by
  induction n generalizing p with
  | zero => exact .inl path
  | succ n ih =>
    obtain ⟨b,edge,rest⟩ := hops_succ.mp path
    rcases sub p b edge with old | rfl
    · rcases ih rest with whole | ⟨i,meets⟩
      · exact .inl (hops_succ.mpr ⟨b,old,whole⟩)
      · exact .inr ⟨i + 1,hops_succ.mpr ⟨b,edge,meets⟩⟩
    · exact .inr ⟨0,rfl⟩

theorem acyclic_insert (acyclic : Acyclic w) (fresh : w a = none)
    (sub : ∀ p q, w' p = some q → w p = some q ∨ p = a ∧ q = b) (apart : ∀ m, hops w m b ≠ some a) : Acyclic w' := by
  have sub' : ∀ p q, w' p = some q → w p = some q ∨ p = a := fun p q edge => (sub p q edge).imp_right And.left
  -- A cycle through `a` goes on from `b`.
  have around : ∀ n, hops w' (n + 1) a ≠ some a := by
    intro n cycle
    obtain ⟨q,edge,rest⟩ := hops_succ.mp cycle
    rcases sub a q edge with old | ⟨_,rfl⟩
    · rw [fresh] at old
      cases old
    obtain ⟨m,path⟩ := hops_before sub' rest
    exact apart m path
  intro p n cycle
  rcases hops_avoid sub' cycle with old | ⟨i,meets⟩
  · exact acyclic p n old
  have turned : hops w' (n + 1 + i) p = hops w' (i + (n + 1)) p := by rw [Nat.add_comm]
  rw [hops_add,cycle,hops_add,meets,Option.bind_some,Option.bind_some,meets] at turned
  exact around n turned.symm
end NetbsdAvr32.Linked
