import Mathlib.Algebra.Order.BigOperators.Group.Finset
import Mathlib.Data.Finset.Max
import NetbsdAvr32.Turns

-- common/lib/libprop/prop_object.c: prop_object_release, and the pot_free of the types.
namespace NetbsdAvr32.PropRelease
open Turns Function List

-- What an object refers to, the last entry of pa_array or pd_array first. A leaf is
-- a bool, a number, a string, a data object or a key symbol.
inductive Body where
  | leaf
  | array (items : List Nat)
  | dictionary (entries : List (Nat × Nat))
  deriving DecidableEq

structure World where
  body : Nat → Body
  refcnt : Nat → Nat
  freed : List Nat

def stackInternElems : Nat := 16

-- _prop_stack_push. The elements past the sixteenth are allocated.
def propStackPush (malloc : Bool) (stack : List Nat) (obj : Nat) : Option (List Nat) :=
  if stack.length < stackInternElems then some (obj :: stack)
  else if malloc then some (obj :: stack) else none

def dropRef (world : World) (obj : Nat) : Except Halt (Nat × World) :=
  if obj ∈ world.freed then .error (.fault "freed object")
  else if world.refcnt obj = 0 then .error (.panic "ocnt != 0")
  else .ok (world.refcnt obj,{world with refcnt := update world.refcnt obj (world.refcnt obj - 1)})

def keepRef (world : World) (obj : Nat) : World :=
  {world with refcnt := update world.refcnt obj (world.refcnt obj + 1)}

def put (world : World) (obj : Nat) : World := {world with freed := obj :: world.freed}

-- prop_object_release of a key symbol, which has no references to drop.
def releaseKey (world : World) (pdk : Nat) : Except Halt World := do
  let (ocnt,world) ← dropRef world pdk
  if ocnt ≠ 1 then .ok world
  else
    match world.body pdk with
    | .leaf => .ok (put world pdk)
    | _ => .error (.fault "no key symbol")

def Body.last : Body → Option Nat
  | .leaf => none
  | .array items => items.head?
  | .dictionary entries => entries.head?.map Prod.snd

-- The count is lowered, and the key symbol of the last entry released. This is
-- pot_emergency_free as well.
def dropLast (world : World) (obj : Nat) : Except Halt World :=
  match world.body obj with
  | .leaf => .error (.fault "no pot_emergency_free")
  | .array [] | .dictionary [] => .error (.panic "count != 0")
  | .array (_ :: items) => .ok {world with body := update world.body obj (.array items)}
  | .dictionary ((pdk,_) :: entries) => releaseKey {world with body := update world.body obj (.dictionary entries)} pdk

inductive FreeRv where
  | done (world : World)
  | recurse (world : World) (stack : List Nat) (obj : Nat)
  | failed

def potFree (malloc : Bool) (stack : List Nat) (world : World) (obj : Nat) : Except Halt FreeRv :=
  match (world.body obj).last with
  | none => .ok (.done (put world obj))
  | some po =>
    match propStackPush malloc stack obj with
    | none => .ok .failed
    | some stack => do
      let world ← dropLast world obj
      .ok (.recurse world stack po)

-- The loop of prop_object_release_emergency, in which pot_free has no stack.
def walkDown : Nat → World → Nat → Option Nat → Except Halt (World × Option Nat)
  | 0, _, _, _ => .error .fuel
  | rounds + 1, world, obj, parent => do
    let (ocnt,world) ← dropRef world obj
    if ocnt ≠ 1 then .ok (world,parent)
    else
      match (world.body obj).last with
      | none => .ok (put world obj,parent)
      | some po => walkDown rounds (keepRef world obj) po (some obj)

def releaseEmergency (rounds : Nat) (world : World) (obj : Nat) : Except Halt World := do
  let (world,parent) ← walkDown rounds world obj none
  match parent with
  | none => .error (.panic "parent")
  | some parent => dropLast world parent

-- The loops of prop_object_release, with what each push answered, the last one first.
structure Loop where
  obj : Nat
  stack : List Nat
  world : World
  pushes : List Bool

def pop (stack : List Nat) (world : World) (pushes : List Bool) : Turn Loop (World × List Bool) :=
  match stack with
  | [] => .done (world,pushes)
  | obj :: stack => .again ⟨obj,stack,world,pushes⟩

def turn (malloc : Nat → Bool) (rounds : Nat) (s : Loop) : Except Halt (Turn Loop (World × List Bool)) := do
  let (ocnt,world) ← dropRef s.world s.obj
  if ocnt ≠ 1 then .ok (pop s.stack world s.pushes)
  else
    match ← potFree (malloc s.pushes.length) s.stack world s.obj with
    | .done world => .ok (pop s.stack world s.pushes)
    | .recurse world stack po => .ok (.again ⟨po,stack,keepRef world s.obj,true :: s.pushes⟩)
    | .failed => do
      let world ← releaseEmergency rounds (keepRef world s.obj) s.obj
      .ok (pop s.stack world (false :: s.pushes))

-- `malloc` is what _PROP_MALLOC would answer in each push. Returns the pushes as well.
def propObjectRelease (malloc : Nat → Bool) (rounds : Nat) (world : World) (obj : Nat) : Except Halt (World × List Bool) :=
  run (turn malloc rounds) rounds ⟨obj,[],world,[]⟩

open Finset

def Body.refs : Body → List Nat
  | .leaf => []
  | .array items => items
  | .dictionary entries => entries.flatMap fun entry => [entry.1,entry.2]

def references (objs : Finset Nat) (body : Nat → Body) (o : Nat) : Nat := ∑ p ∈ objs, (body p).refs.count o

-- An acyclic graph of objects, the references counted: those of the objects, those
-- that stay outside, and the one of the root that is to be released.
structure Graph (objs : Finset Nat) (outside rank : Nat → Nat) (root : Nat) (world : World) : Prop where
  fresh : world.freed = []
  rooted : root ∈ objs
  closed : ∀ p ∈ objs, ∀ o ∈ (world.body p).refs, o ∈ objs
  acyclic : ∀ p ∈ objs, ∀ o ∈ (world.body p).refs, rank o < rank p
  keys : ∀ p ∈ objs, ∀ entries, world.body p = .dictionary entries → ∀ entry ∈ entries, world.body entry.1 = .leaf
  counted : ∀ o ∈ objs, world.refcnt o = outside o + (if o = root then 1 else 0) + references objs world.body o
  used : ∀ o ∈ objs, 0 < world.refcnt o

-- All the references of the object are dropped: the one that is released, and those
-- of dead objects.
inductive Dead (objs : Finset Nat) (outside : Nat → Nat) (body : Nat → Body) : Nat → Prop
  | mk : outside o = 0 → (∀ p ∈ objs, o ∈ (body p).refs → Dead objs outside body p) → Dead objs outside body o

open Classical in
noncomputable def dropped (objs : Finset Nat) (outside : Nat → Nat) (body : Nat → Body) (root o : Nat) : Nat :=
  (if o = root then 1 else 0) + ∑ p ∈ objs with Dead objs outside body p, (body p).refs.count o

structure Released (objs : Finset Nat) (outside : Nat → Nat) (root : Nat) (before after : World) : Prop where
  once : after.freed.Nodup
  dead : ∀ o, o ∈ after.freed ↔ o ∈ objs ∧ Dead objs outside before.body o
  counts : ∀ o ∈ objs, o ∉ after.freed → after.refcnt o + dropped objs outside before.body root o = before.refcnt o

-- An object that has lost some of its last entries.
inductive Shrunk : Body → Body → Prop
  | leaf : Shrunk .leaf .leaf
  | array : items' <:+ items → Shrunk (.array items) (.array items')
  | dictionary : entries' <:+ entries → Shrunk (.dictionary entries) (.dictionary entries')

-- During the call: `pending` are the references to be dropped, `leaked` the objects
-- whose push failed, and `cur` are being freed. Only these have lost entries, and
-- the objects below a leaked one.
structure Counted (objs : Finset Nat) (outside rank : Nat → Nat) (before world : World) (pending leaked cur : List Nat) : Prop where
  inside : ∀ o ∈ pending ++ leaked ++ cur ++ world.freed, o ∈ objs
  counts : ∀ o ∈ objs, world.refcnt o = outside o + pending.count o + leaked.count o + references objs world.body o
  zero : ∀ o ∈ objs, world.refcnt o = 0 ↔ o ∈ world.freed ∨ o ∈ cur
  once : (cur ++ world.freed).Nodup
  emptied : ∀ o ∈ world.freed, (world.body o).refs = []
  shrunk : ∀ p ∈ objs, Shrunk (before.body p) (world.body p)
  touched : ∀ p ∈ objs, world.body p ≠ before.body p → p ∈ world.freed ∨ p ∈ cur ∨ (p ∈ pending ∧ world.refcnt p = 1) ∨
    ∃ q ∈ leaked, rank p ≤ rank q

variable {objs : Finset Nat} {outside rank : Nat → Nat} {root o p po : Nat} {before world world' after : World} {body : Nat → Body} {b : Body}
variable {pending leaked cur : List Nat}

theorem references_update (body : Nat → Body) (mem : p ∈ objs) (b : Body) (o : Nat) :
    references objs (update body p b) o + (body p).refs.count o = references objs body o + b.refs.count o := by
  unfold references
  have same : ∑ q ∈ objs.erase p, (update body p b q).refs.count o = ∑ q ∈ objs.erase p, (body q).refs.count o :=
    sum_congr rfl fun q other => by rw [update_of_ne (ne_of_mem_erase other)]
  rw [← add_sum_erase objs (fun q => (update body p b q).refs.count o) mem,← add_sum_erase objs (fun q => (body q).refs.count o) mem,
    same,update_self]
  omega

theorem mem_references (mem : p ∈ objs) (ref : o ∈ (body p).refs) : 0 < references objs body o := by
  have one := count_pos_iff.mpr ref
  have le := single_le_sum (fun q _ => Nat.zero_le ((body q).refs.count o)) mem
  exact Nat.lt_of_lt_of_le one le

theorem references_zero (zero : references objs body o = 0) (mem : p ∈ objs) : o ∉ (body p).refs := by
  intro ref
  have := mem_references mem ref
  omega

theorem Shrunk.refs_subset (shrunk : Shrunk a b) : b.refs ⊆ a.refs := by
  cases shrunk with
  | leaf => exact fun _ mem => mem
  | array suffix => exact suffix.subset
  | dictionary suffix =>
    intro o mem
    obtain ⟨entry,here,ref⟩ := mem_flatMap.mp mem
    exact mem_flatMap.mpr ⟨entry,suffix.subset here,ref⟩

theorem Shrunk.refl (b : Body) : Shrunk b b := by
  cases b with
  | leaf => exact .leaf
  | array => exact .array (suffix_refl _)
  | dictionary => exact .dictionary (suffix_refl _)

theorem Graph.start (graph : Graph objs outside rank root world) : Counted objs outside rank world world [root] [] [] where
  inside := by
    rw [graph.fresh]
    simpa using graph.rooted
  counts := by
    intro o mem
    have one : [root].count o = if o = root then 1 else 0 := by
      by_cases same : o = root
      · simp [same]
      · simp [same,Ne.symm same]
    rw [one,graph.counted o mem,count_nil]
    omega
  zero := by
    intro o mem
    have := graph.used o mem
    rw [graph.fresh]
    simp
    omega
  once := by
    rw [graph.fresh]
    exact .nil
  emptied := by
    rw [graph.fresh]
    simp
  shrunk := fun p _ => .refl _
  touched := fun p _ changed => absurd rfl changed

namespace Counted

section
variable (counted : Counted objs outside rank before world (o :: pending) leaked cur)
include counted

theorem count_pos : 0 < world.refcnt o := by
  rw [counted.counts o (counted.inside o (by simp)),count_cons_self]
  omega

theorem not_torn : o ∉ world.freed ∧ o ∉ cur := by
  have zero := counted.zero o (counted.inside o (by simp))
  have := counted.count_pos
  constructor <;> intro mem
  · exact absurd (zero.mpr (.inl mem)) (by omega)
  · exact absurd (zero.mpr (.inr mem)) (by omega)

theorem dropRef_ok :
    dropRef world o = .ok (world.refcnt o,{world with refcnt := update world.refcnt o (world.refcnt o - 1)}) := by
  have := counted.count_pos
  rw [dropRef,if_neg counted.not_torn.1,if_neg (by omega)]

theorem dropped_counts (x : Nat) (mem : x ∈ objs) :
    update world.refcnt o (world.refcnt o - 1) x = outside x + pending.count x + leaked.count x + references objs world.body x := by
  have counts := counted.counts x mem
  by_cases same : x = o
  · subst same
    rw [update_self]
    rw [count_cons_self] at counts
    omega
  · rw [update_of_ne same,counts,count_cons_of_ne (Ne.symm same)]

theorem drop (more : world.refcnt o ≠ 1) :
    Counted objs outside rank before {world with refcnt := update world.refcnt o (world.refcnt o - 1)} pending leaked cur where
  inside := fun x mem => counted.inside x (by simpa using .inr (by simpa using mem))
  counts := counted.dropped_counts
  zero := by
    intro x mem
    by_cases same : x = o
    · subst same
      have pos := counted.count_pos
      have torn := counted.not_torn
      simp only [update_self]
      constructor
      · omega
      rintro (here | here)
      · exact absurd here torn.1
      · exact absurd here torn.2
    simp only [update_of_ne same]
    exact counted.zero x mem
  once := counted.once
  emptied := counted.emptied
  shrunk := counted.shrunk
  touched := by
    intro p mem changed
    rcases counted.touched p mem changed with freed | torn | ⟨listed,one⟩ | leak
    · exact .inl freed
    · exact .inr (.inl torn)
    · have other : p ≠ o := fun same => more (same ▸ one)
      refine .inr (.inr (.inl ⟨(mem_cons.mp listed).resolve_left other,?_⟩))
      simp only [update_of_ne other]
      exact one
    · exact .inr (.inr (.inr leak))

theorem last (one : world.refcnt o = 1) :
    Counted objs outside rank before {world with refcnt := update world.refcnt o (world.refcnt o - 1)} pending leaked (o :: cur) where
  inside := fun x mem => counted.inside x (by simp at mem ⊢; tauto)
  counts := counted.dropped_counts
  zero := by
    intro x mem
    by_cases same : x = o
    · subst same
      simp [one]
    simp only [update_of_ne same,List.mem_cons,same,false_or]
    exact counted.zero x mem
  once := by
    have torn := counted.not_torn
    rw [cons_append,nodup_cons]
    exact ⟨by simp [torn.1,torn.2],counted.once⟩
  emptied := counted.emptied
  shrunk := counted.shrunk
  touched := by
    intro p mem changed
    by_cases same : p = o
    · exact .inr (.inl (by simp [same]))
    rcases counted.touched p mem changed with freed | torn | ⟨listed,one⟩ | leak
    · exact .inl freed
    · exact .inr (.inl (mem_cons_of_mem _ torn))
    · refine .inr (.inr (.inl ⟨(mem_cons.mp listed).resolve_left same,?_⟩))
      simp only [update_of_ne same]
      exact one
    · exact .inr (.inr (.inr leak))
end
section
variable (counted : Counted objs outside rank before world pending leaked (o :: cur))
include counted

theorem put (empty : (world.body o).refs = []) :
    Counted objs outside rank before (PropRelease.put world o) pending leaked cur where
  inside := fun x mem => counted.inside x (by simp [PropRelease.put] at mem ⊢; tauto)
  counts := counted.counts
  zero := by
    intro x mem
    have zero := counted.zero x mem
    simp [PropRelease.put] at zero ⊢
    tauto
  once := by
    have once := counted.once
    exact (perm_middle.nodup_iff).mpr once
  emptied := by
    intro x mem
    rcases mem_cons.mp mem with rfl | mem
    · exact empty
    · exact counted.emptied x mem
  shrunk := counted.shrunk
  touched := by
    intro p mem changed
    rcases counted.touched p mem changed with freed | torn | listed | leak
    · exact .inl (mem_cons_of_mem _ freed)
    · rcases mem_cons.mp torn with rfl | torn
      · exact .inl mem_cons_self
      · exact .inr (.inl torn)
    · exact .inr (.inr (.inl listed))
    · exact .inr (.inr (.inr leak))

theorem torn_zero :
    o ∈ objs ∧ world.refcnt o = 0 ∧ o ∉ cur ∧ o ∉ world.freed := by
  have mem := counted.inside o (by simp)
  have once := counted.once
  rw [cons_append,nodup_cons,mem_append,not_or] at once
  exact ⟨mem,(counted.zero o mem).mpr (.inr mem_cons_self),once.1⟩

theorem kept_ref (x : Nat) :
    (keepRef world o).refcnt x = world.refcnt x + if x = o then 1 else 0 := by
  unfold keepRef
  by_cases same : x = o
  · subst same
    simp
  · simp [update_of_ne same,same]

theorem kept_zero (x : Nat) (mem : x ∈ objs) :
    (keepRef world o).refcnt x = 0 ↔ x ∈ world.freed ∨ x ∈ cur := by
  obtain ⟨_,_,notCur,notFreed⟩ := counted.torn_zero
  rw [counted.kept_ref x]
  by_cases same : x = o
  · subst same
    simp [notCur,notFreed]
  have zero := counted.zero x mem
  simpa [same] using zero

theorem keep :
    Counted objs outside rank before (keepRef world o) (o :: pending) leaked cur where
  inside := fun x mem => counted.inside x (by simp [keepRef] at mem ⊢; tauto)
  counts := by
    intro x mem
    have counts := counted.counts x mem
    rw [counted.kept_ref x,count_cons]
    simp only [keepRef,beq_iff_eq,eq_comm (a := o)]
    omega
  zero := counted.kept_zero
  once := (nodup_cons.mp counted.once).2
  emptied := counted.emptied
  shrunk := counted.shrunk
  touched := by
    obtain ⟨_,none_,_,_⟩ := counted.torn_zero
    intro p mem changed
    have ref := counted.kept_ref p
    by_cases same : p = o
    · subst same
      rw [if_pos rfl,none_] at ref
      exact .inr (.inr (.inl ⟨mem_cons_self,ref⟩))
    rw [if_neg same] at ref
    rcases counted.touched p mem changed with freed | torn | ⟨listed,one⟩ | leak
    · exact .inl freed
    · exact .inr (.inl ((mem_cons.mp torn).resolve_left same))
    · exact .inr (.inr (.inl ⟨mem_cons_of_mem _ listed,ref.trans one⟩))
    · exact .inr (.inr (.inr leak))

theorem leak :
    Counted objs outside rank before (keepRef world o) pending (o :: leaked) cur where
  inside := fun x mem => counted.inside x (by simp [keepRef] at mem ⊢; tauto)
  counts := by
    intro x mem
    have counts := counted.counts x mem
    rw [counted.kept_ref x,count_cons]
    simp only [keepRef,beq_iff_eq,eq_comm (a := o)]
    omega
  zero := counted.kept_zero
  once := (nodup_cons.mp counted.once).2
  emptied := counted.emptied
  shrunk := counted.shrunk
  touched := by
    intro p mem changed
    have ref := counted.kept_ref p
    by_cases same : p = o
    · exact .inr (.inr (.inr ⟨o,mem_cons_self,Nat.le_of_eq (by rw [same])⟩))
    rw [if_neg same] at ref
    rcases counted.touched p mem changed with freed | torn | ⟨listed,one⟩ | ⟨q,leak,below⟩
    · exact .inl freed
    · exact .inr (.inl ((mem_cons.mp torn).resolve_left same))
    · exact .inr (.inr (.inl ⟨listed,ref.trans one⟩))
    · exact .inr (.inr (.inr ⟨q,mem_cons_of_mem _ leak,below⟩))
end

theorem take (counted : Counted objs outside rank before world pending leaked cur) (mem : p ∈ objs) (b : Body) (refs : List Nat)
    (split : (world.body p).refs = refs ++ b.refs) (shrunk : Shrunk (before.body p) b) (allRefs : ∀ o ∈ refs, o ∈ objs)
    (alive : p ∉ world.freed) (may : p ∈ cur ∨ ∃ q ∈ leaked, rank p ≤ rank q) :
    Counted objs outside rank before {world with body := update world.body p b} (refs ++ pending) leaked cur where
  inside := by
    intro x here
    simp only [mem_append] at here
    rcases here with (((ref | here) | here) | here) | here
    · exact allRefs x ref
    all_goals exact counted.inside x (by simp [here])
  counts := by
    intro x here
    have counts := counted.counts x here
    have moved := references_update world.body mem b x
    rw [split,count_append] at moved
    rw [count_append,counts]
    dsimp only
    omega
  zero := counted.zero
  once := counted.once
  emptied := by
    intro x freed
    have other : x ≠ p := fun same => alive (same ▸ freed)
    simp only [update_of_ne other]
    exact counted.emptied x freed
  shrunk := by
    intro x here
    by_cases same : x = p
    · simp only [same,update_self]
      exact shrunk
    simp only [update_of_ne same]
    exact counted.shrunk x here
  touched := by
    intro x here changed
    by_cases same : x = p
    · subst same
      rcases may with torn | leak
      · exact .inr (.inl torn)
      · exact .inr (.inr (.inr leak))
    simp only [update_of_ne same] at changed
    rcases counted.touched x here changed with freed | torn | ⟨listed,one⟩ | leak
    · exact .inl freed
    · exact .inr (.inl torn)
    · exact .inr (.inr (.inl ⟨mem_append_right _ listed,one⟩))
    · exact .inr (.inr (.inr leak))
end Counted
end NetbsdAvr32.PropRelease
