import NetbsdAvr32.PropEqualsExact

-- The read locks that prop_object_equals takes, and when it lets go of all of them.
namespace NetbsdAvr32.PropEquals
open Turns Outcome List Obj

-- How often the call holds the lock of the container at each address.
abbrev Held := Nat → Nat
def rdlock (held : Held) (addr : Nat) : Held := fun at_ => if at_ = addr then held at_ + 1 else held at_

def unlock (held : Held) (addr : Nat) : Except Halt Held :=
  if held addr = 0 then .error (.panic "unlock of a lock that is not held") else .ok fun at_ => if at_ = addr then held at_ - 1 else held at_

def unlockBoth (held : Held) (addr1 addr2 : Nat) : Except Halt Held := do
  let held ← unlock held addr1
  unlock held addr2

-- The locks around the pot_equals of a container.
def lockedEquals (addr1 addr2 idx : Nat) (held : Held) (rv : Rv) : Except Halt (Rv × Held) :=
  if addr1 = addr2 then .ok (rv,held)
  else
    let held := if idx = 0 then
        if addr1 < addr2 then rdlock (rdlock held addr1) addr2 else rdlock (rdlock held addr2) addr1
      else held
    match rv with
    | .recurse _ _ _ _ => .ok (rv,held)
    | _ => do
      let held ← unlockBoth held addr1 addr2
      .ok (rv,held)

def potEqualsLocked (type : Kind) (v1 v2 : Obj) (stored1 stored2 : Nat) (held : Held) : Except Halt (Rv × Held) := do
  let rv ← potEquals type v1 v2 stored1 stored2
  match type,v1,v2 with
  | .array,.array addr1 _,.array addr2 _ => lockedEquals addr1 addr2 stored1 held rv
  | .dict,.dict addr1 _,.dict addr2 _ => lockedEquals addr1 addr2 stored1 held rv
  | _,_,_ => .ok (rv,held)

-- (*po1->po_type->pot_equals_finish); only the containers have one.
def potEqualsFinish (v1 v2 : Obj) (held : Held) : Except Halt Held :=
  match v1,v2 with
  | .array addr1 _,.array addr2 _ => unlockBoth held addr1 addr2
  | .dict addr1 _,.dict addr2 _ => unlockBoth held addr1 addr2
  | _,_ => .error (.fault "NULL pot_equals_finish")

inductive Label where
  | subtree (label : At)
  | finish (error : Bool) (stack : List Elem)

structure Work where
  label : Label
  held : Held
  pushes : Nat

structure Returned where
  value : Bool
  error : Bool
  held : Held
  stack : List Elem

-- `malloc` tells which pushes get memory when the intern elements are used up.
def lockedTurn (malloc : Nat → Bool) (work : Work) : Except Halt (Turn Work Returned) :=
  match work.label with
  | .subtree (.startSubtree (.obj obj1) (.obj obj2) stack) =>
    if obj1.kind ≠ obj2.kind then .ok (.done ⟨false,false,work.held,stack⟩)
    else .ok (.again {work with label := .subtree (.continueSubtree obj1.kind obj1 obj2 0 0 stack)})
  | .subtree (.startSubtree (.slot obj1) (.slot obj2) stack) =>
    if obj1.ptr ≠ obj2.ptr then .ok (.done ⟨false,false,work.held,stack⟩) else .error (.fault "an object taken for a type")
  | .subtree (.startSubtree _ _ stack) => .ok (.done ⟨false,false,work.held,stack⟩)
  | .subtree (.continueSubtree type obj1 obj2 stored1 stored2 stack) => do
    let (rv,held) ← potEqualsLocked type obj1 obj2 stored1 stored2 work.held
    match rv with
    | .false => .ok (.again ⟨.finish false stack,held,work.pushes⟩)
    | .true =>
      match stack with
      | [] => .ok (.done ⟨true,false,held,[]⟩)
      | top :: stack => .ok (.again ⟨.subtree (.continueSubtree type top.obj1 top.obj2 top.stored1 top.stored2 stack),held,work.pushes⟩)
    | .recurse stored1 stored2 next1 next2 =>
      match propStackPush (malloc work.pushes) stack ⟨obj1,obj2,stored1,stored2⟩ with
      | none => .ok (.again ⟨.finish true stack,held,work.pushes + 1⟩)
      | some stack => .ok (.again ⟨.subtree (.startSubtree next1 next2 stack),held,work.pushes + 1⟩)
  | .finish error [] => .ok (.done ⟨false,error,work.held,[]⟩)
  | .finish error (top :: stack) => do
    let held ← potEqualsFinish top.obj1 top.obj2 work.held
    .ok (.again {work with label := .finish error stack,held := held})

def unheld : Held := fun _ => 0

def equalsLocked (malloc : Nat → Bool) (rounds : Nat) (obj1 obj2 : Obj) : Except Halt Returned :=
  run (lockedTurn malloc) rounds ⟨.subtree (.startSubtree (.obj obj1) (.obj obj2) []),unheld,0⟩

-- How a comparison comes out after so many pushes: the two are found equal, or told apart with
-- nothing left behind, or locks stay held.
inductive Way where
  | equal (pushes : Nat)
  | differ
  | lost
  deriving DecidableEq

mutual
def way (malloc : Nat → Bool) (depth pushes : Nat) : Obj → Obj → Way
  | .array addr1 array1,.array addr2 array2 =>
    if addr1 = addr2 then .equal pushes
    else if array1.length ≠ array2.length then .differ
    else wayObjs malloc depth pushes array1 array2
  | .dict addr1 dict1,.dict addr2 dict2 =>
    if addr1 = addr2 then .equal pushes
    else if dict1.length ≠ dict2.length then .differ
    else
      match dict1,dict2 with
      | (key1,_) :: _,(key2,_) :: _ => if key1 = key2 then .lost else .differ
      | _,_ => .equal pushes
  | a,b =>
    if a.kind ≠ b.kind then if depth = 0 then .differ else .lost
    else if equal a b then .equal pushes else .differ

def wayObjs (malloc : Nat → Bool) (depth pushes : Nat) : List Obj → List Obj → Way
  | x :: array1,y :: array2 =>
    if depth ≥ propStackInternElems ∧ ¬malloc pushes then .lost
    else
      match way malloc (depth + 1) (pushes + 1) x y with
      | .equal pushes => if x.kind = .array then wayObjs malloc depth pushes array1 array2 else .lost
      | .differ => .differ
      | .lost => .lost
  | _,_ => .equal pushes
end
variable {a b x y : Obj} {addr1 addr2 idx i n pushes : Nat} {array1 array2 : List Obj} {memory : Nat → Obj} {stack rest : List Elem} {top : Elem}
  {malloc : Nat → Bool} {held base : Held} {type : Kind} {stored1 stored2 : Nat} {work : Work} {error : Bool}

def holdBoth (held : Held) (addr1 addr2 : Nat) : Held := rdlock (rdlock held addr1) addr2

theorem rdlock_comm (held : Held) (addr1 addr2 : Nat) : rdlock (rdlock held addr1) addr2 = rdlock (rdlock held addr2) addr1 := by
  funext addr
  unfold rdlock
  split <;> split <;> rfl

theorem unlock_rdlock (held : Held) (addr : Nat) : unlock (rdlock held addr) addr = .ok held := by
  unfold unlock rdlock
  rw [if_neg (by rw [if_pos rfl]; omega)]
  congr 1
  funext other
  split_ifs with same
  · rfl
  · rfl

theorem unlockBoth_holdBoth (held : Held) (addr1 addr2 : Nat) : unlockBoth (holdBoth held addr1 addr2) addr1 addr2 = .ok held := by
  rw [unlockBoth,holdBoth,rdlock_comm,unlock_rdlock,ok_bind,unlock_rdlock]

def keeps (held : Held) (addr1 addr2 : Nat) : Rv → Held
  | .recurse _ _ _ _ => holdBoth held addr1 addr2
  | _ => held

theorem lockedEquals_spec (apart : addr1 ≠ addr2) (idx : Nat) (rv : Rv) :
    lockedEquals addr1 addr2 idx (if idx = 0 then held else holdBoth held addr1 addr2) rv =
      .ok (rv,keeps held addr1 addr2 rv) := by
  have taken : (if idx = 0 then
        if addr1 < addr2 then rdlock (rdlock (if idx = 0 then held else holdBoth held addr1 addr2) addr1) addr2
        else rdlock (rdlock (if idx = 0 then held else holdBoth held addr1 addr2) addr2) addr1
      else if idx = 0 then held else holdBoth held addr1 addr2) = holdBoth held addr1 addr2 := by
    by_cases first : idx = 0
    · simp only [if_pos first]
      split
      · rfl
      · exact rdlock_comm held addr2 addr1
    · simp only [if_neg first]
  rw [lockedEquals,if_neg apart]
  dsimp only
  rw [taken]
  cases rv with
  | recurse => rfl
  | false | true => rw [unlockBoth_holdBoth]; rfl

def addrOf : Obj → Nat
  | .array addr _ => addr
  | .dict addr _ => addr
  | _ => 0

def owed (base : Held) : List Elem → Held
  | [] => base
  | top :: stack => holdBoth (owed base stack) (addrOf top.obj1) (addrOf top.obj2)

theorem holdBoth_comm (held : Held) (a b c d : Nat) : holdBoth (holdBoth held a b) c d = holdBoth (holdBoth held c d) a b := by
  unfold holdBoth
  rw [rdlock_comm (rdlock held a) b c,rdlock_comm held a c,rdlock_comm (rdlock (rdlock held c) a) b d,rdlock_comm (rdlock held c) a d]

theorem holdBoth_owed (base : Held) (addr1 addr2 : Nat) (stack : List Elem) :
    holdBoth (owed base stack) addr1 addr2 = owed (holdBoth base addr1 addr2) stack := by
  induction stack with
  | nil => rfl
  | cons top stack ih => rw [owed,owed,← ih,holdBoth_comm]

theorem finish_step (arrays : Arrays top) : potEqualsFinish top.obj1 top.obj2 (owed base (top :: stack)) = .ok (owed base stack) := by
  obtain ⟨obj1,obj2,stored1,stored2⟩ := top
  obtain ⟨first,second,_⟩ := arrays
  cases obj1 <;> cases first
  cases obj2 <;> cases second
  exact unlockBoth_holdBoth _ _ _

theorem finish_ends (arrays : ∀ top ∈ stack,Arrays top) (error : Bool) (base : Held) (n : Nat) :
    Ends (lockedTurn malloc) ⟨.finish error stack,owed base stack,n⟩ (.ok ⟨false,error,base,[]⟩) := by
  induction stack with
  | nil => exact ends_done rfl
  | cons top stack ih =>
    have took : lockedTurn malloc ⟨.finish error (top :: stack),owed base (top :: stack),n⟩ =
        .ok (.again ⟨.finish error stack,owed base stack,n⟩) := by
      simp only [lockedTurn,finish_step (arrays top mem_cons_self),ok_bind]
    exact (reaches_again took).ends (ih fun other mem => arrays other (mem_cons_of_mem _ mem))

def Released (r : Except Halt Returned) : Prop := ∃ returned,r = .ok returned ∧ (∀ addr,returned.held addr = 0) ∧ returned.stack = []
def Lost (malloc : Nat → Bool) (work : Work) : Prop := ∃ r,Ends (lockedTurn malloc) work r ∧ ¬Released r

theorem Lost.after {next : Work} (first : Reaches (lockedTurn malloc) work next) (lost : Lost malloc next) : Lost malloc work := by
  obtain ⟨r,ends,kept⟩ := lost
  exact ⟨r,first.ends ends,kept⟩

theorem lost_error {e : Halt} (ends : Ends (lockedTurn malloc) work (.error e)) : Lost malloc work :=
  ⟨_,ends,fun ⟨_,same,_⟩ => by cases same⟩

theorem lost_pair (arrays : ∀ top ∈ stack,Arrays top) (error : Bool) (addr1 addr2 n : Nat) :
    Lost malloc ⟨.finish error stack,holdBoth (owed unheld stack) addr1 addr2,n⟩ := by
  rw [holdBoth_owed]
  refine ⟨_,finish_ends arrays error _ n,?_⟩
  rintro ⟨returned,same,none,_⟩
  cases same
  have here := none addr2
  unfold holdBoth rdlock at here
  dsimp only at here
  rw [if_pos rfl] at here
  omega

theorem lost_stack (ends : Ends (lockedTurn malloc) work (.ok ⟨value,error,held,top :: stack⟩)) : Lost malloc work :=
  ⟨_,ends,fun ⟨_,same,_,empty⟩ => by cases same; cases empty⟩

theorem locked_starts (kind : a.kind = b.kind) (held : Held) (n : Nat) : Reaches (lockedTurn malloc) ⟨.subtree (starts a b stack),held,n⟩
    ⟨.subtree (.continueSubtree a.kind a b 0 0 stack),held,n⟩ := reaches_again (if_neg (not_not.mpr kind))

theorem locked_kinds (other : a.kind ≠ b.kind) (held : Held) (n : Nat) :
    Ends (lockedTurn malloc) ⟨.subtree (starts a b stack),held,n⟩ (.ok ⟨false,false,held,stack⟩) := ends_done (if_pos other)

theorem locked_false {after : Held} (said : potEqualsLocked type a b stored1 stored2 held = .ok (.false,after)) (n : Nat) :
    Reaches (lockedTurn malloc) ⟨.subtree (.continueSubtree type a b stored1 stored2 stack),held,n⟩ ⟨.finish false stack,after,n⟩ := by
  refine reaches_again ?_
  rw [lockedTurn.eq_def]
  dsimp only
  rw [said,ok_bind]

theorem locked_error {e : Halt} (said : potEqualsLocked type a b stored1 stored2 held = .error e) (n : Nat) :
    Ends (lockedTurn malloc) ⟨.subtree (.continueSubtree type a b stored1 stored2 stack),held,n⟩ (.error e) := by
  refine ends_error ?_
  rw [lockedTurn.eq_def]
  dsimp only
  rw [said,error_bind]

-- The pair is found equal: the call returns, or the pair below goes on with this type.
def Settles (malloc : Nat → Bool) (type : Kind) (work : Work) (n : Nat) : List Elem → Prop
  | [] => Ends (lockedTurn malloc) work (.ok ⟨true,false,unheld,[]⟩)
  | top :: rest => Reaches (lockedTurn malloc) work ⟨.subtree (resumed type top rest),owed unheld (top :: rest),n⟩

theorem Settles.after {next : Work} (first : Reaches (lockedTurn malloc) work next) (settles : Settles malloc type next n stack) :
    Settles malloc type work n stack := by
  cases stack with
  | nil => exact first.ends settles
  | cons top rest => exact first.trans settles

theorem locked_true (said : potEqualsLocked type a b stored1 stored2 held = .ok (.true,owed unheld stack)) (n : Nat) :
    Settles malloc type ⟨.subtree (.continueSubtree type a b stored1 stored2 stack),held,n⟩ n stack := by
  cases stack with
  | nil =>
    refine ends_done ?_
    rw [lockedTurn.eq_def]
    dsimp only
    rw [said,ok_bind]
    rfl
  | cons top rest =>
    refine reaches_again ?_
    rw [lockedTurn.eq_def]
    dsimp only
    rw [said,ok_bind]
    rfl

theorem locked_recurse (malloc : Nat → Bool) (stack : List Elem) {after : Held} {next1 next2 : Ref} (said : potEqualsLocked type a b stored1 stored2 held = .ok (.recurse i i next1 next2,after)) (n : Nat) :
    Reaches (lockedTurn malloc) ⟨.subtree (.continueSubtree type a b stored1 stored2 stack),held,n⟩
      (if stack.length ≥ propStackInternElems ∧ ¬malloc n then ⟨.finish true stack,after,n + 1⟩
      else ⟨.subtree (.startSubtree next1 next2 (⟨a,b,i,i⟩ :: stack)),after,n + 1⟩) := by
  refine reaches_again ?_
  rw [lockedTurn.eq_def]
  dsimp only
  rw [said,ok_bind]
  dsimp only
  unfold propStackPush
  split_ifs with full
  · rfl
  · rfl

def Answers (malloc : Nat → Bool) (type : Kind) (stack : List Elem) (work : Work) : Way → Prop
  | .equal n => Settles malloc type work n stack
  | .differ => Ends (lockedTurn malloc) work (.ok ⟨false,false,unheld,[]⟩)
  | .lost => Lost malloc work

theorem Answers.after {next : Work} {w : Way} (first : Reaches (lockedTurn malloc) work next) (answers : Answers malloc type stack next w) :
    Answers malloc type stack work w := by
  cases w with
  | equal n => exact Settles.after first answers
  | differ => exact first.ends answers
  | lost => exact Lost.after first answers

theorem differ_ends (arrays : ∀ top ∈ stack,Arrays top) (said : potEqualsLocked type a b stored1 stored2 held = .ok (.false,owed unheld stack)) (n : Nat) :
    Ends (lockedTurn malloc) ⟨.subtree (.continueSubtree type a b stored1 stored2 stack),held,n⟩ (.ok ⟨false,false,unheld,[]⟩) :=
  (locked_false said n).ends (finish_ends arrays false unheld n)

theorem lost_resumed (arrays : ∀ other ∈ top :: rest,Arrays other) (other : type ≠ .array) (n : Nat) :
    Lost malloc ⟨.subtree (resumed type top rest),owed unheld (top :: rest),n⟩ := by
  have below : ∀ other ∈ rest,Arrays other := fun other mem => arrays other (mem_cons_of_mem _ mem)
  obtain ⟨first,second,apart⟩ := arrays top mem_cons_self
  obtain ⟨obj1,obj2,stored1,stored2⟩ := top
  cases obj1 <;> cases first
  cases obj2 <;> cases second
  next addr1 objs1 addr2 objs2 =>
    by_cases bool : type = .bool
    · subst bool
      have said : potEqualsLocked .bool (.array addr1 objs1) (.array addr2 objs2) stored1 stored2 (owed unheld (⟨.array addr1 objs1,.array addr2 objs2,stored1,stored2⟩ :: rest)) =
          .ok (.false,holdBoth (owed unheld rest) addr1 addr2) := rfl
      exact Lost.after (locked_false said n) (lost_pair below false addr1 addr2 n)
    have said : potEquals type (.array addr1 objs1) (.array addr2 objs2) stored1 stored2 = confused := by
      cases type with
      | bool => exact (bool rfl).elim
      | array => exact (other rfl).elim
      | number => exact if_neg apart
      | string => exact if_neg apart
      | data => exact if_neg apart
      | dict => exact if_neg apart
    have faults : potEqualsLocked type (.array addr1 objs1) (.array addr2 objs2) stored1 stored2
        (owed unheld (⟨.array addr1 objs1,.array addr2 objs2,stored1,stored2⟩ :: rest)) =
        .error (.fault "access through the wrong structure type") := by
      rw [potEqualsLocked,said]
      rfl
    exact lost_error (locked_error faults n)

theorem leaf_locked (leaf : Leaf a) (kind : a.kind = b.kind) (stored1 : Stored memory a) (stored2 : Stored memory b) :
    potEqualsLocked a.kind a b 0 0 held = .ok (rvOf (equal a b),held) := by
  rw [potEqualsLocked,leaf_spec leaf kind stored1 stored2,ok_bind]
  cases a with
  | array => exact (leaf.1 rfl).elim
  | dict => exact (leaf.2 rfl).elim
  | _ => rfl

theorem way_leaf (leaf : Leaf a) (depth pushes : Nat) : way malloc depth pushes a b =
    if a.kind ≠ b.kind then if depth = 0 then .differ else .lost else if equal a b then .equal pushes else .differ := by
  cases a with
  | array => exact (leaf.1 rfl).elim
  | dict => exact (leaf.2 rfl).elim
  | _ => rw [way] <;> intros <;> simp_all

theorem answers_kinds (other : a.kind ≠ b.kind) (n : Nat) :
    Answers malloc a.kind stack ⟨.subtree (starts a b stack),owed unheld stack,n⟩ (if stack.length = 0 then .differ else .lost) := by
  cases stack with
  | nil => exact locked_kinds other unheld n
  | cons top rest => exact lost_stack (locked_kinds other _ n)

theorem answers_leaf (leaf : Leaf a) (arrays : ∀ top ∈ stack,Arrays top) (stored1 : Stored memory a) (stored2 : Stored memory b) (n : Nat) :
    Answers malloc a.kind stack ⟨.subtree (starts a b stack),owed unheld stack,n⟩ (way malloc stack.length n a b) := by
  rw [way_leaf leaf]
  split
  · next other =>
    exact answers_kinds other n
  next other =>
  have kind := not_not.mp other
  refine Answers.after (locked_starts kind _ n) ?_
  have said : potEqualsLocked a.kind a b 0 0 (owed unheld stack) = .ok (rvOf (equal a b),owed unheld stack) :=
    leaf_locked leaf kind stored1 stored2
  cases held : equal a b with
  | true =>
    rw [held] at said
    exact locked_true said n
  | false =>
    rw [held] at said
    exact differ_ends arrays said n

theorem locked_array {rv : Rv} (apart : addr1 ≠ addr2) (said : potEquals .array (.array addr1 array1) (.array addr2 array2) i i = .ok rv) (held : Held) :
    potEqualsLocked .array (.array addr1 array1) (.array addr2 array2) i i (if i = 0 then held else holdBoth held addr1 addr2) =
      .ok (rv,keeps held addr1 addr2 rv) := by
  rw [potEqualsLocked,said,ok_bind]
  exact lockedEquals_spec apart i rv

section dictionaries
variable {dict1 dict2 : List (PropDict.Key × Obj)}

theorem locked_dict {rv : Rv} (apart : addr1 ≠ addr2) (said : potEquals .dict (.dict addr1 dict1) (.dict addr2 dict2) 0 0 = .ok rv) (held : Held) :
    potEqualsLocked .dict (.dict addr1 dict1) (.dict addr2 dict2) 0 0 held =
      .ok (rv,keeps held addr1 addr2 rv) := by
  rw [potEqualsLocked,said,ok_bind]
  exact lockedEquals_spec apart 0 rv

theorem way_dict (depth n : Nat) : way malloc depth n (.dict addr1 dict1) (.dict addr2 dict2) =
    if addr1 = addr2 then .equal n
    else if dict1.length ≠ dict2.length then .differ
    else
      match dict1,dict2 with
      | (key1,_) :: _,(key2,_) :: _ => if key1 = key2 then .lost else .differ
      | _,_ => .equal n := by rw [way.eq_def]

theorem answers_dict (arrays : ∀ top ∈ stack,Arrays top) (n : Nat) :
    Answers malloc .dict stack ⟨.subtree (starts (.dict addr1 dict1) (.dict addr2 dict2) stack),owed unheld stack,n⟩
      (way malloc stack.length n (.dict addr1 dict1) (.dict addr2 dict2)) := by
  rw [way_dict]
  have kind : (dict addr1 dict1).kind = (dict addr2 dict2).kind := rfl
  refine Answers.after (locked_starts kind _ n) ?_
  by_cases same : addr1 = addr2
  · subst same
    rw [if_pos rfl]
    refine locked_true ?_ n
    show (potEquals .dict (.dict addr1 dict1) (.dict addr1 dict2) 0 0 >>= _) = _
    rw [dict_same,ok_bind]
    exact if_pos rfl
  rw [if_neg same]
  split_ifs with count
  · exact differ_ends arrays (locked_dict same (dict_count same count) _) n
  have count := not_not.mp count
  match dict1,dict2,count with
  | [],[],_ => exact locked_true (locked_dict same dict_empty _) n
  | (key1,x) :: rest1,(key2,y) :: rest2,count =>
    have said := dict_first key1 key2 x y same (Nat.succ.inj count)
    dsimp only
    split_ifs with keys
    · rw [if_neg (not_not.mpr keys)] at said
      have pushed := locked_recurse malloc stack (locked_dict same said (owed unheld stack)) n
      refine Lost.after pushed ?_
      split
      · exact lost_pair arrays true addr1 addr2 (n + 1)
      by_cases ptr : x.ptr = y.ptr
      · exact lost_error (ends_error (if_neg (not_not.mpr ptr)))
      · exact lost_stack (ends_done (if_pos ptr))
    rw [if_pos keys] at said
    exact differ_ends arrays (locked_dict same said _) n
end dictionaries

theorem way_kinds (other : a.kind ≠ b.kind) (depth n : Nat) : way malloc depth n a b = if depth = 0 then .differ else .lost := by
  cases a <;> cases b <;> first | exact absurd rfl other | (rw [way] <;> intros <;> simp_all)

mutual
theorem answers (a b : Obj) (stack : List Elem) (n : Nat) (arrays : ∀ top ∈ stack,Arrays top) (stored1 : Stored memory a) (stored2 : Stored memory b) :
    Answers malloc a.kind stack ⟨.subtree (starts a b stack),owed unheld stack,n⟩ (way malloc stack.length n a b) := by
  match a with
  | .bool _ => exact answers_leaf ⟨by simp [kind],by simp [kind]⟩ arrays stored1 stored2 n
  | .number _ => exact answers_leaf ⟨by simp [kind],by simp [kind]⟩ arrays stored1 stored2 n
  | .string _ _ => exact answers_leaf ⟨by simp [kind],by simp [kind]⟩ arrays stored1 stored2 n
  | .data _ _ => exact answers_leaf ⟨by simp [kind],by simp [kind]⟩ arrays stored1 stored2 n
  | .dict addr1 dict1 =>
    by_cases other : b.kind = .dict
    · cases b <;> cases other
      exact answers_dict arrays n
    have differ : (dict addr1 dict1).kind ≠ b.kind := fun same => other same.symm
    rw [way_kinds differ]
    exact answers_kinds differ n
  | .array addr1 array1 =>
    by_cases other : b.kind = .array
    · cases b <;> cases other
      next addr2 array2 =>
        have kind : (array addr1 array1).kind = (array addr2 array2).kind := rfl
        rw [way]
        refine Answers.after (locked_starts kind _ n) ?_
        by_cases same : addr1 = addr2
        · subst same
          rw [if_pos rfl]
          refine locked_true ?_ n
          show (potEquals .array (.array addr1 array1) (.array addr1 array2) 0 0 >>= _) = _
          rw [array_same,ok_bind]
          exact if_pos rfl
        rw [if_neg same]
        split_ifs with count
        · exact differ_ends arrays (locked_array same (array_count same count) (owed unheld stack)) n
        rw [Stored] at stored1 stored2
        exact answers_objs array1 array2 [] [] stack n same rfl (not_not.mp count) arrays stored1.2 stored2.2
    have differ : (array addr1 array1).kind ≠ b.kind := fun same => other same.symm
    rw [way_kinds differ]
    exact answers_kinds differ n
termination_by sizeOf a

theorem answers_objs {addr1 addr2 : Nat} (suf1 suf2 pre1 pre2 : List Obj) (stack : List Elem) (n : Nat) (apart : addr1 ≠ addr2) (count1 : pre1.length = pre2.length)
    (count2 : suf1.length = suf2.length) (arrays : ∀ top ∈ stack,Arrays top) (stored1 : StoredObjs memory suf1) (stored2 : StoredObjs memory suf2) :
    Answers malloc .array stack ⟨.subtree (.continueSubtree .array (.array addr1 (pre1 ++ suf1)) (.array addr2 (pre2 ++ suf2)) pre1.length pre1.length stack),
      if pre1.length = 0 then owed unheld stack else holdBoth (owed unheld stack) addr1 addr2,n⟩ (wayObjs malloc stack.length n suf1 suf2) := by
  have count : (pre1 ++ suf1).length = (pre2 ++ suf2).length := by
    rw [length_append,length_append,count1,count2]
  match suf1,suf2,count2 with
  | [],[],_ =>
    rw [wayObjs]
    · have said := array_end apart count
      rw [append_nil] at said ⊢
      exact locked_true (locked_array apart said (owed unheld stack)) n
    intros
    simp_all
  | x :: xs,y :: ys,count2 =>
    have at1 : (pre1 ++ x :: xs)[pre1.length]? = some x := by simp
    have at2 : (pre2 ++ y :: ys)[pre1.length]? = some y := by simp [count1]
    have pushed := locked_recurse malloc stack (locked_array apart (array_element apart count at1 at2) (owed unheld stack)) n
    rw [StoredObjs] at stored1 stored2
    rw [wayObjs]
    by_cases full : stack.length ≥ propStackInternElems ∧ ¬malloc n
    · rw [if_pos full] at pushed ⊢
      exact Lost.after pushed (lost_pair arrays true addr1 addr2 (n + 1))
    rw [if_neg full] at pushed ⊢
    have more : ∀ top ∈ ⟨.array addr1 (pre1 ++ x :: xs),.array addr2 (pre2 ++ y :: ys),pre1.length + 1,pre1.length + 1⟩ :: stack,Arrays top := by
      intro top mem
      rcases mem_cons.mp mem with rfl | old
      · exact arrays_pushed apart
      · exact arrays top old
    have child := answers x y _ (n + 1) more stored1.1 stored2.1
    rw [length_cons] at child
    refine Answers.after pushed ?_
    cases out : way malloc (stack.length + 1) (n + 1) x y with
    | lost => rwa [out] at child
    | differ => rwa [out] at child
    | equal m =>
      rw [out] at child
      dsimp only
      split_ifs with array
      · rw [array] at child
        have rest := answers_objs xs ys (pre1 ++ [x]) (pre2 ++ [y]) stack m apart (by simp [count1]) (Nat.succ.inj count2) arrays stored1.2 stored2.2
        rw [append_assoc,append_assoc,length_append,length_singleton] at rest
        exact Answers.after child rest
      · exact Lost.after child (lost_resumed more array m)
termination_by sizeOf suf1
end

-- All that was locked is let go exactly where no comparison is lost.
theorem locks_exact (memory : Nat → Obj) (a b : Obj) (stored1 : Stored memory a) (stored2 : Stored memory b) (malloc : Nat → Bool) :
    (∃ rounds returned,equalsLocked malloc rounds a b = .ok returned ∧ (∀ addr,returned.held addr = 0) ∧ returned.stack = []) ↔
      way malloc 0 0 a b ≠ .lost := by
  have out := @answers memory malloc a b [] 0 (fun _ mem => absurd mem not_mem_nil) stored1 stored2
  rw [length_nil] at out
  have clean : ∀ value,Ends (lockedTurn malloc) ⟨.subtree (starts a b []),unheld,0⟩ (.ok ⟨value,false,unheld,[]⟩) →
      ∃ rounds returned,equalsLocked malloc rounds a b = .ok returned ∧ (∀ addr,returned.held addr = 0) ∧ returned.stack = [] := fun value ends => by
    obtain ⟨rounds,ran⟩ := ends.returns
    exact ⟨rounds,_,ran,fun _ => rfl,rfl⟩
  cases found : way malloc 0 0 a b with
  | equal n =>
    rw [found] at out
    exact iff_of_true (clean true out) (fun same => by cases same)
  | differ =>
    rw [found] at out
    exact iff_of_true (clean false out) (fun same => by cases same)
  | lost =>
    rw [found] at out
    obtain ⟨r,ends,kept⟩ := out
    refine iff_of_false ?_ (not_not.mpr rfl)
    rintro ⟨rounds,returned,ran,none,empty⟩
    exact kept ⟨returned,ends.returned rounds ran,none,empty⟩

def mixed (addr : Nat) : Obj := .array addr [if addr = 0 then .bool true else .number ⟨true,1⟩]

theorem mixed_stored (addr : Nat) : Stored mixed (mixed addr) := by
  refine ⟨rfl,?_⟩
  split <;> simp [StoredObjs,Stored]

theorem locks_exact_empty : ∃ rounds returned,equalsLocked (fun _ => false) rounds (.array 0 []) (.array 1 []) = .ok returned ∧
    (∀ addr,returned.held addr = 0) ∧ returned.stack = [] := by
  have stored : ∀ addr,Stored (fun addr => .array addr []) (.array addr []) := fun addr => by simp [Stored,StoredObjs]
  exact (locks_exact (fun addr => .array addr []) (.array 0 []) (.array 1 []) (stored 0) (stored 1) fun _ => false).mpr (by decide)

theorem locks_kept : ¬∀ memory a b,Stored memory a → Stored memory b → ∀ malloc rounds returned,
    equalsLocked malloc rounds a b = .ok returned → (∀ addr,returned.held addr = 0) ∧ returned.stack = [] := by
  intro all
  have here := all mixed (mixed 0) (mixed 1) (mixed_stored 0) (mixed_stored 1) (fun _ => true) 5 _ rfl
  exact absurd (here.1 0) (by decide)
end NetbsdAvr32.PropEquals
