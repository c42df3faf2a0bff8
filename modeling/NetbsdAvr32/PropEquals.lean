import NetbsdAvr32.PropDict
import NetbsdAvr32.Turns

-- prop_object_equals of common/lib/libprop, with the pot_equals of each type.
-- The read locks it takes are left out.
namespace NetbsdAvr32.PropEquals
open Turns

-- struct _prop_number_value
structure Number where
  isUnsigned : Bool
  bits : BitVec 64
  deriving DecidableEq

def Number.value (pnv : Number) : Int := if pnv.isUnsigned then pnv.bits.toNat else pnv.bits.toInt

-- There is one copy of each boolean and of each number; the others have an address.
inductive Obj where
  | bool (b : Bool)
  | number (pnv : Number)
  | string (addr : Nat) (text : PropDict.Key)
  | data (addr : Nat) (bytes : List (BitVec 8))
  | array (addr : Nat) (objs : List Obj)
  | dict (addr : Nat) (entries : List (PropDict.Key × Obj))

-- po_type
inductive Kind where
  | bool | number | string | data | array | dict
  deriving DecidableEq

inductive Ptr where
  | bool (b : Bool)
  | number (pnv : Number)
  | at (addr : Nat)
  deriving DecidableEq

namespace Obj

def kind : Obj → Kind
  | .bool _ => .bool
  | .number _ => .number
  | .string _ _ => .string
  | .data _ _ => .data
  | .array _ _ => .array
  | .dict _ _ => .dict

def ptr : Obj → Ptr
  | .bool b => .bool b
  | .number pnv => .number pnv
  | .string addr _ => .at addr
  | .data addr _ => .at addr
  | .array addr _ => .at addr
  | .dict addr _ => .at addr
end Obj

-- A prop_object_t: an object, or the address of the pde_objref that refers to it.
inductive Ref where
  | obj (o : Obj)
  | slot (o : Obj)

-- _prop_object_equals_rv_t, with what is stored for _PROP_OBJECT_EQUALS_RECURSE.
inductive Rv where
  | false
  | true
  | recurse (stored1 stored2 : Nat) (next1 next2 : Ref)

def rvOf (b : Bool) : Rv := if b then .true else .false

-- A pot_equals called on objects of another type.
def confused : Except Halt Rv := .error (.fault "access through the wrong structure type")

def propBoolEquals (v1 v2 : Obj) : Except Halt Rv :=
  if v1.kind ≠ .bool ∨ v2.kind ≠ .bool then .ok .false else .ok (rvOf (v1.ptr = v2.ptr))

def int64Max : Nat := 2 ^ 63 - 1

def propNumberEquals (v1 v2 : Obj) : Except Halt Rv :=
  if v1.ptr = v2.ptr then .ok .true
  else
    match v1,v2 with
    | .number num1,.number num2 =>
      if num1.isUnsigned = num2.isUnsigned then .ok .false
      else if num1.isUnsigned then
        if num1.bits.toNat > int64Max then .ok .false
        else if num2.bits.toInt < 0 then .ok .false
        else .ok (rvOf (num1.bits.toInt = num2.bits.toInt))
      else
        if num1.bits.toInt < 0 then .ok .false
        else if num2.bits.toNat > int64Max then .ok .false
        else .ok (rvOf (num1.bits.toInt = num2.bits.toInt))
    | _,_ => confused

def propStringEquals (v1 v2 : Obj) : Except Halt Rv :=
  if v1.ptr = v2.ptr then .ok .true
  else
    match v1,v2 with
    | .string _ str1,.string _ str2 =>
      if str1.val.length ≠ str2.val.length then .ok .false
      else if PropDict.strcmp str1 str2 ≠ 0 then .ok .false
      else .ok .true
    | _,_ => confused

def propDataEquals (v1 v2 : Obj) : Except Halt Rv :=
  if v1.ptr = v2.ptr then .ok .true
  else
    match v1,v2 with
    | .data _ pd1,.data _ pd2 =>
      if pd1.length ≠ pd2.length then .ok .false
      else if pd1.length = 0 then .ok .true
      else .ok (rvOf (pd1 = pd2))
    | _,_ => confused

def propArrayEquals (v1 v2 : Obj) (stored1 stored2 : Nat) : Except Halt Rv :=
  if v1.ptr = v2.ptr then .ok .true
  else
    match v1,v2 with
    | .array _ array1,.array _ array2 =>
      if stored1 ≠ stored2 then .error (.panic "*stored_pointer1 == *stored_pointer2")
      else
        let idx := stored1
        if array1.length ≠ array2.length then .ok .false
        else if idx = array1.length then .ok .true
        else
          match array1[idx]?,array2[idx]? with
          | some next1,some next2 => .ok (.recurse (idx + 1) (idx + 1) (.obj next1) (.obj next2))
          | _,_ => .error (.panic "idx < array1->pa_count")
    | _,_ => confused

def propDictionaryEquals (v1 v2 : Obj) (stored1 stored2 : Nat) : Except Halt Rv :=
  if v1.ptr = v2.ptr then .ok .true
  else
    match v1,v2 with
    | .dict _ dict1,.dict _ dict2 =>
      if stored1 ≠ stored2 then .error (.panic "*stored_pointer1 == *stored_pointer2")
      else
        let idx := stored1
        if dict1.length ≠ dict2.length then .ok .false
        else if idx = dict1.length then .ok .true
        else
          match dict1[idx]?,dict2[idx]? with
          | some (key1,next1),some (key2,next2) =>
            if key1 ≠ key2 then .ok .false
            else .ok (.recurse (idx + 1) (idx + 1) (.slot next1) (.slot next2))
          | _,_ => .error (.panic "idx < dict1->pd_count")
    | _,_ => confused

-- (*po1->po_type->pot_equals)
def potEquals (type : Kind) (v1 v2 : Obj) (stored1 stored2 : Nat) : Except Halt Rv :=
  match type with
  | .bool => propBoolEquals v1 v2
  | .number => propNumberEquals v1 v2
  | .string => propStringEquals v1 v2
  | .data => propDataEquals v1 v2
  | .array => propArrayEquals v1 v2 stored1 stored2
  | .dict => propDictionaryEquals v1 v2 stored1 stored2

-- An element of the stack.
structure Elem where
  obj1 : Obj
  obj2 : Obj
  stored1 : Nat
  stored2 : Nat

def propStackInternElems : Nat := 16

-- `malloc`: whether an element gets memory when the intern ones are used up.
def propStackPush (malloc : Bool) (stack : List Elem) (elem : Elem) : Option (List Elem) :=
  if stack.length ≥ propStackInternElems ∧ ¬malloc then none else some (elem :: stack)

-- The labels of prop_object_equals_with_error. Of po1 only the type is used.
inductive At where
  | startSubtree (obj1 obj2 : Ref) (stack : List Elem)
  | continueSubtree (type : Kind) (obj1 obj2 : Obj) (stored1 stored2 : Nat) (stack : List Elem)

-- From one label to the next, or to the value and *error_flag.
def equalsTurn (malloc : Bool) : At → Except Halt (Turn At (Bool × Bool))
  | .startSubtree (.obj obj1) (.obj obj2) stack =>
    if obj1.kind ≠ obj2.kind then .ok (.done (false,false))
    else .ok (.again (.continueSubtree obj1.kind obj1 obj2 0 0 stack))
  -- The first word of a slot is the pointer in it, and is taken for po_type.
  | .startSubtree (.slot obj1) (.slot obj2) _ =>
    if obj1.ptr ≠ obj2.ptr then .ok (.done (false,false)) else .error (.fault "an object taken for a type")
  | .startSubtree _ _ _ => .ok (.done (false,false))
  | .continueSubtree type obj1 obj2 stored1 stored2 stack => do
    match ← potEquals type obj1 obj2 stored1 stored2 with
    | .false => .ok (.done (false,false))
    | .true =>
      match stack with
      | [] => .ok (.done (true,false))
      | top :: stack => .ok (.again (.continueSubtree type top.obj1 top.obj2 top.stored1 top.stored2 stack))
    | .recurse stored1 stored2 next1 next2 =>
      match propStackPush malloc stack ⟨obj1,obj2,stored1,stored2⟩ with
      | none => .ok (.done (false,true))
      | some stack => .ok (.again (.startSubtree next1 next2 stack))

def propObjectEqualsWithError (malloc : Bool) (rounds : Nat) (obj1 obj2 : Obj) : Except Halt (Bool × Bool) :=
  run (equalsTurn malloc) rounds (.startSubtree (.obj obj1) (.obj obj2) [])

def propObjectEquals (malloc : Bool) (rounds : Nat) (obj1 obj2 : Obj) : Except Halt Bool := do
  let (value,_) ← propObjectEqualsWithError malloc rounds obj1 obj2
  .ok value

-- What the call is to tell: the containers have one shape, and equal leaves.
mutual
def equal : Obj → Obj → Bool
  | .bool b1,.bool b2 => b1 = b2
  | .number num1,.number num2 => num1.value = num2.value
  | .string _ str1,.string _ str2 => str1 = str2
  | .data _ pd1,.data _ pd2 => pd1 = pd2
  | .array _ array1,.array _ array2 => equalObjs array1 array2
  | .dict _ dict1,.dict _ dict2 => equalEntries dict1 dict2
  | _,_ => false

def equalObjs : List Obj → List Obj → Bool
  | [],[] => true
  | obj1 :: array1,obj2 :: array2 => equal obj1 obj2 && equalObjs array1 array2
  | _,_ => false

def equalEntries : List (PropDict.Key × Obj) → List (PropDict.Key × Obj) → Bool
  | [],[] => true
  | (key1,obj1) :: dict1,(key2,obj2) :: dict2 => decide (key1 = key2) && equal obj1 obj2 && equalEntries dict1 dict2
  | _,_ => false
end

-- The two objects lie in one memory.
mutual
def Stored (memory : Nat → Obj) : Obj → Prop
  | .bool _ => True
  | .number _ => True
  | .string addr text => memory addr = .string addr text
  | .data addr bytes => memory addr = .data addr bytes
  | .array addr objs => memory addr = .array addr objs ∧ StoredObjs memory objs
  | .dict addr entries => memory addr = .dict addr entries ∧ StoredEntries memory entries

def StoredObjs (memory : Nat → Obj) : List Obj → Prop
  | [] => True
  | obj :: objs => Stored memory obj ∧ StoredObjs memory objs

def StoredEntries (memory : Nat → Obj) : List (PropDict.Key × Obj) → Prop
  | [] => True
  | (_,obj) :: entries => Stored memory obj ∧ StoredEntries memory entries
end
end NetbsdAvr32.PropEquals
