import NetbsdAvr32.PropEquals
import Mathlib.Data.Nat.Find

-- When prop_object_equals tells equal objects from unequal ones.
namespace NetbsdAvr32.PropEquals
open Turns Obj Outcome List

def Leaf (a : Obj) : Prop := a.kind ≠ .array ∧ a.kind ≠ .dict

-- Two arrays the comparison walks through: one object, or as long as each other
-- and with such arrays for elements.
inductive Passed : Obj → Obj → Prop
  | same : Passed (.array addr array1) (.array addr array2)
  | arrays {array1 array2 : List Obj} (count : array1.length = array2.length)
      (all : ∀ (i : Nat) x y, array1[i]? = some x → array2[i]? = some y → Passed x y) :
      Passed (.array addr1 array1) (.array addr2 array2)

def PassedBelow (array1 array2 : List Obj) (i : Nat) : Prop :=
  ∀ j < i, ∀ x y, array1[j]? = some x → array2[j]? = some y → Passed x y

-- Two objects the comparison ends at with `false`.
inductive Differs : Obj → Obj → Prop
  | kind (other : a.kind ≠ b.kind) : Differs a b
  | leaf (leaf : Leaf a) (unequal : equal a b = false) : Differs a b
  | count (apart : addr1 ≠ addr2) (count : array1.length ≠ array2.length) :
      Differs (.array addr1 array1) (.array addr2 array2)
  | element {array1 array2 : List Obj} {i : Nat} (apart : addr1 ≠ addr2) (count : array1.length = array2.length)
      (below : PassedBelow array1 array2 i) (at1 : array1[i]? = some x) (at2 : array2[i]? = some y)
      (differs : Differs x y) : Differs (.array addr1 array1) (.array addr2 array2)
  -- Booleans inside an array, equal or not.
  | bool {array1 array2 : List Obj} {i : Nat} (apart : addr1 ≠ addr2) (count : array1.length = array2.length)
      (below : PassedBelow array1 array2 i) (at1 : array1[i]? = some (.bool p)) (at2 : array2[i]? = some (.bool q)) :
      Differs (.array addr1 array1) (.array addr2 array2)
  | dictCount (apart : addr1 ≠ addr2) (count : dict1.length ≠ dict2.length) :
      Differs (.dict addr1 dict1) (.dict addr2 dict2)
  | dictFirst (apart : addr1 ≠ addr2) (first : key1 ≠ key2 ∨ x.ptr ≠ y.ptr) :
      Differs (.dict addr1 ((key1,x) :: dict1)) (.dict addr2 ((key2,y) :: dict2))

variable {a b x y : Obj} {addr1 addr2 i n : Nat} {array1 array2 : List Obj} {memory : Nat → Obj} {stack : List Elem} {top : Elem}

theorem value_signed {pnv : Number} (signed : pnv.isUnsigned = false) : pnv.value = pnv.bits.toInt := by
  rw [Number.value,signed,if_neg Bool.false_ne_true]

theorem value_unsigned {pnv : Number} (unsigned : pnv.isUnsigned = true) : pnv.value = pnv.bits.toNat := by
  rw [Number.value,unsigned,if_pos rfl]

-- A signed and an unsigned word can only be compared as signed ones in the
-- range they share.
theorem mixed_bits (s u : BitVec 64) : s.toInt = u.toNat ↔ ¬s.toInt < 0 ∧ ¬u.toNat > int64Max ∧ s.toInt = u.toInt := by
  have cond := BitVec.toInt_eq_toNat_cond u
  have lt := BitVec.toInt_lt (x := s)
  unfold int64Max
  split at cond <;> omega

theorem number_mixed {num1 num2 : Number} (mixed : num1.isUnsigned ≠ num2.isUnsigned) :
    propNumberEquals (.number num1) (.number num2) = .ok (rvOf (num1.value = num2.value)) := by
  have apart : (number num1).ptr ≠ (number num2).ptr := by
    intro same
    cases same
    exact mixed rfl
  rw [propNumberEquals,if_neg apart,if_neg mixed]
  cases sign1 : num1.isUnsigned
  · have sign2 : num2.isUnsigned = true := by simpa [sign1] using mixed
    have compare := mixed_bits num1.bits num2.bits
    rw [value_signed sign1,value_unsigned sign2,if_neg Bool.false_ne_true]
    split
    · next negative =>
      rw [decide_eq_false (fun same => (compare.mp same).1 negative)]
      rfl
    next negative =>
    split
    · next large =>
      rw [decide_eq_false (fun same => (compare.mp same).2.1 large)]
      rfl
    next large =>
    simp only [compare,negative,large,not_false_eq_true,true_and]
  have sign2 : num2.isUnsigned = false := by simpa [sign1] using mixed
  have compare := mixed_bits num2.bits num1.bits
  rw [value_unsigned sign1,value_signed sign2,if_pos rfl]
  split
  · next large =>
    rw [decide_eq_false (fun same => (compare.mp same.symm).2.1 large)]
    rfl
  next large =>
  split
  · next negative =>
    rw [decide_eq_false (fun same => (compare.mp same.symm).1 negative)]
    rfl
  next negative =>
  have swapped : num1.bits.toInt = num2.bits.toInt ↔ (num1.bits.toNat : Int) = num2.bits.toInt := by
    rw [eq_comm,eq_comm (a := (num1.bits.toNat : Int)),compare]
    simp only [negative,large,not_false_eq_true,true_and]
  simp only [swapped]

theorem number_same {num1 num2 : Number} (sign : num1.isUnsigned = num2.isUnsigned) : num1.value = num2.value ↔ num1 = num2 := by
  constructor
  · intro same
    obtain ⟨u1,bits1⟩ := num1
    obtain ⟨u2,bits2⟩ := num2
    obtain rfl : u1 = u2 := sign
    cases u1
    · rw [BitVec.eq_of_toInt_eq (show bits1.toInt = bits2.toInt from same)]
    have nat : bits1.toNat = bits2.toNat := Int.ofNat.inj same
    rw [BitVec.eq_of_toNat_eq nat]
  rintro rfl
  rfl

theorem number_spec (num1 num2 : Number) :
    propNumberEquals (.number num1) (.number num2) = .ok (rvOf (num1.value = num2.value)) := by
  by_cases sign : num1.isUnsigned = num2.isUnsigned
  · rw [propNumberEquals]
    by_cases same : num1 = num2
    · subst same
      rw [if_pos rfl,decide_eq_true rfl]
      rfl
    have apart : (number num1).ptr ≠ (number num2).ptr := fun ptr => same (Ptr.number.inj ptr)
    rw [if_neg apart,if_pos sign,decide_eq_false (fun value => same ((number_same sign).mp value))]
    rfl
  · exact number_mixed sign

theorem leaf_spec (leaf : Leaf a) (kind : a.kind = b.kind) (stored1 : Stored memory a) (stored2 : Stored memory b) :
    potEquals a.kind a b 0 0 = .ok (rvOf (equal a b)) := by
  cases a with
  | bool b1 =>
    cases b <;> cases kind
    next b2 =>
      rw [equal]
      show propBoolEquals _ _ = _
      rw [propBoolEquals,if_neg (by simp [kind])]
      simp only [ptr,Ptr.bool.injEq]
  | number num1 =>
    cases b <;> cases kind
    next num2 =>
      exact number_spec num1 num2
  | string addr1 str1 =>
    cases b <;> cases kind
    next addr2 str2 =>
      rw [equal]
      show propStringEquals _ _ = _
      rw [propStringEquals]
      by_cases ptr : addr1 = addr2
      · subst ptr
        have text : string addr1 str1 = .string addr1 str2 := stored1.symm.trans stored2
        rw [if_pos (by rfl),decide_eq_true (string.inj text).2]
        rfl
      have apart : (string addr1 str1).ptr ≠ (string addr2 str2).ptr := fun same => ptr (Ptr.at.inj same)
      rw [if_neg apart]
      by_cases same : str1 = str2
      · subst same
        rw [if_neg (by simp),if_neg (by simp [PropDict.strcmp_self]),decide_eq_true rfl]
        rfl
      rw [decide_eq_false same]
      split
      · rfl
      rw [if_pos (fun zero => same (PropDict.strcmp_eq zero))]
      rfl
  | data addr1 pd1 =>
    cases b <;> cases kind
    next addr2 pd2 =>
      rw [equal]
      show propDataEquals _ _ = _
      rw [propDataEquals]
      by_cases ptr : addr1 = addr2
      · subst ptr
        have bytes : data addr1 pd1 = .data addr1 pd2 := stored1.symm.trans stored2
        rw [if_pos (by rfl),decide_eq_true (data.inj bytes).2]
        rfl
      have apart : (data addr1 pd1).ptr ≠ (data addr2 pd2).ptr := fun same => ptr (Ptr.at.inj same)
      rw [if_neg apart]
      by_cases length : pd1.length = pd2.length
      · rw [if_neg (by simpa using length)]
        by_cases zero : pd1.length = 0
        · have empty1 := eq_nil_of_length_eq_zero zero
          have empty2 := eq_nil_of_length_eq_zero (length.symm.trans zero)
          rw [if_pos zero,decide_eq_true (empty1.trans empty2.symm)]
          rfl
        · rw [if_neg zero]
      rw [if_pos length,decide_eq_false (fun same => length (by rw [same]))]
      rfl
  | array => exact (leaf.1 rfl).elim
  | dict => exact (leaf.2 rfl).elim

def resumed (type : Kind) (top : Elem) (stack : List Elem) : At :=
  .continueSubtree type top.obj1 top.obj2 top.stored1 top.stored2 stack

def starts (a b : Obj) (stack : List Elem) : At := .startSubtree (.obj a) (.obj b) stack

section turns
variable {type : Kind} {stored1 stored2 : Nat}

theorem starts_reaches (kind : a.kind = b.kind) :
    Reaches (equalsTurn true) (starts a b stack) (.continueSubtree a.kind a b 0 0 stack) := by
  refine reaches_again ?_
  exact if_neg (not_not.mpr kind)

theorem starts_kinds (other : a.kind ≠ b.kind) : Ends (equalsTurn true) (starts a b stack) (.ok (false,false)) := by
  refine ends_done ?_
  exact if_pos other

theorem starts_arrays : Reaches (equalsTurn true) (starts (.array addr1 array1) (.array addr2 array2) stack)
    (.continueSubtree .array (.array addr1 array1) (.array addr2 array2) 0 0 stack) := starts_reaches rfl

theorem pot_false (said : potEquals type a b stored1 stored2 = .ok .false) :
    Ends (equalsTurn true) (.continueSubtree type a b stored1 stored2 stack) (.ok (false,false)) := by
  refine ends_done ?_
  rw [equalsTurn.eq_def]
  dsimp only
  rw [said,ok_bind]

theorem pot_error (said : potEquals type a b stored1 stored2 = .error e) :
    Ends (equalsTurn true) (.continueSubtree type a b stored1 stored2 stack) (.error e) := by
  refine ends_error ?_
  rw [equalsTurn.eq_def]
  dsimp only
  rw [said,error_bind]

theorem pot_true_root (said : potEquals type a b stored1 stored2 = .ok .true) :
    Ends (equalsTurn true) (.continueSubtree type a b stored1 stored2 []) (.ok (true,false)) := by
  refine ends_done ?_
  simp only [equalsTurn,said,ok_bind]

theorem pot_true (said : potEquals type a b stored1 stored2 = .ok .true) :
    Reaches (equalsTurn true) (.continueSubtree type a b stored1 stored2 (top :: stack)) (resumed type top stack) := by
  refine reaches_again ?_
  rw [equalsTurn,said,ok_bind]
  rfl

theorem pot_recurse (stack : List Elem) {next1 next2 : Ref} (said : potEquals type a b stored1 stored2 = .ok (.recurse n n next1 next2)) :
    Reaches (equalsTurn true) (.continueSubtree type a b stored1 stored2 stack)
      (.startSubtree next1 next2 (⟨a,b,n,n⟩ :: stack)) := by
  refine reaches_again ?_
  rw [equalsTurn.eq_def]
  dsimp only
  rw [said,ok_bind]
  dsimp only
  rw [propStackPush,if_neg (by simp)]
end turns

theorem array_apart (apart : addr1 ≠ addr2) : (array addr1 array1).ptr ≠ (array addr2 array2).ptr :=
  fun same => apart (Ptr.at.inj same)

theorem array_same : potEquals .array (.array addr1 array1) (.array addr1 array2) i i = .ok .true := if_pos rfl

theorem array_count (apart : addr1 ≠ addr2) (count : array1.length ≠ array2.length) :
    potEquals .array (.array addr1 array1) (.array addr2 array2) i i = .ok .false := by
  show propArrayEquals _ _ _ _ = _
  rw [propArrayEquals,if_neg (array_apart apart)]
  rw [if_neg (by simp),if_pos count]

theorem array_end (apart : addr1 ≠ addr2) (count : array1.length = array2.length) :
    potEquals .array (.array addr1 array1) (.array addr2 array2) array1.length array1.length = .ok .true := by
  show propArrayEquals _ _ _ _ = _
  rw [propArrayEquals,if_neg (array_apart apart)]
  rw [if_neg (by simp),if_neg (by simpa using count),if_pos rfl]

theorem array_element (apart : addr1 ≠ addr2) (count : array1.length = array2.length) (at1 : array1[i]? = some x)
    (at2 : array2[i]? = some y) : potEquals .array (.array addr1 array1) (.array addr2 array2) i i =
      .ok (.recurse (i + 1) (i + 1) (.obj x) (.obj y)) := by
  obtain ⟨inside,_⟩ := List.getElem?_eq_some_iff.mp at1
  show propArrayEquals _ _ _ _ = _
  rw [propArrayEquals,if_neg (array_apart apart)]
  rw [if_neg (by simp),if_neg (by simpa using count),if_neg (by omega),at1,at2]

structure Arrays (top : Elem) : Prop where
  first : top.obj1.kind = .array
  second : top.obj2.kind = .array
  apart : top.obj1.ptr ≠ top.obj2.ptr

theorem arrays_pushed (apart : addr1 ≠ addr2) : Arrays ⟨.array addr1 array1,.array addr2 array2,n,n⟩ :=
  ⟨rfl,rfl,array_apart apart⟩

theorem resumed_bool (arrays : Arrays top) : Ends (equalsTurn true) (resumed .bool top stack) (.ok (false,false)) := by
  refine pot_false ?_
  show propBoolEquals _ _ = _
  rw [propBoolEquals,if_pos (.inl (by rw [arrays.first]; decide))]

theorem resumed_confused (type : Kind) (stack : List Elem) (arrays : Arrays top) (other : type ≠ .array) (notBool : type ≠ .bool) :
    ∃ e, Ends (equalsTurn true) (resumed type top stack) (.error e) := by
  obtain ⟨obj1,obj2,stored1,stored2⟩ := top
  obtain ⟨first,second,apart⟩ := arrays
  cases obj1 <;> cases first
  cases obj2 <;> cases second
  next addr1 objs1 addr2 objs2 =>
    have said : potEquals type (.array addr1 objs1) (.array addr2 objs2) stored1 stored2 = confused := by
      cases type with
      | bool => exact (notBool rfl).elim
      | array => exact (other rfl).elim
      | number => exact if_neg apart
      | string => exact if_neg apart
      | data => exact if_neg apart
      | dict => exact if_neg apart
    exact ⟨_,pot_error said⟩

theorem walk_reaches (apart : addr1 ≠ addr2) (count : array1.length = array2.length)
    (each : ∀ j < n, ∀ x y, array1[j]? = some x → array2[j]? = some y → ∀ top stack,
      Reaches (equalsTurn true) (starts x y (top :: stack)) (resumed .array top stack)) (inside : n ≤ array1.length)
    (stack : List Elem) : Reaches (equalsTurn true)
      (.continueSubtree .array (.array addr1 array1) (.array addr2 array2) 0 0 stack)
      (.continueSubtree .array (.array addr1 array1) (.array addr2 array2) n n stack) := by
  induction n with
  | zero => exact .refl _
  | succ n ih =>
    have at1 := getElem?_eq_getElem (show n < array1.length by omega)
    have at2 := getElem?_eq_getElem (show n < array2.length by omega)
    have before := ih (fun j lt => each j (Nat.lt_succ_of_lt lt)) (Nat.le_of_succ_le inside)
    have pushed := pot_recurse stack (array_element apart count at1 at2)
    exact before.trans (pushed.trans (each n (Nat.lt_succ_self n) _ _ at1 at2 _ stack))

theorem passed_reaches (passed : Passed a b) : ∀ top stack,
    Reaches (equalsTurn true) (starts a b (top :: stack)) (resumed .array top stack) := by
  induction passed with
  | same =>
    intro top stack
    exact starts_arrays.trans (pot_true array_same)
  | @arrays addr1 addr2 array1 array2 count all ih =>
    intro top stack
    by_cases same : addr1 = addr2
    · subst same
      exact starts_arrays.trans (pot_true array_same)
    have walk := walk_reaches same count (fun j _ x y at1 at2 => ih j x y at1 at2) (Nat.le_refl _) (top :: stack)
    exact starts_arrays.trans (walk.trans (pot_true (array_end same count)))

theorem below_reaches (apart : addr1 ≠ addr2) (count : array1.length = array2.length) (below : PassedBelow array1 array2 i)
    (at1 : array1[i]? = some x) (at2 : array2[i]? = some y) (stack : List Elem) :
    Reaches (equalsTurn true) (starts (.array addr1 array1) (.array addr2 array2) stack)
      (starts x y (⟨.array addr1 array1,.array addr2 array2,i + 1,i + 1⟩ :: stack)) := by
  obtain ⟨inside,_⟩ := List.getElem?_eq_some_iff.mp at1
  have walk := walk_reaches apart count (fun j lt x y at1 at2 => passed_reaches (below j lt x y at1 at2)) (Nat.le_of_lt inside) stack
  exact starts_arrays.trans (walk.trans (pot_recurse _ (array_element apart count at1 at2)))

theorem stored_at {objs : List Obj} (stored : StoredObjs memory objs) (at_ : objs[i]? = some x) : Stored memory x := by
  induction objs generalizing i with
  | nil => cases at_
  | cons obj objs ih =>
    cases i with
    | zero =>
      cases at_
      exact stored.1
    | succ i => exact ih stored.2 at_

section dictionaries
variable {dict1 dict2 : List (PropDict.Key × Obj)} {key1 key2 : PropDict.Key}

theorem dict_apart (apart : addr1 ≠ addr2) : (dict addr1 dict1).ptr ≠ (dict addr2 dict2).ptr :=
  fun same => apart (Ptr.at.inj same)

theorem starts_dicts : Reaches (equalsTurn true) (starts (.dict addr1 dict1) (.dict addr2 dict2) stack)
    (.continueSubtree .dict (.dict addr1 dict1) (.dict addr2 dict2) 0 0 stack) := starts_reaches rfl

theorem dict_same : potEquals .dict (.dict addr1 dict1) (.dict addr1 dict2) 0 0 = .ok .true := if_pos rfl

theorem dict_empty : potEquals .dict (.dict addr1 []) (.dict addr2 []) 0 0 = .ok .true := by
  by_cases same : addr1 = addr2
  · subst same
    exact dict_same
  · exact if_neg (dict_apart same)

theorem dict_count (apart : addr1 ≠ addr2) (count : dict1.length ≠ dict2.length) :
    potEquals .dict (.dict addr1 dict1) (.dict addr2 dict2) 0 0 = .ok .false := by
  show propDictionaryEquals _ _ _ _ = _
  rw [propDictionaryEquals,if_neg (dict_apart apart)]
  rw [if_neg (by simp),if_pos count]

theorem dict_first (key1 key2 : PropDict.Key) (x y : Obj) (apart : addr1 ≠ addr2) (count : dict1.length = dict2.length) :
    potEquals .dict (.dict addr1 ((key1,x) :: dict1)) (.dict addr2 ((key2,y) :: dict2)) 0 0 =
      if key1 ≠ key2 then .ok .false else .ok (.recurse 1 1 (.slot x) (.slot y)) := by
  show propDictionaryEquals _ _ _ _ = _
  rw [propDictionaryEquals,if_neg (dict_apart apart)]
  rw [if_neg (by simp),if_neg (by simpa using count),if_neg (by simp)]
  rfl

theorem first_ends (apart : addr1 ≠ addr2) (first : key1 ≠ key2 ∨ x.ptr ≠ y.ptr) :
    Ends (equalsTurn true) (starts (.dict addr1 ((key1,x) :: dict1)) (.dict addr2 ((key2,y) :: dict2)) stack)
      (.ok (false,false)) := by
  refine starts_dicts.ends ?_
  by_cases count : dict1.length = dict2.length
  · have said := dict_first key1 key2 x y apart count
    by_cases keys : key1 = key2
    · rw [if_neg (not_not.mpr keys)] at said
      refine (pot_recurse _ said).ends (ends_done ?_)
      exact if_pos (first.resolve_left (not_not.mpr keys))
    rw [if_pos keys] at said
    exact pot_false said
  · exact pot_false (dict_count apart (by simpa using count))

theorem first_lost (apart : addr1 ≠ addr2) (count : dict1.length = dict2.length) (same : x.ptr = y.ptr) :
    ∃ e, Ends (equalsTurn true) (starts (.dict addr1 ((key1,x) :: dict1)) (.dict addr2 ((key1,y) :: dict2)) stack) (.error e) := by
  have said := dict_first key1 key1 x y apart count
  rw [if_neg (not_not.mpr rfl)] at said
  exact ⟨_,starts_dicts.ends ((pot_recurse _ said).ends (ends_error (if_neg (not_not.mpr same))))⟩
end dictionaries

theorem leaf_false (leaf : Leaf a) (unequal : equal a b = false) (stored1 : Stored memory a) (stored2 : Stored memory b) :
    Ends (equalsTurn true) (starts a b stack) (.ok (false,false)) := by
  by_cases kind : a.kind = b.kind
  · have said := leaf_spec leaf kind stored1 stored2
    rw [unequal] at said
    exact (starts_reaches kind).ends (pot_false said)
  · exact starts_kinds kind

theorem differs_ends (differs : Differs a b) (stored1 : Stored memory a) (stored2 : Stored memory b) :
    ∀ stack, Ends (equalsTurn true) (starts a b stack) (.ok (false,false)) := by
  induction differs with
  | kind other => exact fun stack => starts_kinds other
  | leaf leaf unequal => exact fun stack => leaf_false leaf unequal stored1 stored2
  | count apart count => exact fun stack => starts_arrays.ends (pot_false (array_count apart count))
  | element apart count below at1 at2 differs ih =>
    intro stack
    exact (below_reaches apart count below at1 at2 stack).ends (ih (stored_at stored1.2 at1) (stored_at stored2.2 at2) _)
  | @bool addr1 addr2 p q array1 array2 i apart count below at1 at2 =>
    intro stack
    have kind : (bool p).kind = (bool q).kind := rfl
    refine (below_reaches apart count below at1 at2 stack).ends ((starts_reaches kind).ends ?_)
    by_cases same : p = q
    · subst same
      have said : potEquals (bool p).kind (.bool p) (.bool p) 0 0 = .ok .true := by cases p <;> rfl
      exact (pot_true said).ends (resumed_bool (arrays_pushed apart))
    refine pot_false ?_
    cases p <;> cases q <;> first | rfl | exact (same rfl).elim
  | dictCount apart count => exact fun stack => starts_dicts.ends (pot_false (dict_count apart count))
  | dictFirst apart first => exact fun stack => first_ends apart first

-- Where a walk gets lost, or an array that is neither walked through nor told apart.
theorem first_unpassed (open_ : ¬Passed (.array addr1 array1) (.array addr2 array2))
    (same : ¬Differs (.array addr1 array1) (.array addr2 array2)) :
    addr1 ≠ addr2 ∧ array1.length = array2.length ∧ ∃ i x y, array1[i]? = some x ∧ array2[i]? = some y ∧
      PassedBelow array1 array2 i ∧ ¬Passed x y ∧ ¬Differs x y ∧ x.kind ≠ .bool := by
  have apart : addr1 ≠ addr2 := by
    rintro rfl
    exact open_ .same
  have count : array1.length = array2.length := by
    by_contra other
    exact same (.count apart other)
  have some_ : ∃ (i : Nat) (x y : Obj), array1[i]? = some x ∧ array2[i]? = some y ∧ ¬Passed x y := by
    by_contra none_
    push Not at none_
    exact open_ (.arrays count none_)
  classical
  obtain ⟨x,y,at1,at2,open1⟩ := Nat.find_spec some_
  have below : PassedBelow array1 array2 (Nat.find some_) := by
    intro j lt x y at1 at2
    by_contra no
    exact Nat.find_min some_ lt ⟨x,y,at1,at2,no⟩
  refine ⟨apart,count,_,x,y,at1,at2,below,open1,fun differs => same (.element apart count below at1 at2 differs),?_⟩
  intro bool
  have kind : x.kind = y.kind := by
    by_contra other
    exact same (.element apart count below at1 at2 (.kind other))
  cases x <;> cases bool
  cases y <;> cases kind
  exact same (.bool apart count below at1 at2)

theorem leaf_equal (leaf : Leaf a) (same : ¬Differs a b) : a.kind = b.kind ∧ equal a b = true := by
  constructor
  · by_contra other
    exact same (.kind other)
  by_contra unequal
  exact same (.leaf leaf (by simpa using unequal))

theorem dict_equal {dict1 : List (PropDict.Key × Obj)} (same : ¬Differs (.dict addr1 dict1) b) :
    ∃ addr2 dict2, b = .dict addr2 dict2 ∧ (addr1 = addr2 ∨ dict1 = [] ∧ dict2 = [] ∨
      ∃ key x rest1 y rest2, addr1 ≠ addr2 ∧ dict1 = (key,x) :: rest1 ∧ dict2 = (key,y) :: rest2 ∧
        rest1.length = rest2.length ∧ x.ptr = y.ptr) := by
  have kind : b.kind = .dict := by
    by_contra other
    exact same (.kind (Ne.symm other))
  cases b <;> cases kind
  next addr2 dict2 =>
    refine ⟨addr2,dict2,rfl,?_⟩
    by_cases one : addr1 = addr2
    · exact .inl one
    have count : dict1.length = dict2.length := by
      by_contra other
      exact same (.dictCount one other)
    right
    cases dict1 with
    | nil => exact .inl ⟨rfl,eq_nil_of_length_eq_zero count.symm⟩
    | cons first1 rest1 =>
      cases dict2 with
      | nil => cases count
      | cons first2 rest2 =>
        obtain ⟨key1,x⟩ := first1
        obtain ⟨key2,y⟩ := first2
        have keys : key1 = key2 := by
          by_contra other
          exact same (.dictFirst one (.inl other))
        have ptr : x.ptr = y.ptr := by
          by_contra other
          exact same (.dictFirst one (.inr other))
        subst keys
        exact .inr ⟨key1,x,rest1,y,rest2,one,rfl,rfl,Nat.succ.inj count,ptr⟩

theorem lost_ends (a b : Obj) (open_ : ¬Passed a b) (same : ¬Differs a b) (notBool : a.kind ≠ .bool)
    (stored1 : Stored memory a) (stored2 : Stored memory b) (top : Elem) (arrays : Arrays top) (stack : List Elem) :
    ∃ e, Ends (equalsTurn true) (starts a b (top :: stack)) (.error e) := by
  have leaf_lost : Leaf a → ∃ e, Ends (equalsTurn true) (starts a b (top :: stack)) (.error e) := by
    intro leaf
    obtain ⟨kind,held⟩ := leaf_equal leaf same
    have said := leaf_spec leaf kind stored1 stored2
    rw [held] at said
    obtain ⟨e,lost⟩ := resumed_confused a.kind stack arrays leaf.1 notBool
    exact ⟨e,(starts_reaches kind).ends ((pot_true said).ends lost)⟩
  match a with
  | .bool _ => exact (notBool rfl).elim
  | .number _ => exact leaf_lost ⟨by simp [kind],by simp [kind]⟩
  | .string _ _ => exact leaf_lost ⟨by simp [kind],by simp [kind]⟩
  | .data _ _ => exact leaf_lost ⟨by simp [kind],by simp [kind]⟩
  | .array addr1 array1 =>
    have kind : b.kind = .array := by
      by_contra other
      exact same (.kind (Ne.symm other))
    cases b <;> cases kind
    next addr2 array2 =>
      obtain ⟨apart,count,i,x,y,at1,at2,below,open1,same1,notBool1⟩ := first_unpassed open_ same
      rw [Stored] at stored1 stored2
      have smaller := sizeOf_lt_of_mem (mem_of_getElem? at1)
      obtain ⟨e,lost⟩ := lost_ends x y open1 same1 notBool1 (stored_at stored1.2 at1) (stored_at stored2.2 at2) _
        (arrays_pushed apart) (top :: stack)
      exact ⟨e,(below_reaches apart count below at1 at2 (top :: stack)).ends lost⟩
  | .dict addr1 dict1 =>
    obtain ⟨addr2,dict2,rfl,cases_⟩ := dict_equal same
    have true_lost : potEquals .dict (.dict addr1 dict1) (.dict addr2 dict2) 0 0 = .ok .true →
        ∃ e, Ends (equalsTurn true) (starts (.dict addr1 dict1) (.dict addr2 dict2) (top :: stack)) (.error e) := by
      intro said
      obtain ⟨e,lost⟩ := resumed_confused .dict stack arrays (by decide) (by decide)
      exact ⟨e,starts_dicts.ends ((pot_true said).ends lost)⟩
    rcases cases_ with rfl | ⟨rfl,rfl⟩ | ⟨key,x,rest1,y,rest2,apart,rfl,rfl,count,ptr⟩
    · exact true_lost dict_same
    · exact true_lost dict_empty
    · exact first_lost apart count ptr
termination_by sizeOf a
decreasing_by
  simp only [Obj.array.sizeOf_spec]
  omega

-- When the answer is right. Equal objects: one object, two leaves, two empty
-- dictionaries, or arrays of nothing but arrays. Unequal ones: the walk through
-- the arrays meets two objects it ends at.
def Settled (a b : Obj) : Prop :=
  equal a b = true ∧ (a.ptr = b.ptr ∨ Leaf a ∨ Passed a b ∨ ∃ addr1 addr2, a = .dict addr1 [] ∧ b = .dict addr2 []) ∨
    equal a b = false ∧ Differs a b

theorem passed_root (passed : Passed a b) : Ends (equalsTurn true) (starts a b []) (.ok (true,false)) := by
  cases passed with
  | same => exact starts_arrays.ends (pot_true_root array_same)
  | @arrays addr1 addr2 array1 array2 count all =>
    by_cases same : addr1 = addr2
    · subst same
      exact starts_arrays.ends (pot_true_root array_same)
    have walk := walk_reaches same count (fun j _ x y at1 at2 => passed_reaches (all j x y at1 at2)) (Nat.le_refl _) []
    exact starts_arrays.ends (walk.ends (pot_true_root (array_end same count)))

theorem leaf_root (leaf : Leaf a) (kind : a.kind = b.kind) (stored1 : Stored memory a) (stored2 : Stored memory b) :
    Ends (equalsTurn true) (starts a b []) (.ok (equal a b,false)) := by
  have said := leaf_spec leaf kind stored1 stored2
  cases held : equal a b with
  | false =>
    rw [held] at said
    exact (starts_reaches kind).ends (pot_false said)
  | true =>
    rw [held] at said
    exact (starts_reaches kind).ends (pot_true_root said)

inductive Outcomes (a b : Obj) : Prop
  | passed (passed : Passed a b)
  | differs (differs : Differs a b)
  | leaf (leaf : Leaf a) (kind : a.kind = b.kind)
  | dict (kind : a.kind = .dict) (same : a.ptr = b.ptr ∨ ∃ addr1 addr2, a = .dict addr1 [] ∧ b = .dict addr2 [])
      (ends : Ends (equalsTurn true) (starts a b []) (.ok (true,false)))
  | lost (open_ : ¬Passed a b) (same : ¬Differs a b) (lost : ∃ e, Ends (equalsTurn true) (starts a b []) (.error e))

theorem outcomes (stored1 : Stored memory a) (stored2 : Stored memory b) : Outcomes a b := by
  by_cases passed : Passed a b
  · exact .passed passed
  by_cases differs : Differs a b
  · exact .differs differs
  by_cases leaf : Leaf a
  · exact .leaf leaf (leaf_equal leaf differs).1
  cases a with
  | bool | number | string | data => exact (leaf ⟨by simp [kind],by simp [kind]⟩).elim
  | array addr1 array1 =>
    have kind : b.kind = .array := by
      by_contra other
      exact differs (.kind (Ne.symm other))
    cases b <;> cases kind
    next addr2 array2 =>
      obtain ⟨apart,count,i,x,y,at1,at2,below,open1,same1,notBool1⟩ := first_unpassed passed differs
      obtain ⟨e,lost⟩ := lost_ends x y open1 same1 notBool1 (stored_at stored1.2 at1) (stored_at stored2.2 at2) _
        (arrays_pushed apart) []
      exact .lost passed differs ⟨e,(below_reaches apart count below at1 at2 []).ends lost⟩
  | dict addr1 dict1 =>
    obtain ⟨addr2,dict2,rfl,rfl | ⟨rfl,rfl⟩ | ⟨key,x,rest1,y,rest2,apart,rfl,rfl,count,ptr⟩⟩ := dict_equal differs
    · exact .dict rfl (.inl rfl) (starts_dicts.ends (pot_true_root dict_same))
    · exact .dict rfl (.inr ⟨addr1,addr2,rfl,rfl⟩) (starts_dicts.ends (pot_true_root dict_empty))
    · exact .lost passed differs (first_lost apart count ptr)

theorem value_ends (ends : Ends (equalsTurn true) (starts a b []) (.ok (value,flag))) :
    ∃ rounds, propObjectEquals true rounds a b = .ok value := by
  obtain ⟨rounds,ran⟩ := ends.returns
  refine ⟨rounds,?_⟩
  show (run (equalsTurn true) rounds (starts a b []) >>= _) = _
  rw [ran]
  rfl

theorem value_unique {r : Except Halt (Bool × Bool)} (ends : Ends (equalsTurn true) (starts a b []) r)
    (ran : propObjectEquals true rounds a b = .ok value) : ∃ flag, r = .ok (value,flag) := by
  obtain ⟨⟨v,flag⟩,inner,same⟩ := bind_ok ran
  cases same
  exact ⟨flag,ends.returned rounds inner⟩

theorem stored_same (stored1 : Stored memory a) (stored2 : Stored memory b) (same : a.ptr = b.ptr) : a = b := by
  have at_address : ∀ {o : Obj} {addr : Nat}, Stored memory o → o.ptr = .at addr → memory addr = o := by
    intro o addr stored ptr
    cases o with
    | bool => cases ptr
    | number => cases ptr
    | string => cases ptr; exact stored
    | data => cases ptr; exact stored
    | array | dict => cases ptr; rw [Stored] at stored; exact stored.1
  cases ptr : a.ptr with
  | bool b1 | number pnv => cases a <;> cases ptr <;> cases b <;> cases same <;> rfl
  | «at» addr => exact (at_address stored1 ptr).symm.trans (at_address stored2 (same ▸ ptr))

theorem equal_kind (held : equal a b = true) : a.kind = b.kind := by
  cases a <;> cases b <;> first | rfl | simp [equal] at held

theorem settled_true (stored1 : Stored memory a) (stored2 : Stored memory b) (held : equal a b = true)
    (how : a.ptr = b.ptr ∨ Leaf a ∨ Passed a b ∨ ∃ addr1 addr2, a = .dict addr1 [] ∧ b = .dict addr2 []) :
    Ends (equalsTurn true) (starts a b []) (.ok (true,false)) := by
  rcases how with same | leaf | passed | ⟨addr1,addr2,rfl,rfl⟩
  · obtain rfl := stored_same stored1 stored2 same
    by_cases leaf : Leaf a
    · have ends := leaf_root leaf rfl stored1 stored2
      rwa [held] at ends
    cases a with
    | array => exact passed_root .same
    | dict => exact starts_dicts.ends (pot_true_root dict_same)
    | bool | number | string | data => exact (leaf ⟨by simp [kind],by simp [kind]⟩).elim
  · have ends := leaf_root leaf (equal_kind held) stored1 stored2
    rwa [held] at ends
  · exact passed_root passed
  · exact starts_dicts.ends (pot_true_root dict_empty)

-- With all the memory it asks for, the call tells equal objects from unequal
-- ones exactly when they are settled.
theorem equals_settled (stored1 : Stored memory a) (stored2 : Stored memory b) :
    (∃ rounds, propObjectEquals true rounds a b = .ok (equal a b)) ↔ Settled a b := by
  constructor
  · rintro ⟨rounds,ran⟩
    -- The value the call gives is the one its outcome says.
    have said : ∀ value flag, Ends (equalsTurn true) (starts a b []) (.ok (value,flag)) → equal a b = value := by
      intro value flag ends
      obtain ⟨_,same⟩ := value_unique ends ran
      exact (Prod.mk.inj (Except.ok.inj same)).1.symm
    cases outcomes stored1 stored2 with
    | passed passed => exact .inl ⟨said _ _ (passed_root passed),.inr (.inr (.inl passed))⟩
    | differs differs => exact .inr ⟨said _ _ (differs_ends differs stored1 stored2 []),differs⟩
    | leaf leaf kind =>
      cases held : equal a b with
      | true => exact .inl ⟨held,.inr (.inl leaf)⟩
      | false => exact .inr ⟨held,.leaf leaf held⟩
    | dict kind same ends => exact .inl ⟨said _ _ ends,same.imp id (fun empty => .inr (.inr empty))⟩
    | lost open_ same lost =>
      obtain ⟨e,ends⟩ := lost
      obtain ⟨_,same⟩ := value_unique ends ran
      cases same
  · rintro (⟨held,how⟩ | ⟨held,differs⟩)
    · rw [held]
      exact value_ends (settled_true stored1 stored2 held how)
    · rw [held]
      exact value_ends (differs_ends differs stored1 stored2 [])

theorem equals_settled_nested : ∃ rounds, propObjectEquals true rounds (.array 0 [.array 2 []]) (.array 1 [.array 3 []]) = .ok true := by
  let memory : Nat → Obj := fun addr =>
    match addr with
    | 0 => .array 0 [.array 2 []]
    | 1 => .array 1 [.array 3 []]
    | addr => .array addr []
  have stored1 : Stored memory (.array 0 [.array 2 []]) := by simp [Stored,StoredObjs,memory]
  have stored2 : Stored memory (.array 1 [.array 3 []]) := by simp [Stored,StoredObjs,memory]
  refine (equals_settled stored1 stored2).mpr (.inl ⟨rfl,.inr (.inr (.inl (.arrays rfl fun i x y at1 at2 => ?_)))⟩)
  cases i with
  | zero =>
    cases at1
    cases at2
    exact .arrays rfl fun i x y at1 _ => by cases at1
  | succ i => cases at1

def truths (addr : Nat) : Obj := .array addr [.bool true]

theorem truths_unequal : Stored truths (truths 0) ∧ Stored truths (truths 1) ∧ equal (truths 0) (truths 1) = true ∧
    (∃ rounds, propObjectEquals true rounds (truths 0) (truths 1) = .ok false) ∧
    ¬∃ rounds, propObjectEquals true rounds (truths 0) (truths 1) = .ok true := by
  have stored : ∀ addr, Stored truths (truths addr) := by
    intro addr
    rw [truths,Stored]
    exact ⟨rfl,by simp [StoredObjs,Stored]⟩
  have ends : Ends (equalsTurn true) (starts (truths 0) (truths 1) []) (.ok (false,false)) :=
    ⟨5,fun rounds => run_more 5 rounds rfl⟩
  refine ⟨stored 0,stored 1,rfl,value_ends ends,?_⟩
  rintro ⟨rounds,ran⟩
  obtain ⟨_,same⟩ := value_unique ends ran
  cases same

-- With memory or without, the call says of no two unequal objects that they are equal.

theorem push_more {malloc : Bool} {rest : List Elem} (pushed : propStackPush malloc stack top = some rest) : propStackPush true stack top = some rest := by
  unfold propStackPush at pushed ⊢
  split_ifs at pushed ⊢ <;> simp_all

theorem turn_pushed {malloc : Bool} {label : At} {next : Turn At (Bool × Bool)} (took : equalsTurn malloc label = .ok next) :
    equalsTurn true label = .ok next ∨ next = .done (false,true) := by
  cases label with
  | startSubtree next1 next2 stack => cases next1 <;> cases next2 <;> exact .inl took
  | continueSubtree type obj1 obj2 stored1 stored2 stack =>
    obtain ⟨rv,said,took⟩ := bind_ok took
    rw [equalsTurn.eq_def]
    simp only [said,ok_bind]
    cases rv with
    | false | true => exact .inl took
    | recurse idx1 idx2 next1 next2 =>
      dsimp only at took ⊢
      cases pushed : propStackPush malloc stack ⟨obj1,obj2,idx1,idx2⟩ with
      | none =>
        rw [pushed] at took
        cases took
        exact .inr rfl
      | some stack =>
        rw [pushed] at took
        rw [push_more pushed]
        exact .inl took

theorem run_pushed {malloc flag : Bool} {rounds : Nat} {label : At} (ran : run (equalsTurn malloc) rounds label = .ok (true,flag)) :
    run (equalsTurn true) rounds label = .ok (true,flag) := by
  induction rounds generalizing label with
  | zero => cases ran
  | succ rounds ih =>
    obtain ⟨next,took,rest⟩ := bind_ok ran
    rcases turn_pushed took with took | rfl
    · rw [run,took,ok_bind]
      cases next with
      | again next => exact ih rest
      | done found => exact rest
    · cases rest

mutual
theorem equal_self : ∀ a : Obj,equal a a = true
  | .bool _ | .number _ | .string _ _ | .data _ _ => by simp [equal]
  | .array _ array1 => by rw [equal]; exact equalObjs_self array1
  | .dict _ dict1 => by rw [equal]; exact equalEntries_self dict1

theorem equalObjs_self : ∀ array1 : List Obj,equalObjs array1 array1 = true
  | [] => by rw [equalObjs]
  | x :: array1 => by rw [equalObjs,equal_self x,equalObjs_self array1]; rfl

theorem equalEntries_self : ∀ dict1 : List (PropDict.Key × Obj),equalEntries dict1 dict1 = true
  | [] => by rw [equalEntries]
  | (key,x) :: dict1 => by rw [equalEntries,equal_self x,equalEntries_self dict1,decide_eq_true rfl]; rfl
end

theorem equalObjs_all (count : array1.length = array2.length) (all : ∀ (i : Nat) x y,array1[i]? = some x → array2[i]? = some y → equal x y = true) :
    equalObjs array1 array2 = true := by
  induction array1 generalizing array2 with
  | nil =>
    cases array2 with
    | nil => rw [equalObjs]
    | cons y array2 => cases count
  | cons x array1 ih =>
    cases array2 with
    | nil => cases count
    | cons y array2 =>
      rw [equalObjs,all 0 x y rfl rfl,ih (Nat.succ.inj count) fun i => all (i + 1)]
      rfl

theorem passed_equal (passed : Passed a b) (stored1 : Stored memory a) (stored2 : Stored memory b) : equal a b = true := by
  induction passed with
  | same =>
    rw [stored_same stored1 stored2 rfl]
    exact equal_self _
  | arrays count all ih =>
    rw [equal]
    exact equalObjs_all count fun i x y at1 at2 => ih i x y at1 at2 (stored_at stored1.2 at1) (stored_at stored2.2 at2)

theorem answer_sound (memory : Nat → Obj) (a b : Obj) (stored1 : Stored memory a) (stored2 : Stored memory b) (malloc : Bool) (rounds : Nat)
    (ran : propObjectEquals malloc rounds a b = .ok true) : equal a b = true := by
  obtain ⟨⟨value,flag⟩,ran,same⟩ := bind_ok ran
  cases same
  have ran := run_pushed ran
  cases outcomes stored1 stored2 with
  | passed passed => exact passed_equal passed stored1 stored2
  | differs differs => cases (differs_ends differs stored1 stored2 []).returned rounds ran
  | leaf leaf kind => exact (Prod.mk.inj (Except.ok.inj ((leaf_root leaf kind stored1 stored2).returned rounds ran))).1
  | dict kind same ends =>
    rcases same with same | ⟨addr1,addr2,rfl,rfl⟩
    · rw [stored_same stored1 stored2 same]
      exact equal_self b
    · rw [equal,equalEntries]
  | lost open_ same lost =>
    obtain ⟨e,ends⟩ := lost
    cases ends.returned rounds ran

theorem answer_sound_nested : equal (.array 0 [.array 2 []]) (.array 1 [.array 3 []]) = true := by
  let memory : Nat → Obj := fun addr => if addr = 0 then .array 0 [.array 2 []] else if addr = 1 then .array 1 [.array 3 []] else .array addr []
  exact answer_sound memory _ _ (by simp [Stored,StoredObjs,memory]) (by simp [Stored,StoredObjs,memory]) false 10 rfl
end NetbsdAvr32.PropEquals
