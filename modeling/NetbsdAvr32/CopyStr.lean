import NetbsdAvr32.ByteSpace

-- The string copies of arch/avr32/avr32/copy.S: the registers they use, and
-- one function for each numbered label. No access faults.
namespace NetbsdAvr32.CopyStr
open ByteSpace BitVec Nat

abbrev Word := BitVec 32
def ENAMETOOLONG : Word := 63

structure Cpu where
  r7 : Word
  r8 : Word
  r9 : Word
  r10 : Word
  r11 : Word
  r12 : Word
  mem : Space 32

-- ld.ub, st.b, st.w
def ldUb (mem : Space 32) (a : Word) : Word := BitVec.ofNat 32 (load mem 1 a)
def stB (mem : Space 32) (a v : Word) : Space 32 := store 1 a v.toNat mem
def stW (mem : Space 32) (a v : Word) : Space 32 := store 4 a v.toNat mem

theorem count_down (r10 : Word) (more : r10 - 1 ≠ 0) : (r10 - 1 - 1).toNat < (r10 - 1).toNat := by
  have : (r10 - 1).toNat ≠ 0 := fun zero => more (eq_of_toNat_eq zero)
  show (4294967296 - 1 + (r10 - 1).toNat) % 4294967296 < _
  omega

namespace copystr

def label2 (s : Cpu) : Cpu := if s.r9 = 0 then s else {s with r7 := s.r7 - s.r10, mem := stW s.mem s.r9 (s.r7 - s.r10)}
def label4 (s : Cpu) : Cpu := label2 {s with r12 := 0}

def label1 (s : Cpu) : Cpu :=
  let r8 := ldUb s.mem s.r12
  let next : Cpu := {s with r8, r12 := s.r12 + 1, r10 := s.r10 - 1, mem := stB s.mem s.r11 r8, r11 := s.r11 + 1}
  if r8 = 0 then label4 next
  else if more : s.r10 - 1 = 0 then label2 {next with r12 := ENAMETOOLONG}
  else label1 next
termination_by (s.r10 - 1).toNat
decreasing_by exact count_down s.r10 more
end copystr

def copystr (s : Cpu) : Cpu :=
  let s := {s with r7 := s.r10}
  if s.r7 = 0 then copystr.label2 s else copystr.label1 s

-- Label 1 of copyinstr and of copyoutstr: the pointers move on after the test
-- for the NUL.
def loop (nul full : Cpu → Cpu) (s : Cpu) : Cpu :=
  let r8 := ldUb s.mem s.r12
  let next : Cpu := {s with r8, r10 := s.r10 - 1, mem := stB s.mem s.r11 r8}
  if r8 = 0 then nul next
  else if more : s.r10 - 1 = 0 then full {next with r12 := next.r12 + 1, r11 := next.r11 + 1}
  else loop nul full {next with r12 := next.r12 + 1, r11 := next.r11 + 1}
termination_by (s.r10 - 1).toNat
decreasing_by exact count_down s.r10 more

namespace copyinstr

def label2 (s : Cpu) : Cpu :=
  if s.r9 = 0 then s else {s with r7 := s.r7 - s.r10, mem := stW s.mem s.r9 (s.r7 - s.r10), r12 := 0}

def label4 (s : Cpu) : Cpu := {s with r12 := 1}
end copyinstr

def copyinstr (s : Cpu) : Cpu :=
  let s := {s with r7 := s.r10}
  if s.r10 = 0 then copyinstr.label4 s else loop copyinstr.label2 copyinstr.label2 s

namespace copyoutstr

def label2 (s : Cpu) : Cpu := if s.r9 = 0 then s else {s with r7 := s.r7 - s.r10, mem := stW s.mem s.r9 (s.r7 - s.r10)}
def label4 (s : Cpu) : Cpu := label2 {s with r12 := ENAMETOOLONG}
end copyoutstr

def copyoutstr (s : Cpu) : Cpu :=
  let s := {s with r7 := s.r10}
  if s.r10 = 0 then copyoutstr.label4 s else loop (fun s => copyoutstr.label2 {s with r12 := 0}) copyoutstr.label4 s

-- The contract the comments before the three functions state. The arguments
-- are r12 (from), r11 (to), r10 (maxlen) and r9 (lencopied).
structure Contract (s s' : Cpu) : Prop where
  code : s'.r12 = if (scan s.mem s.r10.toNat s.r12).isSome then 0 else ENAMETOOLONG
  bytes : ∀ i < span s.mem s.r10.toNat s.r12, s'.mem (place s.r11 i) = s.mem (place s.r12 i)
  length : s.r9 ≠ 0 → load s'.mem 4 s.r9 = span s.mem s.r10.toNat s.r12
  rest : ∀ x, (∀ i < span s.mem s.r10.toNat s.r12, x ≠ place s.r11 i) → (s.r9 ≠ 0 → ∀ k < 4, x ≠ place s.r9 k) → s'.mem x = s.mem x

-- No byte to write is one to read, or a byte of *lencopied.
structure Apart (s : Cpu) : Prop where
  source : ∀ i < span s.mem s.r10.toNat s.r12, ∀ j < span s.mem s.r10.toNat s.r12, place s.r12 j ≠ place s.r11 i
  count : s.r9 ≠ 0 → ∀ i < span s.mem s.r10.toNat s.r12, ∀ k < 4, place s.r9 k ≠ place s.r11 i

variable {s s' : Cpu} {nul full : Cpu → Cpu} {n i : Nat}

theorem ldUb_zero (mem : Space 32) (a : Word) : ldUb mem a = 0 ↔ mem a = 0 := by
  have value : load mem 1 a = (mem a).toNat := by
    show (mem a).toNat * 1 + 0 = _
    omega
  have small : (mem a).toNat < 2 ^ 32 := lt_trans (mem a).isLt (by decide)
  unfold ldUb
  rw [value]
  constructor
  · intro zero
    have := congrArg BitVec.toNat zero
    rw [toNat_ofNat,mod_eq_of_lt small] at this
    exact eq_of_toNat_eq this
  intro zero
  rw [zero]
  rfl

theorem stB_ldUb (mem : Space 32) (a b : Word) : stB mem b (ldUb mem a) = store 1 b (load mem 1 a) mem := by
  unfold stB ldUb
  rw [toNat_ofNat,mod_eq_of_lt (lt_trans (load_lt mem 1 a) (by decide))]

def Cpu.after (s : Cpu) (r8 : Word) (moved k : Nat) : Cpu :=
  {s with r8, r10 := s.r10 - BitVec.ofNat 32 k, r11 := place s.r11 moved, r12 := place s.r12 moved, mem := moveUp 1 k s.r12 s.r11 s.mem}

theorem loop_nul (zero : s.mem s.r12 = 0) : ∃ r8, loop nul full s = nul (s.after r8 0 1) := by
  refine ⟨ldUb s.mem s.r12,?_⟩
  rw [loop]
  rw [if_pos ((ldUb_zero _ _).mpr zero),stB_ldUb]
  unfold Cpu.after
  rw [place_zero,place_zero]
  rfl

theorem loop_full (other : s.mem s.r12 ≠ 0) (last : s.r10.toNat = 1) : ∃ r8, loop nul full s = full (s.after r8 1 1) := by
  have one : s.r10 = 1 := eq_of_toNat_eq last
  refine ⟨ldUb s.mem s.r12,?_⟩
  rw [loop]
  rw [if_neg fun zero => other ((ldUb_zero _ _).mp zero),dif_pos (by rw [one]; rfl),stB_ldUb]
  rfl

theorem loop_next (other : s.mem s.r12 ≠ 0) (more : s.r10.toNat = n + 2) : ∃ r8, loop nul full s = loop nul full (s.after r8 1 1) := by
  refine ⟨ldUb s.mem s.r12,?_⟩
  rw [loop]
  rw [if_neg fun zero => other ((ldUb_zero _ _).mp zero),dif_neg fun zero => ?_,stB_ldUb]
  · rfl
  have one : s.r10 = 1 := by
    rw [← BitVec.sub_add_cancel s.r10 1,zero]
    rfl
  rw [one] at more
  cases more

theorem after_after (s : Cpu) (r8 r8' : Word) (i k : Nat) : (s.after r8 1 1).after r8' i k = s.after r8' (i + 1) (k + 1) := by
  unfold Cpu.after
  have count : s.r10 - BitVec.ofNat 32 1 - BitVec.ofNat 32 k = s.r10 - BitVec.ofNat 32 (k + 1) := by
    rw [BitVec.ofNat_add k 1,BitVec.sub_sub,BitVec.add_comm]
  rw [count,place_place,place_place,add_comm 1 i]
  rfl

theorem loop_spec (n : Nat) (s : Cpu) (count : s.r10.toNat = n + 1)
    (apart : ∀ i < span s.mem (n + 1) s.r12, ∀ j < span s.mem (n + 1) s.r12, place s.r12 j ≠ place s.r11 i) :
    ∃ r8, loop nul full s = match scan s.mem (n + 1) s.r12 with
      | some i => nul (s.after r8 i (i + 1))
      | none => full (s.after r8 (n + 1) (n + 1)) := by
  induction n generalizing s with
  | zero =>
    unfold scan
    split_ifs with zero
    · exact loop_nul zero
    · exact loop_full zero count
  | succ n ih =>
    unfold scan
    split_ifs with zero
    · exact loop_nul zero
    rw [span_succ zero] at apart
    obtain ⟨r8,step⟩ := @loop_next s nul full n zero count
    have kept (i : Nat) (low : i < span s.mem (n + 1) (place s.r12 1)) :
        s.mem (place (place s.r12 1) i) = (s.after r8 1 1).mem (place (s.after r8 1 1).r12 i) := by
      refine (store_outside fun k le => ?_).symm
      obtain rfl : k = 0 := by omega
      have := apart 0 (succ_pos _) (i + 1) (succ_lt_succ low)
      rwa [place_place,add_comm 1 i]
    have same : scan (s.after r8 1 1).mem (n + 1) (s.after r8 1 1).r12 = scan s.mem (n + 1) (place s.r12 1) := (scan_congr kept).symm
    have spans : span (s.after r8 1 1).mem (n + 1) (s.after r8 1 1).r12 = span s.mem (n + 1) (place s.r12 1) := by
      unfold span
      rw [same]
    have down : (s.after r8 1 1).r10.toNat = n + 1 := by
      show (s.r10 - 1#32).toNat = _
      rw [toNat_sub,count]
      show (4294967296 - 1 + (n + 1 + 1)) % 4294967296 = _
      omega
    obtain ⟨r8',rest⟩ := ih (s.after r8 1 1) down fun i low j lower => by
      rw [spans] at low lower
      have := apart (i + 1) (succ_lt_succ low) (j + 1) (succ_lt_succ lower)
      show place (place s.r12 1) j ≠ place (place s.r11 1) i
      rwa [place_place,place_place,add_comm 1 i,add_comm 1 j]
    refine ⟨r8',?_⟩
    rw [step,rest,same]
    cases scan s.mem (n + 1) (place s.r12 1) with
    | none => exact congrArg full (after_after s r8 r8' _ _)
    | some i => exact congrArg nul (after_after s r8 r8' _ _)

def Cpu.counted (s : Cpu) (k : Nat) (mem : Space 32) : Space 32 := if s.r9 = 0 then mem else stW mem s.r9 (BitVec.ofNat 32 k)
def Cpu.copied (s : Cpu) (k : Nat) : Space 32 := s.counted k (moveUp 1 k s.r12 s.r11 s.mem)

theorem contract_of (apart : Apart s) (mem : s'.mem = s.copied (span s.mem s.r10.toNat s.r12))
    (code : s'.r12 = if (scan s.mem s.r10.toNat s.r12).isSome then 0 else ENAMETOOLONG) : Contract s s' := by
  have few : span s.mem s.r10.toNat s.r12 < 2 ^ 32 := lt_of_le_of_lt (span_le _ _ _) s.r10.isLt
  have value : (BitVec.ofNat 32 (span s.mem s.r10.toNat s.r12)).toNat = span s.mem s.r10.toNat s.r12 := by
    rw [toNat_ofNat,mod_eq_of_lt few]
  refine ⟨code,fun i low => ?_,fun given => ?_,fun x outside other => ?_⟩
  · have byte : moveUp 1 (span s.mem s.r10.toNat s.r12) s.r12 s.r11 s.mem (place s.r11 i) = s.mem (place s.r12 i) := by
      have := @moveUp_byte 32 1 (span s.mem s.r10.toNat s.r12) i 0 s.r12 s.r11 s.mem (by omega) low one_pos fun l less q small same => by
        obtain rfl : q = 0 := by omega
        rw [one_mul,one_mul,add_zero,add_zero] at same
        exact apart.source l (by omega) i low same
      rwa [one_mul,add_zero] at this
    rw [mem]
    unfold Cpu.copied Cpu.counted
    split_ifs with null
    · exact byte
    · exact (store_outside fun k le same => apart.count null i low k le same.symm).trans byte
  · rw [mem]
    unfold Cpu.copied Cpu.counted stW
    rw [if_neg given,value]
    exact load_store (show _ < 2 ^ 32 from few) (by decide)
  have kept : moveUp 1 (span s.mem s.r10.toNat s.r12) s.r12 s.r11 s.mem x = s.mem x := moveUp_outside fun i low k le => by
    obtain rfl : k = 0 := by omega
    rw [one_mul,add_zero]
    exact outside i low
  rw [mem]
  unfold Cpu.copied Cpu.counted
  split_ifs with null
  · exact kept
  · exact (store_outside (other null)).trans kept

structure Moved (s t : Cpu) (k : Nat) : Prop where
  r7 : t.r7 = s.r10
  r9 : t.r9 = s.r9
  r10 : t.r10 = s.r10 - BitVec.ofNat 32 k
  mem : t.mem = moveUp 1 k s.r12 s.r11 s.mem

theorem Moved.count (moved : Moved s s' n) : s'.r7 - s'.r10 = BitVec.ofNat 32 n := by
  rw [moved.r7,moved.r10,BitVec.sub_eq_iff_eq_add,BitVec.add_comm,BitVec.sub_add_cancel]

theorem label2_moved (moved : Moved s s' n) : (copyoutstr.label2 s').r12 = s'.r12 ∧ (copyoutstr.label2 s').mem = s.copied n := by
  unfold copyoutstr.label2 Cpu.copied Cpu.counted
  rw [moved.count,moved.r9,← moved.mem]
  split_ifs <;> exact ⟨rfl,rfl⟩

theorem copyinstr_label2_moved (moved : Moved s s' n) : (copyinstr.label2 s').r12 = (if s.r9 = 0 then s'.r12 else 0) ∧
    (copyinstr.label2 s').mem = s.copied n := by
  unfold copyinstr.label2 Cpu.copied Cpu.counted
  rw [moved.count,moved.r9,← moved.mem]
  split_ifs <;> exact ⟨rfl,rfl⟩

theorem label1_eq (s : Cpu) : copystr.label1 s =
    loop (fun s => copystr.label4 {s with r12 := s.r12 + 1, r11 := s.r11 + 1}) (fun s => copystr.label2 {s with r12 := ENAMETOOLONG}) s := by
  induction s using copystr.label1.induct with
  | case1 s r8 zero =>
    rw [copystr.label1,loop]
    rw [if_pos zero,if_pos zero]
  | case2 s r8 other last =>
    rw [copystr.label1,loop]
    rw [if_neg other,if_neg other,dif_pos last,dif_pos last]
  | case3 s r8 next other more ih =>
    rw [copystr.label1,loop]
    rw [if_neg other,if_neg other,dif_neg more,dif_neg more]
    exact ih

theorem loop_moved (apart : Apart s) (room : s.r10 ≠ 0) :
    (∃ i t, scan s.mem s.r10.toNat s.r12 = some i ∧ Moved s t (span s.mem s.r10.toNat s.r12) ∧ t.r12 = place s.r12 i ∧
      loop nul full {s with r7 := s.r10} = nul t) ∨
    (∃ t, scan s.mem s.r10.toNat s.r12 = none ∧ Moved s t (span s.mem s.r10.toNat s.r12) ∧ t.r12 = place s.r12 s.r10.toNat ∧
      loop nul full {s with r7 := s.r10} = full t) := by
  obtain ⟨n,count⟩ := exists_eq_succ_of_ne_zero fun zero => room (eq_of_toNat_eq zero)
  have source := apart.source
  rw [count] at source ⊢
  obtain ⟨r8,left⟩ := @loop_spec nul full n {s with r7 := s.r10} count source
  rw [left]
  unfold span
  cases found : scan s.mem (n + 1) s.r12 with
  | none => exact .inr ⟨({s with r7 := s.r10} : Cpu).after r8 (n + 1) (n + 1),rfl,⟨rfl,rfl,rfl,rfl⟩,rfl,rfl⟩
  | some i => exact .inl ⟨i,({s with r7 := s.r10} : Cpu).after r8 i (i + 1),rfl,⟨rfl,rfl,rfl,rfl⟩,rfl,rfl⟩

theorem entered_moved (s : Cpu) (none_ : s.r10 = 0) : Moved s {s with r7 := s.r10} 0 := by
  refine ⟨rfl,rfl,?_,rfl⟩
  rw [none_]
  rfl

theorem no_room (s : Cpu) (none_ : s.r10 = 0) : scan s.mem s.r10.toNat s.r12 = none ∧ span s.mem s.r10.toNat s.r12 = 0 := by
  rw [none_]
  exact ⟨rfl,rfl⟩

theorem copystr_exact (apart : Apart s) : Contract s (copystr s) ↔ s.r10 ≠ 0 ∨ s.r12 = ENAMETOOLONG := by
  by_cases room : s.r10 = 0
  · have run : copystr s = copyoutstr.label2 {s with r7 := s.r10} := if_pos room
    obtain ⟨code,mem⟩ := label2_moved (entered_moved s room)
    obtain ⟨found,length⟩ := no_room s room
    rw [run]
    constructor
    · intro contract
      have := contract.code
      rw [code,found] at this
      exact .inr this
    rintro (other | pointer)
    · exact absurd room other
    refine contract_of apart (by rw [mem,length]) ?_
    rw [code,found]
    exact pointer
  have run : copystr s = copystr.label1 {s with r7 := s.r10} := if_neg room
  refine iff_of_true ?_ (.inl room)
  rw [run,label1_eq]
  rcases loop_moved apart room with ⟨i,t,found,moved,_,left⟩ | ⟨t,found,moved,_,left⟩
  · rw [left]
    obtain ⟨code,mem⟩ := @label2_moved s {t with r12 := 0, r11 := t.r11 + 1} _ ⟨moved.r7,moved.r9,moved.r10,moved.mem⟩
    exact contract_of apart mem (by rw [found]; exact code)
  rw [left]
  obtain ⟨code,mem⟩ := @label2_moved s {t with r12 := ENAMETOOLONG} _ ⟨moved.r7,moved.r9,moved.r10,moved.mem⟩
  exact contract_of apart mem (by rw [found]; exact code)

theorem copyoutstr_exact (apart : Apart s) : Contract s (copyoutstr s) := by
  by_cases room : s.r10 = 0
  · have run : copyoutstr s = copyoutstr.label4 {s with r7 := s.r10} := if_pos room
    have entered := entered_moved s room
    obtain ⟨found,length⟩ := no_room s room
    obtain ⟨code,mem⟩ := @label2_moved s {s with r7 := s.r10, r12 := ENAMETOOLONG} 0 ⟨entered.r7,entered.r9,entered.r10,entered.mem⟩
    rw [run]
    exact contract_of apart (by rw [length]; exact mem) (by rw [found]; exact code)
  have run : copyoutstr s = loop (fun s => copyoutstr.label2 {s with r12 := 0}) copyoutstr.label4 {s with r7 := s.r10} := if_neg room
  rw [run]
  rcases loop_moved apart room with ⟨i,t,found,moved,_,left⟩ | ⟨t,found,moved,_,left⟩
  · rw [left]
    obtain ⟨code,mem⟩ := @label2_moved s {t with r12 := 0} _ ⟨moved.r7,moved.r9,moved.r10,moved.mem⟩
    exact contract_of apart mem (by rw [found]; exact code)
  rw [left]
  obtain ⟨code,mem⟩ := @label2_moved s {t with r12 := ENAMETOOLONG} _ ⟨moved.r7,moved.r9,moved.r10,moved.mem⟩
  exact contract_of apart mem (by rw [found]; exact code)

-- The way out of copyinstr leaves the source pointer in r12 when there is no
-- lencopied, and 0 whenever there is one.
def copyinstrGood (s : Cpu) : Prop :=
  s.r10 ≠ 0 ∧ match scan s.mem s.r10.toNat s.r12 with
    | some i => s.r9 ≠ 0 ∨ place s.r12 i = 0
    | none => s.r9 = 0 ∧ place s.r12 s.r10.toNat = ENAMETOOLONG

theorem copyinstr_exact (apart : Apart s) : Contract s (copyinstr s) ↔ copyinstrGood s := by
  unfold copyinstrGood
  by_cases room : s.r10 = 0
  · have run : copyinstr s = copyinstr.label4 {s with r7 := s.r10} := if_pos room
    refine iff_of_false (fun contract => ?_) fun good => good.1 room
    have := contract.code
    rw [run,(no_room s room).1] at this
    cases this
  have run : copyinstr s = loop copyinstr.label2 copyinstr.label2 {s with r7 := s.r10} := if_neg room
  rw [run]
  rcases loop_moved apart room with ⟨i,t,found,moved,pointer,left⟩ | ⟨t,found,moved,pointer,left⟩
  · rw [left,found]
    obtain ⟨code,mem⟩ := copyinstr_label2_moved moved
    rw [pointer] at code
    refine ⟨fun contract => ⟨room,?_⟩,fun good => contract_of apart mem ?_⟩
    · have same := contract.code
      rw [code,found] at same
      by_cases null : s.r9 = 0
      · rw [if_pos null] at same
        exact .inr same
      · exact .inl null
    rw [code,found]
    rcases good.2 with given | zero
    · exact if_neg given
    rw [zero,ite_self]
    rfl
  rw [left,found]
  obtain ⟨code,mem⟩ := copyinstr_label2_moved moved
  rw [pointer] at code
  refine ⟨fun contract => ⟨room,?_⟩,fun good => contract_of apart mem ?_⟩
  · have same := contract.code
    rw [code,found] at same
    split at same
    · next null =>
      exact ⟨null,same⟩
    · cases same
  rw [code,found,if_pos good.2.1]
  exact good.2.2

theorem string_copies_exact (s : Cpu) (apart : Apart s) :
    (Contract s (copystr s) ↔ s.r10 ≠ 0 ∨ s.r12 = ENAMETOOLONG) ∧ (Contract s (copyinstr s) ↔ copyinstrGood s) ∧ Contract s (copyoutstr s) :=
  ⟨copystr_exact apart,copyinstr_exact apart,copyoutstr_exact apart⟩

-- A string at 0x1000 that the buffer at 0x2000 is asked to hold, its length to
-- go to 0x3000.
def call (mem : Space 32) (maxlen : Word) : Cpu := ⟨0,0,0x3000,maxlen,0x2000,0x1000,mem⟩

theorem string_copies_exact_ab :
    let s := call (fun x => if x = 0x1000 then 97 else if x = 0x1001 then 98 else 0) 3
    (Contract s (copystr s) ↔ s.r10 ≠ 0 ∨ s.r12 = ENAMETOOLONG) ∧ (Contract s (copyinstr s) ↔ copyinstrGood s) ∧ Contract s (copyoutstr s) :=
  string_copies_exact _ ⟨by decide,by decide⟩

-- copyinstr answers 0 for a string that does not fit.
theorem copyinstr_truncates : ¬ ∀ s, Apart s → Contract s (copystr s) ∧ Contract s (copyinstr s) ∧ Contract s (copyoutstr s) := by
  intro right
  have apart : Apart (call (fun _ => 97) 2) := ⟨by decide,by decide⟩
  have good := (copyinstr_exact apart).mp (right _ apart).2.1
  exact absurd good.2.1 (by decide)
end NetbsdAvr32.CopyStr
