import Mathlib.Data.BitVec

-- The lock word rw_owner: a thread or a count of readers over four flag bits.
namespace NetbsdAvr32.Rwlock
open Nat

abbrev Word := BitVec 32

def RW_HAS_WAITERS : Word := 1
def RW_WRITE_WANTED : Word := 2
def RW_WRITE_LOCKED : Word := 4
def RW_DEBUG : Word := 8

def RW_READ_COUNT_SHIFT : Nat := 4
def RW_READ_INCR : Word := 1 <<< RW_READ_COUNT_SHIFT
def RW_THREAD : Word := -RW_READ_INCR

inductive Krw where
  | reader
  | writer
deriving DecidableEq,Repr

def incr (curthread : Word) : Krw → Word
  | .reader => RW_READ_INCR
  | .writer => curthread ||| RW_WRITE_LOCKED

def need_wait : Krw → Word
  | .reader => RW_WRITE_LOCKED ||| RW_WRITE_WANTED
  | .writer => RW_WRITE_LOCKED ||| RW_THREAD

def set_wait : Krw → Word
  | .reader => RW_HAS_WAITERS
  | .writer => RW_HAS_WAITERS ||| RW_WRITE_WANTED

-- RW_INHERITDEBUG, as rw_cas and rw_swap apply it.
def inheritDebug (new old : Word) : Word := new ||| (old &&& RW_DEBUG)
def enterValue (owner curthread : Word) (op : Krw) : Word := (owner + incr curthread op) &&& ~~~RW_WRITE_WANTED
def tryValue (owner curthread : Word) (op : Krw) : Word := owner + incr curthread op

def handValue (l : Word) (wcnt : Nat) : Word :=
  (l ||| RW_WRITE_LOCKED ||| RW_HAS_WAITERS) ||| if 1 < wcnt then RW_WRITE_WANTED else 0

def readersValue (rcnt wcnt : Nat) : Word :=
  (BitVec.ofNat 32 rcnt <<< RW_READ_COUNT_SHIFT) ||| if wcnt ≠ 0 then RW_HAS_WAITERS ||| RW_WRITE_WANTED else 0

def downValue (rcnt wcnt : Nat) : Word :=
  ((BitVec.ofNat 32 rcnt <<< RW_READ_COUNT_SHIFT) + RW_READ_INCR) ||| if wcnt ≠ 0 then RW_HAS_WAITERS ||| RW_WRITE_WANTED else 0

def upgradeValue (owner curthread : Word) : Word := curthread ||| RW_WRITE_LOCKED ||| (owner &&& ~~~RW_THREAD)

structure View where
  field : Nat
  debug : Bool
  locked : Bool
  wanted : Bool
  waiters : Bool
deriving DecidableEq,Repr

def view (x : Word) : View := ⟨x.toNat / 16,x.getLsbD 3,x.getLsbD 2,x.getLsbD 1,x.getLsbD 0⟩
def View.toNat (v : View) : Nat := 16 * v.field + 8 * v.debug.toNat + 4 * v.locked.toNat + 2 * v.wanted.toNat + v.waiters.toNat

def View.and (a b : View) : View :=
  ⟨a.field &&& b.field,a.debug && b.debug,a.locked && b.locked,a.wanted && b.wanted,a.waiters && b.waiters⟩

def View.or (a b : View) : View :=
  ⟨a.field ||| b.field,a.debug || b.debug,a.locked || b.locked,a.wanted || b.wanted,a.waiters || b.waiters⟩

variable {x y owner curthread l : Word} {v : View} {n rcnt wcnt : Nat} {op : Krw}

theorem toNat_view (x : Word) : (view x).toNat = x.toNat := by
  simp only [View.toNat,view,BitVec.getLsbD,testBit_eq_decide_div_mod_eq]
  have bit0 := mod_two_eq_zero_or_one x.toNat
  have bit1 := mod_two_eq_zero_or_one (x.toNat / 2)
  have bit2 := mod_two_eq_zero_or_one (x.toNat / 4)
  have bit3 := mod_two_eq_zero_or_one (x.toNat / 8)
  rcases bit0 with bit0 | bit0 <;> rcases bit1 with bit1 | bit1 <;> rcases bit2 with bit2 | bit2 <;>
    rcases bit3 with bit3 | bit3 <;> simp [bit0,bit1,bit2,bit3] <;> omega

theorem view_injective (same : view x = view y) : x = y := by
  apply BitVec.eq_of_toNat_eq
  rw [← toNat_view,← toNat_view y,same]

theorem field_lt (x : Word) : (view x).field < 2 ^ 28 := by
  simp only [view]
  omega

theorem View.toNat_injective {a b : View} (same : a.toNat = b.toNat) : a = b := by
  obtain ⟨m,d,l,w,h⟩ := a
  obtain ⟨n,d',l',w',h'⟩ := b
  simp only [View.toNat] at same
  cases d <;> cases l <;> cases w <;> cases h <;> cases d' <;> cases l' <;> cases w' <;> cases h' <;>
    simp at same ⊢ <;> omega

theorem view_eq (same : x.toNat = v.toNat) : view x = v := View.toNat_injective ((toNat_view x).trans same)

theorem view_and (x y : Word) : view (x &&& y) = (view x).and (view y) := by
  have field : (x.toNat &&& y.toNat) / 16 = x.toNat / 16 &&& y.toNat / 16 := by
    simpa using (and_div_two_pow (a := x.toNat) (b := y.toNat) (n := 4))
  simp [view,View.and,field]

theorem view_or (x y : Word) : view (x ||| y) = (view x).or (view y) := by
  have field : (x.toNat ||| y.toNat) / 16 = x.toNat / 16 ||| y.toNat / 16 := by
    simpa using (or_div_two_pow (a := x.toNat) (b := y.toNat) (n := 4))
  simp [view,View.or,field]

theorem field_full (x : Word) : (view x).field &&& 268435455 = (view x).field := by
  have masked := and_two_pow_sub_one_eq_mod (view x).field 28
  rw [mod_eq_of_lt (field_lt x)] at masked
  exact masked

structure Apart (a b : View) : Prop where
  debug : (a.debug && b.debug) = false
  locked : (a.locked && b.locked) = false
  wanted : (a.wanted && b.wanted) = false
  waiters : (a.waiters && b.waiters) = false

theorem toNat_or {a b : Bool} (apart : (a && b) = false) : (a || b).toNat = a.toNat + b.toNat := by
  cases a <;> cases b <;> simp_all

def View.plus (a b : View) : View := ⟨a.field + b.field,a.debug || b.debug,a.locked || b.locked,a.wanted || b.wanted,a.waiters || b.waiters⟩

theorem plus_toNat {a b : View} (apart : Apart a b) : (a.plus b).toNat = a.toNat + b.toNat := by
  simp only [View.toNat,View.plus,toNat_or apart.debug,toNat_or apart.locked,toNat_or apart.wanted,toNat_or apart.waiters]
  omega

theorem toNat_lt {v : View} (low : v.field < 2 ^ 28) : v.toNat < 2 ^ 32 := by
  have bit0 := Bool.toNat_le v.waiters
  have bit1 := Bool.toNat_le v.wanted
  have bit2 := Bool.toNat_le v.locked
  have bit3 := Bool.toNat_le v.debug
  unfold View.toNat
  omega

theorem view_add (apart : Apart (view x) (view y)) (low : (view x).field + (view y).field < 2 ^ 28) :
    view (x + y) = (view x).plus (view y) := by
  apply view_eq
  have bound := toNat_lt (show ((view x).plus (view y)).field < 2 ^ 28 from low)
  rw [plus_toNat apart,toNat_view,toNat_view] at bound ⊢
  rw [BitVec.toNat_add,mod_eq_of_lt bound]

theorem view_sub (apart : Apart v (view y)) (whole : view x = v.plus (view y)) : view (x - y) = v := by
  apply view_eq
  have total : x.toNat = v.toNat + y.toNat := by rw [← toNat_view x,whole,plus_toNat apart,toNat_view]
  rw [BitVec.toNat_sub_of_le (BitVec.le_def.mpr (by omega))]
  omega

@[simp] theorem view_waiters : view RW_HAS_WAITERS = ⟨0,false,false,false,true⟩ := by decide
@[simp] theorem view_wanted : view RW_WRITE_WANTED = ⟨0,false,false,true,false⟩ := by decide
@[simp] theorem view_locked : view RW_WRITE_LOCKED = ⟨0,false,true,false,false⟩ := by decide
@[simp] theorem view_debug : view RW_DEBUG = ⟨0,true,false,false,false⟩ := by decide
@[simp] theorem view_incr : view RW_READ_INCR = ⟨1,false,false,false,false⟩ := by decide
@[simp] theorem view_thread : view RW_THREAD = ⟨268435455,false,false,false,false⟩ := by decide
theorem view_zero : view 0 = ⟨0,false,false,false,false⟩ := by decide
theorem view_none : view 0#32 = ⟨0,false,false,false,false⟩ := by decide
@[simp] theorem view_not_wanted : view (~~~RW_WRITE_WANTED) = ⟨268435455,true,true,false,true⟩ := by decide
@[simp] theorem view_not_thread : view (~~~RW_THREAD) = ⟨0,true,true,true,true⟩ := by decide
theorem eq_iff_view : x = y ↔ view x = view y := ⟨fun same => by rw [same],view_injective⟩

-- The address of an lwp leaves the flag bits free.
def Aligned (curthread : Word) : Prop := curthread &&& RW_THREAD = curthread
instance : Decidable (Aligned curthread) := inferInstanceAs (Decidable (_ = _))

theorem Aligned.view (aligned : Aligned curthread) : view curthread = ⟨(view curthread).field,false,false,false,false⟩ := by
  have same := congrArg Rwlock.view aligned
  rw [view_and,view_thread] at same
  simp only [View.and,field_full,Bool.and_false] at same
  exact same.symm

theorem free_reader : owner &&& need_wait .reader = 0 ↔ (view owner).locked = false ∧ (view owner).wanted = false := by
  rw [eq_iff_view,view_and,need_wait,view_or,view_locked,view_wanted,view_zero]
  simp [View.and,View.or]

theorem free_writer : owner &&& need_wait .writer = 0 ↔ (view owner).locked = false ∧ (view owner).field = 0 := by
  rw [eq_iff_view,view_and,need_wait,view_or,view_locked,view_thread,view_zero]
  simp [View.and,View.or,field_full,and_comm]

theorem thread_eq (aligned : Aligned curthread) : owner &&& RW_THREAD = curthread ↔ (view owner).field = (view curthread).field := by
  rw [eq_iff_view,view_and,view_thread,aligned.view]
  simp [View.and,field_full]

theorem thread_zero : owner &&& RW_THREAD = 0 ↔ (view owner).field = 0 := by
  rw [eq_iff_view,view_and,view_thread,view_zero]
  simp [View.and,field_full]

theorem thread_one : owner &&& RW_THREAD = RW_READ_INCR ↔ (view owner).field = 1 := by
  rw [eq_iff_view,view_and,view_thread,view_incr]
  simp [View.and,field_full]

theorem locked_zero : owner &&& RW_WRITE_LOCKED = 0 ↔ (view owner).locked = false := by
  rw [eq_iff_view,view_and,view_locked,view_zero]
  simp [View.and]

theorem wanted_zero : owner &&& RW_WRITE_WANTED = 0 ↔ (view owner).wanted = false := by
  rw [eq_iff_view,view_and,view_wanted,view_zero]
  simp [View.and]

theorem waiters_zero : owner &&& RW_HAS_WAITERS = 0 ↔ (view owner).waiters = false := by
  rw [eq_iff_view,view_and,view_waiters,view_zero]
  simp [View.and]

theorem idle_waiters :
    owner &&& (RW_THREAD ||| RW_HAS_WAITERS) = RW_HAS_WAITERS ↔ (view owner).field = 0 ∧ (view owner).waiters = true := by
  rw [eq_iff_view,view_and,view_or,view_thread,view_waiters]
  simp [View.and,View.or,field_full]

theorem view_inherit (new old : Word) : view (inheritDebug new old) = { view new with debug := (view new).debug || (view old).debug } := by
  rw [inheritDebug,view_or,view_and,view_debug]
  simp [View.and,View.or]

theorem view_clear (x : Word) : view (x &&& ~~~RW_WRITE_WANTED) = { view x with wanted := false } := by
  rw [view_and,view_not_wanted]
  simp [View.and,field_full]

theorem view_incr_writer (aligned : Aligned curthread) : view (incr curthread .writer) = ⟨(view curthread).field,false,true,false,false⟩ := by
  rw [incr,view_or,aligned.view,view_locked]
  simp [View.or]

theorem view_try_reader (low : (view owner).field + 1 < 2 ^ 28) :
    view (tryValue owner curthread .reader) = { view owner with field := (view owner).field + 1 } := by
  have unit : view (incr curthread .reader) = ⟨1,false,false,false,false⟩ := view_incr
  rw [tryValue,view_add]
  · rw [unit]
    simp [View.plus]
  · rw [unit]
    constructor <;> simp
  rw [unit]
  exact low

theorem view_try_writer (aligned : Aligned curthread) (free : owner &&& need_wait .writer = 0) :
    view (tryValue owner curthread .writer) = { view owner with field := (view curthread).field, locked := true } := by
  obtain ⟨unlocked,empty⟩ := free_writer.mp free
  rw [tryValue,view_add]
  · rw [view_incr_writer aligned]
    simp [View.plus,empty]
  · rw [view_incr_writer aligned]
    constructor <;> simp [unlocked]
  rw [view_incr_writer aligned,empty]
  simpa using field_lt curthread

theorem view_enter (owner curthread : Word) (op : Krw) :
    view (enterValue owner curthread op) = { view (tryValue owner curthread op) with wanted := false } := view_clear _

theorem view_mark (owner : Word) (op : Krw) :
    view (owner ||| set_wait op) = { view owner with waiters := true, wanted := (view owner).wanted || decide (op = .writer) } := by
  cases op
  · rw [set_wait,view_or,view_waiters]
    simp [View.or]
  rw [set_wait,view_or,view_or,view_waiters,view_wanted]
  simp [View.or]

theorem view_exit_reader (unlocked : 0 < (view owner).field) :
    view (owner - incr curthread .reader) = { view owner with field := (view owner).field - 1 } := by
  have unit : view (incr curthread .reader) = ⟨1,false,false,false,false⟩ := view_incr
  apply view_sub
  · rw [unit]
    constructor <;> simp
  rw [unit]
  simp [View.plus,Nat.sub_add_cancel unlocked]

theorem view_exit_writer (aligned : Aligned curthread) (locked : (view owner).locked = true) (mine : (view owner).field = (view curthread).field) :
    view (owner - incr curthread .writer) = { view owner with field := 0, locked := false } := by
  apply view_sub
  · rw [view_incr_writer aligned]
    constructor <;> simp
  rw [view_incr_writer aligned]
  simp [View.plus,← mine,← locked]

theorem view_hand (aligned : Aligned l) (wcnt : Nat) :
    view (handValue l wcnt) = ⟨(view l).field,false,true,decide (1 < wcnt),true⟩ := by
  rw [handValue,view_or,view_or,view_or,aligned.view,view_locked,view_waiters]
  split <;> simp [*,View.or,view_none]

theorem view_shift (low : n < 2 ^ 28) : view (BitVec.ofNat 32 n <<< RW_READ_COUNT_SHIFT) = ⟨n,false,false,false,false⟩ := by
  apply view_eq
  rw [BitVec.toNat_shiftLeft,BitVec.toNat_ofNat,RW_READ_COUNT_SHIFT,shiftLeft_eq]
  simp only [View.toNat,Bool.toNat_false]
  omega

theorem view_readers (low : rcnt < 2 ^ 28) (wcnt : Nat) :
    view (readersValue rcnt wcnt) = ⟨rcnt,false,false,decide (wcnt ≠ 0),decide (wcnt ≠ 0)⟩ := by
  rw [readersValue,view_or,view_shift low]
  split <;> simp [*,view_or,View.or,view_none]

theorem view_down (low : rcnt + 1 < 2 ^ 28) (wcnt : Nat) :
    view (downValue rcnt wcnt) = ⟨rcnt + 1,false,false,decide (wcnt ≠ 0),decide (wcnt ≠ 0)⟩ := by
  have shift : view (BitVec.ofNat 32 rcnt <<< RW_READ_COUNT_SHIFT) = ⟨rcnt,false,false,false,false⟩ := view_shift (by omega)
  have sum : view ((BitVec.ofNat 32 rcnt <<< RW_READ_COUNT_SHIFT) + RW_READ_INCR) = ⟨rcnt + 1,false,false,false,false⟩ := by
    rw [view_add]
    · rw [shift,view_incr]
      simp [View.plus]
    · constructor <;> simp
    rw [shift,view_incr]
    exact low
  rw [downValue,view_or,sum]
  split <;> simp [*,view_or,View.or,view_none]

theorem view_upgrade (aligned : Aligned curthread) (owner : Word) :
    view (upgradeValue owner curthread) = ⟨(view curthread).field,(view owner).debug,true,(view owner).wanted,(view owner).waiters⟩ := by
  rw [upgradeValue,view_or,view_or,view_and,aligned.view,view_locked,view_not_thread]
  simp [View.and,View.or]

-- kern_rwlock.c: every access to rw_owner is a step of its own, and so is every release of the turnstile chain.

-- lwp addresses: distinct, aligned beyond the flag bits, and above any number of readers.
structure Lwps (T : Type) [Fintype T] where
  lwp : T → Word
  aligned : ∀ t,Aligned (lwp t)
  distinct : Function.Injective lwp
  room : ∀ t,Fintype.card T < (view (lwp t)).field

inductive Enter where
  | load
  | top (owner : Word)
  | spin
  | lookup
  | locked
  | mark (owner : Word)
deriving DecidableEq,Repr

inductive Exit where
  | load
  | check (decr owner : Word)
  | top (decr owner : Word)
  | lookup (decr : Word)
  | locked (decr : Word)
  | swap (decr owner : Word) (rcnt wcnt : Nat)
deriving DecidableEq,Repr

inductive Down where
  | write
  | owner
  | load
  | cas (owner : Word)
  | lookup (owner : Word)
  | wanted (owner : Word) (rcnt wcnt : Nat)
  | waiters (owner : Word) (rcnt wcnt : Nat)
  | locked (owner : Word) (rcnt wcnt : Nat)
deriving DecidableEq,Repr

inductive Up where
  | held
  | load
  | top (owner : Word)
deriving DecidableEq,Repr

-- The two loads of the assertions at the end of an operation.
inductive Done where
  | bit
  | field
deriving DecidableEq,Repr

-- again: the thread has slept and was woken without the lock. given: it was woken with the lock.
-- exiting remembers how the lock is held. None of the three is read by a step.
inductive Pc where
  | out
  | entering (again : Bool) (op : Krw) (here : Enter)
  | blocked (op : Krw) (owner : Word)
  | woken (given : Bool) (op : Krw) (owner : Word)
  | entered (op : Krw)
  | trying (op : Krw) (owner : Option Word)
  | holding (op : Krw)
  | exiting (op : Krw) (here : Exit)
  | downgrading (here : Down)
  | downgraded (here : Done)
  | upgrading (here : Up)
  | upgraded (here : Done)
  | aborted
deriving DecidableEq,Repr

structure Rw (T : Type) where
  rw_owner : Word
  chain : Option T
  readers : Finset T
  writers : Finset T
  pc : T → Pc

variable {T : Type} [DecidableEq T]

def Rw.goto (s : Rw T) (t : T) (p : Pc) : Rw T := { s with pc := Function.update s.pc t p }
def Rw.store (s : Rw T) (owner new : Word) : Rw T := { s with rw_owner := inheritDebug new owner }

-- turnstile_exit, and turnstile_wakeup and turnstile_block at their end.
def Rw.release (s : Rw T) : Rw T := { s with chain := none }

-- turnstile_block: the thread sleeps on its queue and the chain is free.
def Rw.block (s : Rw T) (t : T) (op : Krw) (owner : Word) : Rw T :=
  match op with
  | .reader => { s with chain := none, readers := insert t s.readers, pc := Function.update s.pc t (.blocked op owner) }
  | .writer => { s with chain := none, writers := insert t s.writers, pc := Function.update s.pc t (.blocked op owner) }

def Pc.wake (given : Bool) : Pc → Pc
  | .blocked op owner => .woken given op owner
  | p => p

-- turnstile_wakeup of the threads named, on either queue.
def Rw.wakeup (s : Rw T) (names : Finset T) (given : Bool) : Rw T :=
  { s with
    chain := none
    readers := s.readers \ names
    writers := s.writers \ names
    pc := fun u => if u ∈ names then (s.pc u).wake given else s.pc u }

-- RW_ASSERT, RW_DASSERT and the call of rw_abort.
def dassert (cond : Bool) (p : Pc) : Pc := if cond then p else .aborted

-- What rw_onproc needs before it looks for the owner on a CPU.
def mayRun (owner : Word) : Bool := owner &&& (RW_WRITE_LOCKED ||| RW_HAS_WAITERS) = RW_WRITE_LOCKED

def heldAs (owner curthread : Word) (op : Krw) : Bool :=
  (op ≠ .reader ∧ owner &&& RW_THREAD = curthread) ∨ (op = .reader ∧ owner &&& RW_THREAD ≠ 0)

def toWriters (decr : Word) (rcnt wcnt : Nat) : Bool := rcnt = 0 ∨ (decr = RW_READ_INCR ∧ wcnt ≠ 0)

def exitAsserts (decr owner : Word) (rcnt wcnt : Nat) : Bool :=
  (rcnt ≠ 0 ∨ wcnt ≠ 0) ∧ owner &&& RW_HAS_WAITERS ≠ 0 ∧
    if toWriters decr rcnt wcnt then wcnt ≠ 0 ∧ owner &&& RW_WRITE_WANTED ≠ 0 else rcnt ≠ 0

def exitChecks (decr owner curthread : Word) : Bool :=
  if decr = RW_READ_INCR then owner &&& RW_THREAD ≠ 0 else owner &&& RW_THREAD = curthread

def gives (decr owner : Word) : Bool := (owner - decr) &&& (RW_THREAD ||| RW_HAS_WAITERS) = RW_HAS_WAITERS

inductive Step [Fintype T] (L : Lwps T) (s : Rw T) (t : T) : Rw T → Prop where
  | enter (op : Krw) : s.pc t = .out → Step L s t (s.goto t (.entering false op .load))
  | enterLoad {again : Bool} {op : Krw} : s.pc t = .entering again op .load →
      Step L s t (s.goto t (.entering again op (.top s.rw_owner)))
  | enterCas {again : Bool} {op : Krw} {owner : Word} : s.pc t = .entering again op (.top owner) →
      owner &&& need_wait op = 0 → s.rw_owner = owner →
      Step L s t ((s.store owner (enterValue owner (L.lwp t) op)).goto t (.entered op))
  | enterMiss {again : Bool} {op : Krw} {owner : Word} : s.pc t = .entering again op (.top owner) →
      owner &&& need_wait op = 0 → s.rw_owner ≠ owner →
      Step L s t (s.goto t (.entering again op (.top s.rw_owner)))
  -- locking against myself, then rw_onproc
  | enterBusy {again : Bool} {op : Krw} {owner : Word} (running : Bool) : s.pc t = .entering again op (.top owner) →
      owner &&& need_wait op ≠ 0 → (running → mayRun owner) →
      Step L s t (s.goto t (dassert (s.rw_owner &&& RW_THREAD ≠ L.lwp t) (.entering again op (if running then .spin else .lookup))))
  | enterSpin {again : Bool} {op : Krw} (running : Bool) : s.pc t = .entering again op .spin → (running → mayRun s.rw_owner) →
      Step L s t (s.goto t (.entering again op
        (if running then .spin else if s.rw_owner &&& need_wait op = 0 then .top s.rw_owner else .lookup)))
  | enterLookup {again : Bool} {op : Krw} : s.pc t = .entering again op .lookup → s.chain = none →
      Step L s t ({ s with chain := some t }.goto t (.entering again op .locked))
  | enterLeave {again : Bool} {op : Krw} : s.pc t = .entering again op .locked →
      (s.rw_owner &&& need_wait op = 0 ∨ mayRun s.rw_owner) →
      Step L s t (s.release.goto t (.entering again op (.top s.rw_owner)))
  | enterStay {again : Bool} {op : Krw} : s.pc t = .entering again op .locked → s.rw_owner &&& need_wait op ≠ 0 →
      Step L s t (s.goto t (.entering again op (.mark s.rw_owner)))
  | enterMark {again : Bool} {op : Krw} {owner : Word} : s.pc t = .entering again op (.mark owner) → s.rw_owner = owner →
      Step L s t ((s.store owner (owner ||| set_wait op)).block t op owner)
  | enterUnmarked {again : Bool} {op : Krw} {owner : Word} : s.pc t = .entering again op (.mark owner) → s.rw_owner ≠ owner →
      Step L s t (s.release.goto t (.entering again op (.top s.rw_owner)))
  | enterWoken {given : Bool} {op : Krw} {owner : Word} : s.pc t = .woken given op owner →
      Step L s t (s.goto t (if op = .reader ∨ s.rw_owner &&& RW_THREAD = L.lwp t then .entered op else .entering true op (.top owner)))
  | entered {op : Krw} : s.pc t = .entered op →
      Step L s t (s.goto t (dassert (heldAs s.rw_owner (L.lwp t) op) (.holding op)))
  | exit {op : Krw} : s.pc t = .holding op → Step L s t (s.goto t (.exiting op .load))
  | exitLoad {op : Krw} : s.pc t = .exiting op .load →
      Step L s t (s.goto t (.exiting op
        (.check (incr (L.lwp t) (if s.rw_owner &&& RW_WRITE_LOCKED ≠ 0 then .writer else .reader)) s.rw_owner)))
  | exitCheck {op : Krw} {decr owner : Word} : s.pc t = .exiting op (.check decr owner) →
      Step L s t (s.goto t (dassert (exitChecks decr s.rw_owner (L.lwp t)) (.exiting op (.top decr owner))))
  | exitCas {op : Krw} {decr owner : Word} : s.pc t = .exiting op (.top decr owner) → gives decr owner = false → s.rw_owner = owner →
      Step L s t ((s.store owner (owner - decr)).goto t .out)
  | exitMiss {op : Krw} {decr owner : Word} : s.pc t = .exiting op (.top decr owner) → gives decr owner = false → s.rw_owner ≠ owner →
      Step L s t (s.goto t (.exiting op (.top decr s.rw_owner)))
  | exitSlow {op : Krw} {decr owner : Word} : s.pc t = .exiting op (.top decr owner) → gives decr owner = true →
      Step L s t (s.goto t (.exiting op (.lookup decr)))
  | exitLookup {op : Krw} {decr : Word} : s.pc t = .exiting op (.lookup decr) → s.chain = none →
      Step L s t ({ s with chain := some t }.goto t (.exiting op (.locked decr)))
  | exitLocked {op : Krw} {decr : Word} : s.pc t = .exiting op (.locked decr) →
      Step L s t (s.goto t (dassert (exitAsserts decr s.rw_owner s.readers.card s.writers.card)
        (.exiting op (.swap decr s.rw_owner s.readers.card s.writers.card))))
  -- TS_FIRST is the waiter of the highest priority, which may be any of them
  | exitHand {op : Krw} {decr owner : Word} {rcnt wcnt : Nat} {l : T} : s.pc t = .exiting op (.swap decr owner rcnt wcnt) →
      toWriters decr rcnt wcnt = true → rcnt ≠ 0 → l ∈ s.writers →
      Step L s t (((s.store owner (handValue (L.lwp l) wcnt)).wakeup {l} true).goto t (dassert (s.rw_owner = owner) .out))
  | exitWriters {op : Krw} {decr owner : Word} {rcnt wcnt : Nat} {names : Finset T} : s.pc t = .exiting op (.swap decr owner rcnt wcnt) →
      toWriters decr rcnt wcnt = true → rcnt = 0 → names ⊆ s.writers → names.card = wcnt →
      Step L s t (((s.store owner RW_WRITE_WANTED).wakeup names false).goto t (dassert (s.rw_owner = owner) .out))
  | exitReaders {op : Krw} {decr owner : Word} {rcnt wcnt : Nat} {names : Finset T} : s.pc t = .exiting op (.swap decr owner rcnt wcnt) →
      toWriters decr rcnt wcnt = false → names ⊆ s.readers → names.card = rcnt →
      Step L s t (((s.store owner (readersValue rcnt wcnt)).wakeup names true).goto t (dassert (s.rw_owner = owner) .out))
  | tryenter (op : Krw) : s.pc t = .out → Step L s t (s.goto t (.trying op none))
  | tryLoad {op : Krw} : s.pc t = .trying op none → Step L s t (s.goto t (.trying op (some s.rw_owner)))
  | tryBusy {op : Krw} {owner : Word} : s.pc t = .trying op (some owner) → owner &&& need_wait op ≠ 0 → Step L s t (s.goto t .out)
  | tryCas {op : Krw} {owner : Word} : s.pc t = .trying op (some owner) → owner &&& need_wait op = 0 → s.rw_owner = owner →
      Step L s t ((s.store owner (tryValue owner (L.lwp t) op)).goto t (.entered op))
  | tryMiss {op : Krw} {owner : Word} : s.pc t = .trying op (some owner) → owner &&& need_wait op = 0 → s.rw_owner ≠ owner →
      Step L s t (s.goto t (.trying op none))
  | downgrade : s.pc t = .holding .writer → Step L s t (s.goto t (.downgrading .write))
  | downWrite : s.pc t = .downgrading .write →
      Step L s t (s.goto t (dassert (s.rw_owner &&& RW_WRITE_LOCKED ≠ 0) (.downgrading .owner)))
  | downOwner : s.pc t = .downgrading .owner →
      Step L s t (s.goto t (dassert (s.rw_owner &&& RW_THREAD = L.lwp t) (.downgrading .load)))
  | downLoad : s.pc t = .downgrading .load →
      Step L s t (s.goto t (.downgrading (if s.rw_owner &&& RW_HAS_WAITERS = 0 then .cas s.rw_owner else .lookup s.rw_owner)))
  | downCas {owner : Word} : s.pc t = .downgrading (.cas owner) → s.rw_owner = owner →
      Step L s t ((s.store owner RW_READ_INCR).goto t (.downgraded .bit))
  | downMiss {owner : Word} : s.pc t = .downgrading (.cas owner) → s.rw_owner ≠ owner →
      Step L s t (s.goto t (.downgrading (.lookup s.rw_owner)))
  | downLookup {owner : Word} : s.pc t = .downgrading (.lookup owner) → s.chain = none →
      Step L s t ({ s with chain := some t }.goto t (dassert (s.readers.card ≠ 0 ∨ s.writers.card ≠ 0)
        (if s.readers.card = 0 then dassert (s.writers.card ≠ 0) (.downgrading (.wanted owner s.readers.card s.writers.card))
        else .downgrading (.locked owner s.readers.card s.writers.card))))
  | downWanted {owner : Word} {rcnt wcnt : Nat} : s.pc t = .downgrading (.wanted owner rcnt wcnt) →
      Step L s t (s.goto t (dassert (s.rw_owner &&& RW_WRITE_WANTED ≠ 0) (.downgrading (.waiters owner rcnt wcnt))))
  | downWaiters {owner : Word} {rcnt wcnt : Nat} : s.pc t = .downgrading (.waiters owner rcnt wcnt) →
      Step L s t (s.goto t (dassert (s.rw_owner &&& RW_HAS_WAITERS ≠ 0) (.downgrading (.locked owner rcnt wcnt))))
  | downKeep {owner : Word} {rcnt wcnt : Nat} : s.pc t = .downgrading (.locked owner rcnt wcnt) → rcnt = 0 → s.rw_owner = owner →
      Step L s t ((s.store owner (RW_READ_INCR ||| RW_HAS_WAITERS ||| RW_WRITE_WANTED)).release.goto t (.downgraded .bit))
  | downGive {owner : Word} {rcnt wcnt : Nat} {names : Finset T} : s.pc t = .downgrading (.locked owner rcnt wcnt) → rcnt ≠ 0 →
      s.rw_owner = owner → names ⊆ s.readers → names.card = rcnt →
      Step L s t (((s.store owner (downValue rcnt wcnt)).wakeup names true).goto t (.downgraded .bit))
  | downRetry {owner : Word} {rcnt wcnt : Nat} : s.pc t = .downgrading (.locked owner rcnt wcnt) → s.rw_owner ≠ owner →
      Step L s t (s.release.goto t (.downgrading (.lookup s.rw_owner)))
  | downgradedBit : s.pc t = .downgraded .bit →
      Step L s t (s.goto t (dassert (s.rw_owner &&& RW_WRITE_LOCKED = 0) (.downgraded .field)))
  | downgradedField : s.pc t = .downgraded .field →
      Step L s t (s.goto t (dassert (s.rw_owner &&& RW_THREAD ≠ 0) (.holding .reader)))
  | upgrade : s.pc t = .holding .reader → Step L s t (s.goto t (.upgrading .held))
  | upHeld : s.pc t = .upgrading .held →
      Step L s t (s.goto t (dassert (s.rw_owner &&& RW_WRITE_LOCKED = 0 ∧ s.rw_owner &&& RW_THREAD ≠ 0) (.upgrading .load)))
  | upLoad : s.pc t = .upgrading .load → Step L s t (s.goto t (.upgrading (.top s.rw_owner)))
  | upFail {owner : Word} : s.pc t = .upgrading (.top owner) → owner &&& RW_THREAD ≠ RW_READ_INCR →
      Step L s t (s.goto t (dassert (owner &&& RW_WRITE_LOCKED = 0 ∧ owner &&& RW_THREAD ≠ 0) (.holding .reader)))
  | upCas {owner : Word} : s.pc t = .upgrading (.top owner) → owner &&& RW_THREAD = RW_READ_INCR → s.rw_owner = owner →
      Step L s t ((s.store owner (upgradeValue owner (L.lwp t))).goto t (dassert (owner &&& RW_WRITE_LOCKED = 0) (.upgraded .bit)))
  | upMiss {owner : Word} : s.pc t = .upgrading (.top owner) → owner &&& RW_THREAD = RW_READ_INCR → s.rw_owner ≠ owner →
      Step L s t (s.goto t (dassert (owner &&& RW_WRITE_LOCKED = 0) (.upgrading (.top s.rw_owner))))
  | upgradedBit : s.pc t = .upgraded .bit →
      Step L s t (s.goto t (dassert (s.rw_owner &&& RW_WRITE_LOCKED ≠ 0) (.upgraded .field)))
  | upgradedField : s.pc t = .upgraded .field →
      Step L s t (s.goto t (dassert (s.rw_owner &&& RW_THREAD = L.lwp t) (.holding .writer)))

-- rw_init: nobody holds the lock; the debug bit is the only one that may be set.
def Rw.init (debug : Bool) : Rw T :=
  { rw_owner := if debug then RW_DEBUG else 0, chain := none, readers := ∅, writers := ∅, pc := fun _ => .out }

inductive Reachable [Fintype T] (L : Lwps T) : Rw T → Prop where
  | init (debug : Bool) : Reachable L (Rw.init debug)
  | step {s s' : Rw T} {t : T} : Reachable L s → Step L s t s' → Reachable L s'

-- Where a thread holds the lock, sleeps on a queue, is on its way from a wakeup, and has the chain locked.
def Pc.hold : Pc → Option Krw
  | .woken given op _ => if given then some op else none
  | .entered op => some op
  | .holding op => some op
  | .exiting op _ => some op
  | .downgrading _ => some .writer
  | .downgraded _ => some .reader
  | .upgrading _ => some .reader
  | .upgraded _ => some .writer
  | _ => none

def Pc.waits : Pc → Option Krw
  | .blocked op _ => some op
  | _ => none

def Pc.coming : Pc → Bool
  | .entering true .writer _ => true
  | .woken false .writer _ => true
  | _ => false

def Pc.chained : Pc → Bool
  | .entering _ _ .locked => true
  | .entering _ _ (.mark _) => true
  | .exiting _ (.locked _) => true
  | .exiting _ (.swap ..) => true
  | .downgrading (.wanted ..) => true
  | .downgrading (.waiters ..) => true
  | .downgrading (.locked ..) => true
  | _ => false
end NetbsdAvr32.Rwlock
