import NetbsdAvr32.Outcome
import NetbsdAvr32.Slots

-- sys/kern/vfs_lockf.c: the locks of a file, its waiting requests and the
-- sleeping LWPs.
namespace NetbsdAvr32.Lockf
open Function Linked

-- The two tunables, which nothing in the kernel assigns.
def maxlockdepth : Nat := 50
def maxlocksperuid : Nat := 1024
def offMax : Int := 2 ^ 63 - 1

-- The result of off_t arithmetic: overflow of a signed type is undefined.
def offT (x : Int) : Except Halt Int :=
  if -offMax - 1 ≤ x ∧ x ≤ offMax then .ok x else .error (.fault "off_t overflow")

abbrev Ptr := Nat

-- `struct lockf **`: an inode's i_lockf, or the lf_next of a lock.
abbrev LockfSlot := Slot Nat Ptr

inductive LockType where
  | rdlck
  | wrlck
  | unlck
  deriving DecidableEq, Repr

-- lf_id: a `struct proc *` for POSIX locks, a `struct file *` for flock ones.
inductive Owner where
  | proc (p : Nat)
  | file (f : Nat)
  deriving DecidableEq, Repr

structure Flags where
  wait : Bool
  posix : Bool
  flock : Bool
  deriving DecidableEq, Repr

-- struct lockf but for lf_cv and lf_next. lf_block is the place in `lfBlkhd`.
structure Lock where
  lfFlags : Flags
  lfType : LockType
  lfStart : Int
  lfEnd : Int
  lfId : Owner
  lfHead : Nat
  lfBlkhd : List Ptr
  lfUid : Nat
  deriving DecidableEq, Repr

inductive Errno where
  | eagain
  | edeadlk
  | enomem
  | einval
  | eintr
  | erestart
  deriving DecidableEq, Repr

-- What an LWP inside cv_wait_sig of lf_setlock will need afterwards.
structure Frame where
  lock : Ptr
  sparelock : Option Ptr
  deriving DecidableEq, Repr

-- The processes and their LWPs.
structure Procs where
  pLwps : Nat → List Nat
  proc : Nat → Nat
  member : ∀ t, t ∈ pLwps (proc t)
  only : ∀ p t, t ∈ pLwps p → proc t = p
  some : ∀ p, pLwps p ≠ []

-- lf_next is kept apart from the other fields. Structures are numbered as the
-- pool hands them out, and no number is handed out twice. `wchan` is the lock
-- whose lf_cv an LWP sleeps on.
structure State where
  lockf : Ptr → Option Lock
  lfNext : LockfSlot → Option Ptr
  nextLockf : Ptr
  uiLockcnt : Nat → Nat
  wchan : Nat → Option Ptr
  frames : Nat → Option Frame

def initial : State where
  lockf := fun _ => none
  lfNext := fun _ => none
  nextLockf := 0
  uiLockcnt := fun _ => 0
  wchan := fun _ => none
  frames := fun _ => none

def State.get (p : Ptr) (s : State) : Except Halt Lock :=
  match s.lockf p with
  | some l => .ok l
  | none => .error (.fault "struct lockf")

def State.set (p : Ptr) (l : Lock) (s : State) : State := {s with lockf := update s.lockf p (some l)}

-- `p->lf_next = x` of a structure that is known to be live.
def State.link (p : Ptr) (x : Option Ptr) (s : State) : State := {s with lfNext := update s.lfNext (.next p) x}

def State.store (prev : LockfSlot) (x : Option Ptr) (s : State) : Except Halt State :=
  match prev with
  | .head _ => .ok {s with lfNext := update s.lfNext prev x}
  | .next p => do
    let _ ← s.get p
    .ok {s with lfNext := update s.lfNext prev x}

def State.broadcast (p : Ptr) (s : State) : State :=
  {s with wchan := fun t => if s.wchan t = some p then none else s.wchan t}

def ulong (n : Nat) : Nat := n % 2 ^ 32

-- A structure as the pool hands it out: every field is written before it is read.
def rawLock (uid : Nat) : Lock := ⟨⟨false,false,false⟩,.unlck,0,0,.proc 0,0,[],uid⟩

def lfAlloc (uid allowfail : Nat) (s : State) : Option Ptr × State :=
  let lcnt := ulong (s.uiLockcnt uid + 1)
  if uid ≠ 0 ∧ allowfail ≠ 0 ∧ lcnt > (if allowfail = 1 then maxlocksperuid else maxlocksperuid * 2) then (none,s)
  else (some s.nextLockf,{s with
    lockf := update s.lockf s.nextLockf (some (rawLock uid))
    nextLockf := s.nextLockf + 1
    uiLockcnt := update s.uiLockcnt uid lcnt})

def lfFree (lock : Ptr) (s : State) : Except Halt State := do
  let l ← s.get lock
  .ok {s with
    lockf := update s.lockf lock none
    uiLockcnt := update s.uiLockcnt l.lfUid (ulong (s.uiLockcnt l.lfUid + (2 ^ 32 - 1)))}

inductive Ovcase where
  | noOverlap
  | equal
  | contains
  | contained
  | startsBefore
  | endsAfter
  deriving DecidableEq, Repr

inductive Search where
  | self
  | others
  deriving DecidableEq, Repr

-- The six cases of lf_findoverlap for one lock of the list.
def lfOvcase (lf lock : Lock) : Except Halt Ovcase :=
  if lf.lfEnd ≠ -1 ∧ lock.lfStart > lf.lfEnd ∨ lock.lfEnd ≠ -1 ∧ lf.lfStart > lock.lfEnd then .ok .noOverlap
  else if lf.lfStart = lock.lfStart ∧ lf.lfEnd = lock.lfEnd then .ok .equal
  else if lf.lfStart ≤ lock.lfStart ∧ lock.lfEnd ≠ -1 ∧ (lf.lfEnd ≥ lock.lfEnd ∨ lf.lfEnd = -1) then .ok .contains
  else if lock.lfStart ≤ lf.lfStart ∧ (lock.lfEnd = -1 ∨ lf.lfEnd ≠ -1 ∧ lock.lfEnd ≥ lf.lfEnd) then .ok .contained
  else if lf.lfStart < lock.lfStart ∧ (lf.lfEnd ≥ lock.lfStart ∨ lf.lfEnd = -1) then .ok .startsBefore
  else if lf.lfStart > lock.lfStart ∧ lock.lfEnd ≠ -1 ∧ (lf.lfEnd > lock.lfEnd ∨ lf.lfEnd = -1) then .ok .endsAfter
  else .error (.panic "lf_findoverlap: default")

structure Found where
  ovcase : Ovcase
  prev : LockfSlot
  overlap : Option Ptr

def lfFindoverlap (type : Search) (lock : Lock) : Nat → Option Ptr → LockfSlot → State → Except Halt Found
  | 0, _, _, _ => .error .fuel
  | _ + 1, none, prev, _ => .ok ⟨.noOverlap,prev,none⟩
  | k + 1, some p, prev, s => do
    let lf ← s.get p
    if type = .self ∧ lf.lfId ≠ lock.lfId ∨ type = .others ∧ lf.lfId = lock.lfId then
      lfFindoverlap type lock k (s.lfNext (.next p)) (.next p) s
    else do
      match ← lfOvcase lf lock with
      | .noOverlap =>
        if type = .self ∧ lock.lfEnd ≠ -1 ∧ lf.lfStart > lock.lfEnd then .ok ⟨.noOverlap,prev,some p⟩
        else lfFindoverlap type lock k (s.lfNext (.next p)) (.next p) s
      | ovcase => .ok ⟨ovcase,prev,some p⟩

-- Splits lock1 around lock2, which goes between the parts.
def lfSplit (lock1 lock2 : Ptr) (sparelock : Option Ptr) (s : State) : Except Halt (Option Ptr × State) := do
  let l1 ← s.get lock1
  let l2 ← s.get lock2
  if l1.lfStart = l2.lfStart then do
    let start ← offT (l2.lfEnd + 1)
    .ok (sparelock,(s.set lock1 {l1 with lfStart := start}).link lock2 (some lock1))
  else if l1.lfEnd = l2.lfEnd then do
    let fin ← offT (l2.lfStart - 1)
    let s := s.set lock1 {l1 with lfEnd := fin}
    .ok (sparelock,(s.link lock2 (s.lfNext (.next lock1))).link lock1 (some lock2))
  else match sparelock with
    | none => .error (.fault "sparelock NULL")
    | some splitlock => do
      let _ ← s.get splitlock
      let start ← offT (l2.lfEnd + 1)
      let s := s.set splitlock {l1 with lfStart := start, lfBlkhd := []}
      let fin ← offT (l2.lfStart - 1)
      let s := s.set lock1 {l1 with lfEnd := fin}
      let s := s.link splitlock (s.lfNext (.next lock1))
      .ok (none,(s.link lock2 (some splitlock)).link lock1 (some lock2))

-- `while ((wakelock = TAILQ_FIRST(&listhead->lf_blkhd)))` over the requests left.
def wakeBlocked (listhead : Ptr) : List Ptr → State → Except Halt State
  | [], s => .ok s
  | wakelock :: rest, s => do
    let _ ← s.get wakelock
    let l ← s.get listhead
    if s.lfNext (.next wakelock) ≠ some listhead then .error (.panic "wakelock->lf_next == listhead")
    else
      let s := (s.set listhead {l with lfBlkhd := rest}).link wakelock none
      wakeBlocked listhead rest (s.broadcast wakelock)

def lfWakelock (listhead : Ptr) (s : State) : Except Halt State := do
  let l ← s.get listhead
  wakeBlocked listhead l.lfBlkhd s

-- The part of an overlap's range behind the lock, or before it.
def cutFront (overlap : Ptr) (lock : Lock) (s : State) : Except Halt State := do
  let ov ← s.get overlap
  let start ← offT (lock.lfEnd + 1)
  .ok (s.set overlap {ov with lfStart := start})

def cutBack (overlap : Ptr) (lock : Lock) (s : State) : Except Halt State := do
  let ov ← s.get overlap
  let fin ← offT (lock.lfStart - 1)
  .ok (s.set overlap {ov with lfEnd := fin})

-- Case 2 of lf_clearlock.
def clearContained (unlock overlap : Ptr) (sparelock : Option Ptr) (s : State) : Except Halt (Option Ptr × State) := do
  let u ← s.get unlock
  let ov ← s.get overlap
  if ov.lfStart = u.lfStart then do
    let s ← cutFront overlap u s
    .ok (sparelock,s)
  else do
    let (sparelock,s) ← lfSplit overlap unlock sparelock s
    .ok (sparelock,s.link overlap (s.lfNext (.next unlock)))

def clearLoop (unlock : Ptr) : Nat → Option Ptr → LockfSlot → Option Ptr → State → Except Halt (Option Ptr × State)
  | 0, _, _, _, _ => .error .fuel
  | k + 1, lf, prev, sparelock, s => do
    let u ← s.get unlock
    match ← lfFindoverlap .self u (s.nextLockf + 1) lf prev s with
    | ⟨.noOverlap,_,_⟩ => .ok (sparelock,s)
    | ⟨_,_,none⟩ => .error (.fault "overlap NULL")
    | ⟨.equal,prev,some overlap⟩ => do
      let s ← lfWakelock overlap s
      let s ← s.store prev (s.lfNext (.next overlap))
      let s ← lfFree overlap s
      .ok (sparelock,s)
    | ⟨.contains,_,some overlap⟩ => do
      let s ← lfWakelock overlap s
      clearContained unlock overlap sparelock s
    | ⟨.contained,prev,some overlap⟩ => do
      let s ← lfWakelock overlap s
      let lf := s.lfNext (.next overlap)
      let s ← s.store prev lf
      let s ← lfFree overlap s
      clearLoop unlock k lf prev sparelock s
    | ⟨.startsBefore,_,some overlap⟩ => do
      let s ← lfWakelock overlap s
      let s ← cutBack overlap u s
      clearLoop unlock k (s.lfNext (.next overlap)) (.next overlap) sparelock s
    | ⟨.endsAfter,_,some overlap⟩ => do
      let s ← lfWakelock overlap s
      let s ← cutFront overlap u s
      .ok (sparelock,s)

def lfClearlock (unlock : Ptr) (sparelock : Option Ptr) (s : State) : Except Halt (Option Ptr × State) := do
  let u ← s.get unlock
  if s.lfNext (.head u.lfHead) = none then .ok (sparelock,s)
  else clearLoop unlock (s.nextLockf + 1) (s.lfNext (.head u.lfHead)) (.head u.lfHead) sparelock s

def getblockLoop (lock : Lock) : Nat → Option Ptr → LockfSlot → State → Except Halt (Option Ptr)
  | 0, _, _, _ => .error .fuel
  | k + 1, lf, prev, s => do
    match ← lfFindoverlap .others lock (s.nextLockf + 1) lf prev s with
    | ⟨.noOverlap,_,_⟩ => .ok none
    | ⟨_,_,none⟩ => .error (.fault "overlap NULL")
    | ⟨_,prev,some overlap⟩ => do
      let ov ← s.get overlap
      if lock.lfType = .wrlck ∨ ov.lfType = .wrlck then .ok (some overlap)
      else getblockLoop lock k (s.lfNext (.next overlap)) prev s

def lfGetblock (lock : Lock) (s : State) : Except Halt (Option Ptr) :=
  getblockLoop lock (s.nextLockf + 1) (s.lfNext (.head lock.lfHead)) (.head lock.lfHead) s

-- The deadlock check's `while (i++ < maxlockdepth)` with `k` rounds left:
-- whether the chain came back to curproc, and the last value of i.
def waitChain (c : Procs) (curproc : Nat) : Nat → Nat → Nat → State → Except Halt (Bool × Nat)
  | 0, i, _, _ => .ok (false,i + 1)
  | k + 1, i, p, s =>
    match c.pLwps p with
    | [] => .error (.fault "p_lwps")
    | wlwp :: more =>
      if more ≠ [] then .ok (false,i + 1)
      else match s.wchan wlwp with
        | none => .ok (false,i + 1)
        | some waitblock => do
          let _ ← s.get waitblock
          match s.lfNext (.next waitblock) with
          | none => .error (.fault "lf_next NULL")
          | some waitblock => do
            let l ← s.get waitblock
            if l.lfFlags.posix = false then .ok (false,i + 1)
            else match l.lfId with
              | .file _ => .error (.fault "lf_id")
              | .proc p => if p = curproc then .ok (true,i + 1) else waitChain c curproc k (i + 1) p s

def deadlocks (c : Procs) (curproc : Nat) (lock block : Lock) (s : State) : Except Halt Bool :=
  if lock.lfFlags.posix = true ∧ block.lfFlags.posix = true then
    match block.lfId with
    | .file _ => .error (.fault "lf_id")
    | .proc p => do
      let (cycle,i) ← waitChain c curproc maxlockdepth 0 p s
      .ok (cycle || decide (i ≥ maxlockdepth))
  else .ok false

-- Case 3 of lf_setlock: the requests blocked on the overlap wait for the lock.
def takeBlocked (lock overlap : Ptr) : List Ptr → State → Except Halt State
  | [], s => .ok s
  | ltmp :: rest, s => do
    let _ ← s.get ltmp
    let ov ← s.get overlap
    if s.lfNext (.next ltmp) ≠ some overlap then .error (.panic "ltmp->lf_next == overlap")
    else do
      let s := (s.set overlap {ov with lfBlkhd := rest}).link ltmp (some lock)
      let l ← s.get lock
      takeBlocked lock overlap rest (s.set lock {l with lfBlkhd := l.lfBlkhd ++ [ltmp]})

def downgrades (lock overlap : Lock) : Bool := decide (lock.lfType = .rdlck ∧ overlap.lfType = .wrlck)

-- Cases 1 to 3 of lf_setlock, without the list.
def setEqual (lock overlap : Ptr) (s : State) : Except Halt State := do
  let l ← s.get lock
  let ov ← s.get overlap
  let s ← bif downgrades l ov then lfWakelock overlap s else .ok s
  let ov ← s.get overlap
  lfFree lock (s.set overlap {ov with lfType := l.lfType})

def setContained (lock overlap : Ptr) (prev : LockfSlot) (sparelock : Option Ptr) (s : State) :
    Except Halt (Option Ptr × State) := do
  let l ← s.get lock
  let ov ← s.get overlap
  if ov.lfType = l.lfType then do
    let s ← lfFree lock s
    .ok (sparelock,s)
  else if ov.lfStart = l.lfStart then do
    let s ← s.store prev (some lock)
    let s ← cutFront overlap l (s.link lock (some overlap))
    let s ← lfWakelock overlap s
    .ok (sparelock,s)
  else do
    let (sparelock,s) ← lfSplit overlap lock sparelock s
    let s ← lfWakelock overlap s
    .ok (sparelock,s)

def takeOver (lock overlap : Ptr) (s : State) : Except Halt State := do
  let l ← s.get lock
  let ov ← s.get overlap
  bif downgrades l ov then lfWakelock overlap s else takeBlocked lock overlap ov.lfBlkhd s

-- lf_setlock's `for (;;)` once nothing blocks the lock.
def setLoop (lock : Ptr) : Nat → Bool → Option Ptr → LockfSlot → Option Ptr → State → Except Halt (Option Ptr × State)
  | 0, _, _, _, _, _ => .error .fuel
  | k + 1, needtolink, block, prev, sparelock, s => do
    let l ← s.get lock
    match ← lfFindoverlap .self l (s.nextLockf + 1) block prev s with
    | ⟨.noOverlap,prev,overlap⟩ =>
      if needtolink then do
        let s ← s.store prev (some lock)
        .ok (sparelock,s.link lock overlap)
      else .ok (sparelock,s)
    | ⟨_,_,none⟩ => .error (.fault "overlap NULL")
    | ⟨.equal,_,some overlap⟩ => do
      let s ← setEqual lock overlap s
      .ok (sparelock,s)
    | ⟨.contains,prev,some overlap⟩ => setContained lock overlap prev sparelock s
    | ⟨.contained,prev,some overlap⟩ => do
      let block := s.lfNext (.next overlap)
      let s ← takeOver lock overlap s
      if needtolink then do
        let s ← s.store prev (some lock)
        let s ← lfFree overlap (s.link lock (s.lfNext (.next overlap)))
        setLoop lock k false block (.next lock) sparelock s
      else do
        let s ← s.store prev (s.lfNext (.next overlap))
        let s ← lfFree overlap s
        setLoop lock k false block prev sparelock s
    | ⟨.startsBefore,_,some overlap⟩ => do
      let block := s.lfNext (.next overlap)
      let s ← cutBack overlap l ((s.link lock block).link overlap (some lock))
      let s ← lfWakelock overlap s
      setLoop lock k false block (.next lock) sparelock s
    | ⟨.endsAfter,prev,some overlap⟩ =>
      if needtolink then do
        let s ← s.store prev (some lock)
        let s ← cutFront overlap l (s.link lock (some overlap))
        let s ← lfWakelock overlap s
        .ok (sparelock,s)
      else do
        let s ← cutFront overlap l s
        let s ← lfWakelock overlap s
        .ok (sparelock,s)

inductive Setlock where
  | returned (error : Option Errno) (sparelock : Option Ptr)
  | asleep

-- An exclusive flock request gives up the shared lock before it sleeps.
def giveUpShared (lock : Ptr) (s : State) : Except Halt State := do
  let l ← s.get lock
  if l.lfFlags.flock = true ∧ l.lfType = .wrlck then do
    let (_,s) ← lfClearlock lock none (s.set lock {l with lfType := .unlck})
    let l ← s.get lock
    .ok (s.set lock {l with lfType := .wrlck})
  else .ok s

-- Queue the request on the lock that blocks it, and cv_wait_sig.
def sleepOn (t : Nat) (lock block : Ptr) (sparelock : Option Ptr) (s : State) : Except Halt State := do
  let s := s.link lock (some block)
  let b ← s.get block
  let s := s.set block {b with lfBlkhd := b.lfBlkhd ++ [lock]}
  .ok {s with wchan := update s.wchan t (some lock), frames := update s.frames t (some ⟨lock,sparelock⟩)}

-- lf_setlock from its first statement, or from the loop's next round, to the
-- return or the next sleep.
def lfSetlock (c : Procs) (t : Nat) (lock : Ptr) (sparelock : Option Ptr) (s : State) : Except Halt (Setlock × State) := do
  let l ← s.get lock
  match ← lfGetblock l s with
  | none => do
    let (sparelock,s) ← setLoop lock (s.nextLockf + 1) true (s.lfNext (.head l.lfHead)) (.head l.lfHead) sparelock s
    .ok (.returned none sparelock,s)
  | some block =>
    if l.lfFlags.wait = false then do
      let s ← lfFree lock s
      .ok (.returned (some .eagain) sparelock,s)
    else do
      let b ← s.get block
      match ← deadlocks c (c.proc t) l b s with
      | true => do
        let s ← lfFree lock s
        .ok (.returned (some .edeadlk) sparelock,s)
      | false => do
        let s ← giveUpShared lock s
        let s ← sleepOn t lock block sparelock s
        .ok (.asleep,s)

-- After cv_wait_sig: off the queue, unless lf_wakelock has done it.
def leaveQueue (lock : Ptr) (s : State) : Except Halt State := do
  let _ ← s.get lock
  match s.lfNext (.next lock) with
  | none => .ok s
  | some block => do
    let b ← s.get block
    .ok ((s.set block {b with lfBlkhd := b.lfBlkhd.erase lock}).link lock none)

def lfSetlockResume (c : Procs) (t : Nat) (frame : Frame) (error : Option Errno) (s : State) :
    Except Halt (Setlock × State) := do
  let s ← leaveQueue frame.lock s
  match error with
  | some e => do
    let s ← lfFree frame.lock s
    .ok (.returned (some e) frame.sparelock,s)
  | none => lfSetlock c t frame.lock frame.sparelock s

inductive Whence where
  | seekSet
  | seekCur
  | seekEnd
  | other
  deriving DecidableEq, Repr

structure Flock where
  lStart : Int
  lLen : Int
  lPid : Int
  lType : LockType
  lWhence : Whence
  deriving DecidableEq, Repr

def lfGetlock (lock : Lock) (fl : Flock) (s : State) : Except Halt Flock := do
  match ← lfGetblock lock s with
  | none => .ok {fl with lType := .unlck}
  | some block => do
    let b ← s.get block
    let len ← if b.lfEnd = -1 then .ok 0 else do
      let span ← offT (b.lfEnd - b.lfStart)
      offT (span + 1)
    let pid := match b.lfFlags.posix, b.lfId with
      | true, .proc p => (p : Int)
      | _, _ => -1
    .ok {fl with lType := b.lfType, lWhence := .seekSet, lStart := b.lfStart, lLen := len, lPid := pid}

inductive AdvOp where
  | setlk
  | unlck
  | getlk
  | other
  deriving DecidableEq, Repr

-- struct vop_advlock_args with the vnode's i_lockf and i_size.
structure Args where
  aOp : AdvOp
  aFl : Flock
  aFlags : Flags
  aId : Owner
  head : Nat
  size : Int
  deriving DecidableEq, Repr

-- The flock structure as a start and an end; `none` is EINVAL.
def flockStart (fl : Flock) (size : Int) : Except Halt Int :=
  match fl.lWhence with
  | .seekEnd => offT (size + fl.lStart)
  | _ => offT fl.lStart

def flockEnds (fl : Flock) (start : Int) : Except Halt (Int × Int) :=
  if fl.lLen = 0 then .ok (start,-1)
  else if fl.lLen > 0 then do
    let past ← offT (start + fl.lLen)
    let fin ← offT (past - 1)
    .ok (start,fin)
  else do
    let fin ← offT (start - 1)
    let start ← offT (start + fl.lLen)
    .ok (start,fin)

def flockRange (fl : Flock) (size : Int) : Except Halt (Option (Int × Int)) := do
  let start ← flockStart fl size
  if fl.lWhence = .other then .ok none
  else do
    let (start,fin) ← flockEnds fl start
    .ok (if start < 0 then none else some (start,fin))

-- The two allocations before the interlock is taken.
def allocSpare (ap : Args) (uid : Nat) (s : State) : Option Ptr × State :=
  if ap.aOp ≠ .getlk ∧ ap.aFlags.flock = false then lfAlloc uid 0 s else (none,s)

def allocLock (ap : Args) (uid : Nat) (start fin : Int) (s : State) : Option Ptr × State :=
  lfAlloc uid (match ap.aOp with
    | .setlk => 1
    | .unlck => if start = 0 ∨ fin = -1 then 0 else 2
    | _ => 0) s

def freeIf (lock : Option Ptr) (s : State) : Except Halt State :=
  match lock with
  | none => .ok s
  | some lock => lfFree lock s

inductive Reply where
  | returned (error : Option Errno)
  | asleep
  deriving DecidableEq, Repr

-- The end of lf_advlock for a request that was handed to lf_setlock.
def afterSetlock (result : Setlock) (s : State) : Except Halt (Reply × State) :=
  match result with
  | .asleep => .ok (.asleep,s)
  | .returned error sparelock => do
    let s ← freeIf sparelock s
    .ok (.returned error,s)

-- The structure is filled in and the operation done, with the interlock held.
def advlockLocked (c : Procs) (t : Nat) (ap : Args) (start fin : Int) (lock : Ptr) (sparelock : Option Ptr) (s : State) :
    Except Halt (Reply × Flock × State) := do
  let raw ← s.get lock
  let l : Lock := ⟨ap.aFlags,ap.aFl.lType,start,fin,ap.aId,ap.head,[],raw.lfUid⟩
  let s := (s.set lock l).link lock none
  if l.lfFlags.posix = true ∧ ap.aId ≠ .proc (c.proc t) then .error (.panic "curproc == (struct proc *)ap->a_id")
  else match ap.aOp with
    | .setlk => do
      let (result,s) ← lfSetlock c t lock sparelock s
      let (reply,s) ← afterSetlock result s
      .ok (reply,ap.aFl,s)
    | .unlck => do
      let (sparelock,s) ← lfClearlock lock sparelock s
      let s ← lfFree lock s
      let s ← freeIf sparelock s
      .ok (.returned none,ap.aFl,s)
    | _ => do
      let fl ← lfGetlock l ap.aFl s
      let s ← lfFree lock s
      let s ← freeIf sparelock s
      .ok (.returned none,fl,s)

def lfAdvlock (c : Procs) (t uid : Nat) (ap : Args) (s : State) : Except Halt (Reply × Flock × State) := do
  match ← flockRange ap.aFl ap.size with
  | none => .ok (.returned (some .einval),ap.aFl,s)
  | some (start,fin) =>
    if ap.aOp = .other then .ok (.returned (some .einval),ap.aFl,s)
    else
      let (sparelock,s) := allocSpare ap uid s
      match allocLock ap uid start fin s with
      | (none,s) => do
        let s ← freeIf sparelock s
        .ok (.returned (some .enomem),ap.aFl,s)
      | (some lock,s) =>
        if s.lfNext (.head ap.head) = none ∧ ap.aOp ≠ .setlk then do
          let s ← lfFree lock s
          let s ← freeIf sparelock s
          .ok (.returned none,{ap.aFl with lType := .unlck},s)
        else advlockLocked c t ap start fin lock sparelock s

-- One atomic step of the system: an LWP calls lf_advlock, a signal takes a
-- sleeping LWP off the sleep queue, or cv_wait_sig returns in an LWP.
inductive Op where
  | advlock (t uid : Nat) (ap : Args)
  | signal (t : Nat)
  | resume (t : Nat) (error : Option Errno)
  deriving DecidableEq, Repr

def step (c : Procs) (s : State) : Op → Except Halt (Option Reply × State)
  | .advlock t uid ap => do
    let (reply,_,s) ← lfAdvlock c t uid ap s
    .ok (some reply,s)
  | .signal t => .ok (none,{s with wchan := update s.wchan t none})
  | .resume t error => match s.frames t with
    | none => .error (.fault "not in lf_setlock")
    | some frame => do
      let (result,s) ← lfSetlockResume c t frame error {s with frames := update s.frames t none}
      let (reply,s) ← afterSetlock result s
      .ok (some reply,s)
end NetbsdAvr32.Lockf
