import NetbsdAvr32.Keyed
import NetbsdAvr32.Outcome

-- sys/kern/sysv_sem.c: semaphores, undo vectors and the calls that change them.
namespace NetbsdAvr32.Sysvsem

-- A value kept in an unsigned short, and one kept in a short.
def ushort (x : Int) : Nat := (x % 65536).toNat
def short (x : Int) : Int := (x + 32768) % 65536 - 32768

-- SEMUME, semopm, semmsl and semvmx stay as the kernel was built; a semaphore
-- number fits into un_num.
structure Seminfo where
  semume : Nat
  semopm : Nat
  semmsl : Nat
  semvmx : Nat
  fits : semmsl ≤ 32768

-- sys/sys/sem.h.
def seminfo : Seminfo := { semume := 10, semopm := 100, semmsl := 60, semvmx := 32767, fits := by decide }

inductive Errno where
  | einval
  | enospc
  | eagain
  | eintr
  | eidrm
  | efbig
  | e2big
  | eacces
  | eexist
  | enoent
  | erange
  | ebusy
  deriving DecidableEq, Repr

-- `undo` is SEM_UNDO and `nowait` is IPC_NOWAIT; sem_op is a short.
structure Sembuf where
  semNum : Nat
  semOp : Int
  undo : Bool
  nowait : Bool
  range : -32768 ≤ semOp ∧ semOp ≤ 32767
  deriving DecidableEq

structure Sem where
  semval : Nat
  semncnt : Nat
  semzcnt : Nat
  deriving DecidableEq, Repr

-- `sems` is what _sem_base points to: sem_nsems semaphores. `alloc` is SEM_ALLOC.
structure SemidDs where
  alloc : Bool
  seq : Nat
  key : Int
  sems : List Sem
  deriving DecidableEq, Repr

structure Undo where
  unAdjval : Int
  unNum : Nat
  unId : Nat
  deriving DecidableEq, Repr

-- un_cnt is the length of `unEnt`.
structure SemUndo where
  unProc : Nat
  unEnt : List Undo
  deriving DecidableEq, Repr

-- A call of sys_semop that sleeps, with the operation it could not do.
structure Waiter where
  proc : Nat
  semid : Int
  sops : List Sembuf
  sop : Sembuf
  doUndos : Bool

-- `semuList` is semu_list; the other structures of the table have no un_proc.
structure World where
  semmni : Nat
  semmns : Nat
  semmnu : Nat
  sema : Nat → SemidDs
  semtot : Nat
  semuList : List SemUndo
  waiters : List Waiter
  semReallocState : Bool

def ipcidToIx (id : Int) : Nat := (id % 65536).toNat
def ipcidToSeq (id : Int) : Nat := (id / 65536 % 65536).toNat
def ixseqToIpcid (ix seq : Nat) : Int := (seq * 65536 + ix % 65536 : Nat)

def World.setSems (w : World) (ix : Nat) (sems : List Sem) : World :=
  { w with sema := Function.update w.sema ix { w.sema ix with sems := sems } }

section Undo
def undoKey (e : Undo) : Nat × Nat := (e.unId,e.unNum)

def semuAlloc (semmnu p : Nat) (l : List SemUndo) : Except Halt (Option (List SemUndo)) :=
  if l.length < semmnu then .ok (some ({ unProc := p, unEnt := [] } :: l))
  else
    -- all the structures are in use: try to free some
    let left := l.filter fun v => v.unEnt ≠ []
    if left.length = l.length then .ok none
    else if left.length < semmnu then .ok (some ({ unProc := p, unEnt := [] } :: left))
    else .error (.panic "semu_alloc - second attempt failed")

-- The loop over un_ent: `before` has been passed.
def adjustEnts (c : Seminfo) (semid semnum : Nat) (adjval : Int) (before : List Undo) : List Undo → Option (List Undo)
  | [] =>
    if before.length = c.semume then none
    else some (before ++ [{ unAdjval := short adjval, unNum := semnum, unId := semid }])
  | e :: after =>
    if e.unId ≠ semid ∨ e.unNum ≠ semnum then adjustEnts c semid semnum adjval (before ++ [e]) after
    else if short (e.unAdjval + adjval) = 0 then some (Keyed.swapOut before after)
    else some (before ++ { e with unAdjval := short (e.unAdjval + adjval) } :: after)

-- A process has one vector at most.
def setVector (p : Nat) (ents : List Undo) (l : List SemUndo) : List SemUndo :=
  l.map fun v => if v.unProc = p then { v with unEnt := ents } else v

-- un_ent of the vector of `p`.
def vectorOf (l : List SemUndo) (p : Nat) : List Undo := (Keyed.get? SemUndo.unProc p l).elim [] SemUndo.unEnt

-- What is done once the vector of `p` is known to be in the list.
def adjustVector (c : Seminfo) (p semid semnum : Nat) (adjval : Int) (l : List SemUndo) : Option Errno × List SemUndo :=
  match adjustEnts c semid semnum adjval [] (vectorOf l p) with
  | none => (some .einval,l)
  | some ents => (none,setVector p ents l)

def semundoAdjust (c : Seminfo) (semmnu p semid semnum : Nat) (adjval : Int) (l : List SemUndo) : Except Halt (Option Errno × List SemUndo) :=
  match Keyed.get? SemUndo.unProc p l with
  | some _ => .ok (adjustVector c p semid semnum adjval l)
  | none => do
    match ← semuAlloc semmnu p l with
    | none => return (some .enospc,l)
    | some l => return adjustVector c p semid semnum adjval l

-- semundo_clear goes through one vector: `semnum` is none where it is -1.
def clearEnts (semid : Nat) (semnum : Option Nat) : Nat → List Undo → List Undo → List Undo
  | 0,before,after => before ++ after
  | _,before,[] => before
  | fuel + 1,before,e :: after =>
    if e.unId = semid ∧ (semnum = none ∨ semnum = some e.unNum) then
      match after.getLast? with
      | none => before
      | some x => if semnum.isSome then before ++ x :: after.dropLast else clearEnts semid semnum fuel before (x :: after.dropLast)
    else clearEnts semid semnum fuel (before ++ [e]) after

def semundoClear (semid : Nat) (semnum : Option Nat) (l : List SemUndo) : List SemUndo :=
  l.map fun v => { v with unEnt := clearEnts semid semnum v.unEnt.length [] v.unEnt }
end Undo
section Semop
def bump (sems : List Sem) (num : Nat) (adj : Int) : List Sem :=
  sems.modify num fun s => { s with semval := ushort (s.semval + adj) }

-- How the loop over the vector ends: `passed` are the operations that have been
-- done, the last one first.
inductive Scan where
  | through (sems : List Sem) (doWakeup doUndos : Bool)
  | blocked (sems : List Sem) (doUndos : Bool) (passed : List Sembuf) (sop : Sembuf)

def semopScan (sems : List Sem) (doWakeup doUndos : Bool) (passed : List Sembuf) : List Sembuf → Scan
  | [] => .through sems doWakeup doUndos
  | sop :: sops =>
    let s := (sems[sop.semNum]?).getD { semval := 0, semncnt := 0, semzcnt := 0 }
    if sop.semOp < 0 then
      if s.semval + sop.semOp < 0 then .blocked sems doUndos passed sop
      else
        let wakes := ushort (s.semval + sop.semOp) = 0 ∧ 0 < s.semzcnt
        semopScan (bump sems sop.semNum sop.semOp) (doWakeup || wakes) (doUndos || sop.undo) (sop :: passed) sops
    else if sop.semOp = 0 then
      if 0 < s.semval then .blocked sems doUndos passed sop
      else semopScan sems doWakeup doUndos (sop :: passed) sops
    else semopScan (bump sems sop.semNum sop.semOp) (doWakeup || decide (0 < s.semncnt)) (doUndos || sop.undo) (sop :: passed) sops

-- semval -= sem_op, for each operation of the list.
def unwind (sems : List Sem) (sops : List Sembuf) : List Sem := sops.foldl (fun sems sop => bump sems sop.semNum (-sop.semOp)) sems
def Sembuf.undone (sop : Sembuf) : Bool := sop.undo && decide (sop.semOp ≠ 0)

-- "rollback the undo's in the exact reverse order".
def undoBack (c : Seminfo) (semmnu p semid : Nat) : List Sembuf → List SemUndo → Except Halt (List SemUndo)
  | [],l => .ok l
  | sop :: sops,l =>
    if sop.undone then do
      match ← semundoAdjust c semmnu p semid sop.semNum sop.semOp l with
      | (none,l) => undoBack c semmnu p semid sops l
      | (some _,_) => .error (.panic "semop - can't undo undos")
    else undoBack c semmnu p semid sops l

def undoAll (c : Seminfo) (semmnu p semid : Nat) (passed : List Sembuf) : List Sembuf → List SemUndo → Except Halt (Option Errno × List SemUndo)
  | [],l => .ok (none,l)
  | sop :: sops,l =>
    if sop.undone then do
      match ← semundoAdjust c semmnu p semid sop.semNum (-sop.semOp) l with
      | (none,l) => undoAll c semmnu p semid (sop :: passed) sops l
      | (some e,l) => return (some e,← undoBack c semmnu p semid passed l)
    else undoAll c semmnu p semid (sop :: passed) sops l

-- How an attempt ends.
inductive Ended where
  | done (doWakeup : Bool)
  | asleep
  | error (e : Errno)
  deriving DecidableEq, Repr

def countWaiter (sems : List Sem) (sop : Sembuf) (by_ : Int) : List Sem :=
  sems.modify sop.semNum fun s =>
    if sop.semOp = 0 then { s with semzcnt := ushort (s.semzcnt + by_) } else { s with semncnt := ushort (s.semncnt + by_) }

-- One round of the loop in sys_semop, up to where it sleeps or returns.
def semopAttempt (c : Seminfo) (w : World) (p : Nat) (semid : Int) (sops : List Sembuf) (doUndos : Bool) : Except Halt (Ended × World) :=
  let ix := ipcidToIx semid
  match semopScan (w.sema ix).sems false doUndos [] sops with
  | .blocked sems doUndos passed sop =>
    let sems := unwind sems passed
    if sop.nowait then .ok (.error .eagain,w.setSems ix sems)
    else
      .ok (.asleep,{ w.setSems ix (countWaiter sems sop 1) with
        waiters := { proc := p, semid := semid, sops := sops, sop := sop, doUndos := doUndos } :: w.waiters })
  | .through sems doWakeup doUndos =>
    if doUndos then do
      match ← undoAll c w.semmnu p ix [] sops w.semuList with
      | (none,l) => return (.done doWakeup,{ w.setSems ix sems with semuList := l })
      | (some e,l) => return (.error e,{ w.setSems ix (unwind sems sops) with semuList := l })
    else .ok (.done doWakeup,w.setSems ix sems)

-- sys_semop from its entry on; `granted` is the answer of ipcperm.
def sysSemop (c : Seminfo) (w : World) (granted : Bool) (p : Nat) (semid : Int) (sops : List Sembuf) : Except Halt (Ended × World) :=
  let ix := ipcidToIx semid
  if 8 < sops.length ∧ c.semopm < sops.length then .ok (.error .e2big,w)
  else if w.semmni ≤ ix then .ok (.error .einval,w)
  else if (w.sema ix).alloc = false ∨ (w.sema ix).seq ≠ ipcidToSeq semid then .ok (.error .einval,w)
  else if granted = false then .ok (.error .eacces,w)
  else if ∃ sop ∈ sops,(w.sema ix).sems.length ≤ sop.semNum then .ok (.error .efbig,w)
  else semopAttempt c w p semid sops false

-- A sleeping call goes on: `signal` is the result of cv_wait_sig. A call that
-- has to restart begins again as a new one.
def semopWake (c : Seminfo) (w : World) (x : Waiter) (rest : List Waiter) (signal : Bool) : Except Halt (Option Ended × World) :=
  let ix := ipcidToIx x.semid
  let w := { w with waiters := rest }
  if (w.sema ix).alloc = false ∨ (w.sema ix).seq ≠ ipcidToSeq x.semid then .ok (some (.error .eidrm),w)
  else
    let w := w.setSems ix (countWaiter (w.sema ix).sems x.sop (-1))
    if w.semReallocState then .ok (none,w)
    else if signal then .ok (some (.error .eintr),w)
    else do
      let (ended,w) ← semopAttempt c w x.proc x.semid x.sops x.doUndos
      return (some ended,w)
end Semop
section Others
-- The set that sys_semget makes at the first free index.
def semgetNew (c : Seminfo) (w : World) (key nsems : Nat) : Except Errno World :=
  if nsems = 0 ∨ c.semmsl < nsems then .error .einval
  else if w.semmns - w.semtot < nsems then .error .enospc
  else
    match (List.range w.semmni).find? fun ix => (w.sema ix).alloc = false with
    | none => .error .enospc
    | some ix =>
      .ok { w with
        sema := Function.update w.sema ix
          { alloc := true, seq := ((w.sema ix).seq + 1) % 32768, key := key, sems := List.replicate nsems { semval := 0, semncnt := 0, semzcnt := 0 } }
        semtot := w.semtot + nsems }

-- semctl1 with IPC_RMID, SETVAL and SETALL, once the identifier is found.
def semctlRmid (w : World) (ix : Nat) : World :=
  { w with
    sema := Function.update w.sema ix { w.sema ix with alloc := false }
    semtot := w.semtot - (w.sema ix).sems.length
    semuList := semundoClear ix none w.semuList }

def semctlSetval (c : Seminfo) (w : World) (ix semnum val : Nat) : Except Errno World :=
  if (w.sema ix).sems.length ≤ semnum then .error .einval
  else if c.semvmx < val then .error .erange
  else
    let w := w.setSems ix ((w.sema ix).sems.modify semnum fun s => { s with semval := ushort val })
    .ok { w with semuList := semundoClear ix (some semnum) w.semuList }

-- The values up to the first that copyin or the test refuses are set; `vals` are
-- unsigned shorts.
def setVals (c : Seminfo) : List Sem → List Nat → List Sem
  | s :: sems,v :: vals => if c.semvmx < v then s :: sems else { s with semval := ushort v } :: setVals c sems vals
  | sems,_ => sems

def semctlSetall (c : Seminfo) (w : World) (ix : Nat) (vals : List Nat) : World :=
  let w := w.setSems ix (setVals c (w.sema ix).sems vals)
  { w with semuList := semundoClear ix none w.semuList }

def exitEntry (w : World) (e : Undo) : Except Halt World :=
  if (w.sema e.unId).alloc = false then .error (.panic "semexit - semid not allocated")
  else if (w.sema e.unId).sems.length ≤ e.unNum then .error (.panic "semexit - semnum out of range")
  else
    .ok (w.setSems e.unId ((w.sema e.unId).sems.modify e.unNum fun s =>
      { s with semval := if e.unAdjval < 0 ∧ s.semval < -e.unAdjval then 0 else ushort (s.semval + e.unAdjval) }))

def semexit (w : World) (p : Nat) : Except Halt World :=
  match Keyed.get? SemUndo.unProc p w.semuList with
  | none => .ok w
  | some v => do
    let w ← v.unEnt.foldlM exitEntry w
    return { w with semuList := w.semuList.filter fun v => v.unProc ≠ p }

-- semrealloc, up to where it waits for the sleepers.
def semreallocStart (w : World) : World := { w with semReallocState := true }

-- The rest of it, with nobody left asleep. Where the new sizes are too small it
-- returns without resetting sem_realloc_state.
def semreallocEnd (w : World) (newsemmni newsemmns newsemmnu : Nat) : World :=
  if (∃ ix < w.semmni,newsemmni ≤ ix ∧ (w.sema ix).alloc = true) ∨ newsemmns < w.semtot ∨ newsemmnu < w.semuList.length then w
  else
    { w with
      sema := fun ix => if ix < w.semmni ∧ (w.sema ix).alloc = true then w.sema ix else { alloc := false, seq := 0, key := 0, sems := [] }
      semuList := w.semuList.reverse
      semmni := newsemmni
      semmns := newsemmns
      semmnu := newsemmnu
      semReallocState := false }
end Others
end NetbsdAvr32.Sysvsem
