import NetbsdAvr32.RingBuffer

-- sys_pipe.c with the direct path: a stretch between two releases of pipe_lock is one step, and so is every copy outside it.
namespace NetbsdAvr32.Pipe
open RingBuffer

abbrev Byte := BitVec 8

def PAGE_SIZE : Nat := 4096
def PIPE_SIZE : Nat := 16384
def BIG_PIPE_SIZE : Nat := 4 * PIPE_SIZE
def PIPE_DIRECT_CHUNK : Nat := 1024 * 1024
def PIPE_MINDIRECT : Nat := 8192
def PIPE_BUF : Nat := 512

-- One iovec of a uio that writes, with the bytes its buffer holds.
structure Iovec where
  base : Nat
  bytes : List Byte

def uioData (uio : List Iovec) : List Byte := uio.flatMap Iovec.bytes
def uio_resid (uio : List Iovec) : Nat := (uioData uio).length

def iov_len : List Iovec → Nat
  | [] => 0
  | v :: _ => v.bytes.length

def Iovec.advance (v : Iovec) (n : Nat) : Iovec := ⟨v.base + n,v.bytes.drop n⟩

-- The uio after uiomove of n bytes.
def uiomove : List Iovec → Nat → List Iovec
  | [],_ => []
  | v :: vs,n => if n ≤ v.bytes.length then v.advance n :: vs else uiomove vs (n - v.bytes.length)

-- The uio after a direct write of n bytes of its first iovec.
def uioDirect : List Iovec → Nat → List Iovec
  | [],_ => []
  | v :: vs,n => if (v.advance n).bytes.length = 0 then vs else v.advance n :: vs

def trunc_page (x : Nat) : Nat := x / PAGE_SIZE * PAGE_SIZE
def round_page (x : Nat) : Nat := (x + PAGE_SIZE - 1) / PAGE_SIZE * PAGE_SIZE

-- The locals of pipe_direct_write.
def blen (v : Iovec) : Nat := min (round_page (v.base + v.bytes.length) - trunc_page v.base) PIPE_DIRECT_CHUNK
def bpos (v : Iovec) : Nat := v.base - trunc_page v.base
def bcnt (v : Iovec) : Nat :=
  if round_page (v.base + v.bytes.length) - trunc_page v.base > PIPE_DIRECT_CHUNK then PIPE_DIRECT_CHUNK - bpos v else v.bytes.length
def npages (v : Iovec) : Nat := blen v / PAGE_SIZE

structure Read where
  resid : Nat
  got : List Byte
  nonblock : Bool

structure Write where
  call : Nat
  uio : List Iovec
  nonblock : Bool

inductive Pc where
  | out
  | readWait (r : Read)
  | readCopy (r : Read) (size : Nat)
  | readCopied (r : Read) (bytes : List Byte)
  | readDirect (r : Read) (size va : Nat)
  | readDirected (r : Read) (bytes : List Byte)
  | writeEnter (w : Write)
  | writeWait (w : Write)
  | writeQuit (w : Write)
  | writeCopy (w : Write) (size segsize : Nat)
  | writeCopied (w : Write) (size segsize : Nat)
  | directSetup (w : Write)
  | directLoan (w : Write)
  | directFallback (w : Write)
  | directPublish (w : Write) (bcnt : Nat)
  | directDrain (w : Write) (bcnt : Nat)
  | directOffer (w : Write) (bcnt : Nat)
  | directRelock (w : Write) (bcnt : Nat) (error : Bool)
  | directCleanup (w : Write) (bcnt : Nat) (error : Bool)
  | directFinish (w : Write) (bcnt : Nat) (error : Bool)
  | panicRead
  | panicDirect

-- pipe_map. pgs names the thread whose pages are loaned.
structure Mapping (T : Type) where
  kva : Bool
  npages : Nat
  pgs : Option T
  pos : Nat
  cnt : Nat

-- Below pc stands what has happened: the data and the thread of every write, the bytes that went into the stream with their write,
-- the bytes taken from it, what every read returned, how much every finished write reported,
-- and how much of a thread's window the readers have copied.
structure Pipe (T : Type) where
  lockfl : Bool
  directw : Bool
  directr : Bool
  ring : RingBuffer.Ring Byte
  map : Mapping T
  window : Nat → Byte
  pc : T → Pc
  asked : List (List Byte)
  writers : List T
  sent : List (Nat × Byte)
  taken : List Byte
  returned : List (List Byte)
  accepted : List (Nat × Nat)
  copied : T → Nat

variable {T : Type} [DecidableEq T]

def Pipe.goto (s : Pipe T) (t : T) (p : Pc) : Pipe T := { s with pc := Function.update s.pc t p }

-- pipelock and pipeunlock; who is woken when only decides when a thread is tried again.
def Pipe.lock (s : Pipe T) : Pipe T := { s with lockfl := true }
def Pipe.unlock (s : Pipe T) : Pipe T := { s with lockfl := false }
def finishRead (s : Pipe T) (t : T) (r : Read) : Pipe T := { s.unlock with returned := s.returned ++ [r.got] }.goto t .out
def Read.took (r : Read) (bytes : List Byte) : Read := { r with resid := r.resid - bytes.length, got := r.got ++ bytes }

-- The loop of pipe_read from its head until pipe_lock is released.
def readLoop (s : Pipe T) (t : T) (r : Read) : Pipe T :=
  if r.resid = 0 then finishRead s t r
  else if 0 < s.ring.cnt then s.goto t (.readCopy r (min (min (s.ring.size - s.ring.out) s.ring.cnt) r.resid))
  else if s.directr then
    if s.directw then s.goto t (.readDirect r (min s.map.cnt r.resid) s.map.pos) else s.goto t .panicRead
  else if r.got.length ≠ 0 then finishRead s t r
  else if r.nonblock then finishRead s t r
  else s.unlock.goto t (.readWait r)

def finishWrite (s : Pipe T) (t : T) (w : Write) : Pipe T :=
  { s.unlock with accepted := s.accepted ++ [(w.call,(s.asked.getD w.call []).length - uio_resid w.uio)] }.goto t .out

-- The space a write sees: writes of at most PIPE_BUF bytes are atomic.
def space (s : Pipe T) (resid : Nat) : Nat :=
  if s.ring.size - s.ring.cnt < resid ∧ resid ≤ PIPE_BUF then 0 else s.ring.size - s.ring.cnt

def bufferedWrite (s : Pipe T) (t : T) (w : Write) : Pipe T :=
  if 0 < space s (uio_resid w.uio) then
    s.goto t (.writeCopy w (min (space s (uio_resid w.uio)) (uio_resid w.uio))
      (min (s.ring.size - s.ring.in_) (min (space s (uio_resid w.uio)) (uio_resid w.uio))))
  else if w.nonblock then finishWrite s t w
  else s.unlock.goto t (.writeWait w)

-- The loop of pipe_write from its head. room: amountpipekva < limitpipekva.
def writeLoop (s : Pipe T) (t : T) (w : Write) (room : Bool) : Pipe T :=
  if uio_resid w.uio = 0 then finishWrite s t w
  else if s.directw then s.unlock.goto t (.writeWait w)
  else if PIPE_MINDIRECT ≤ iov_len w.uio ∧ w.nonblock = false ∧ (s.map.kva = true ∨ room = true) then
    if s.map.cnt = 0 then s.goto t (.directSetup w) else s.goto t .panicDirect
  else bufferedWrite s t w

-- big: nbigpipe < maxbigpipes, and pipespace finds the memory.
def resize (s : Pipe T) (w : Write) (big : Bool) : Pipe T :=
  if big = true ∧ PIPE_SIZE < uio_resid w.uio ∧ s.directw = false ∧ s.ring.size ≤ PIPE_SIZE ∧ s.ring.cnt = 0 then
    { s with ring := emptied BIG_PIPE_SIZE fun _ => 0 }
  else s

def log (w : Write) (n : Nat) : List (Nat × Byte) := ((uioData w.uio).take n).map fun b => (w.call,b)

def directTaken (s : Pipe T) (n : Nat) : Pipe T :=
  { s with
    map := { s.map with pos := s.map.pos + n, cnt := s.map.cnt - n }
    directr := if s.map.cnt - n = 0 then false else s.directr
    copied := fun u => if s.map.pgs = some u then s.copied u + n else s.copied u }

def headIovec : List Iovec → Iovec
  | [] => ⟨0,[]⟩
  | v :: _ => v

def kept (s : Pipe T) (w : Write) : Bool := s.map.kva && npages (headIovec w.uio) ≤ s.map.npages

def loanAlloc (s : Pipe T) (w : Write) : Pipe T :=
  if kept s w then s else { s with map := { s.map with kva := true, npages := npages (headIovec w.uio), pgs := none } }

def loanFree (s : Pipe T) : Pipe T := { s with map := { s.map with kva := false, pgs := none } }

-- uvm_loan and pmap_kenter_pa: behind kva stand the pages of the writer, and pos and cnt say where its bytes are.
def loan (s : Pipe T) (t : T) (w : Write) : Pipe T :=
  { s with
    map := { s.map with pgs := some t, pos := bpos (headIovec w.uio), cnt := bcnt (headIovec w.uio) }
    window := fun i => (headIovec w.uio).bytes.getD (i - bpos (headIovec w.uio)) 0
    copied := Function.update s.copied t 0 }

def publish (s : Pipe T) (t : T) (w : Write) (n : Nat) : Pipe T :=
  if s.ring.cnt = 0 then { s.unlock with directw := true, directr := true, sent := s.sent ++ log w n }.goto t (.directOffer w n)
  else { s.unlock with directw := true, sent := s.sent ++ log w n }.goto t (.directDrain w n)

-- The end of the wait: both flags are cleared before the long-term lock is taken.
def withdraw (s : Pipe T) (t : T) (w : Write) (n : Nat) (error : Bool) : Pipe T :=
  if s.lockfl then { s with directw := false, directr := false }.goto t (.directRelock w n error)
  else { s.lock with directw := false, directr := false }.goto t (.directCleanup w n error)

-- What the direct writer takes off its uio.
def deducted (s : Pipe T) (n : Nat) (error : Bool) : Nat :=
  if error then if s.map.cnt = n then 0 else n - s.map.cnt else n

def clearCnt (s : Pipe T) : Pipe T := { s with map := { s.map with cnt := 0 } }

def directEnd (s : Pipe T) (t : T) (w : Write) (n : Nat) (error room : Bool) : Pipe T :=
  if error then
    if s.map.cnt = n then finishWrite (clearCnt s) t w
    else finishWrite (clearCnt s) t { w with uio := uioDirect w.uio (deducted s n error) }
  else writeLoop (clearCnt s) t { w with uio := uioDirect w.uio (deducted s n error) } room

inductive Step (s : Pipe T) (t : T) : Pipe T → Prop where
  | read (resid : Nat) (nonblock : Bool) : s.pc t = .out → Step s t (s.goto t (.readWait ⟨resid,[],nonblock⟩))
  | readLock {r : Read} : s.pc t = .readWait r → s.lockfl = false → Step s t (readLoop s.lock t r)
  | readCopy {r : Read} {size : Nat} : s.pc t = .readCopy r size →
      Step s t (s.goto t (.readCopied r (slice s.ring.buffer s.ring.out size)))
  | readTake {r : Read} {bytes : List Byte} : s.pc t = .readCopied r bytes →
      Step s t (readLoop { s with ring := s.ring.drop bytes.length, taken := s.taken ++ bytes } t (r.took bytes))
  | readDirect {r : Read} {size va : Nat} : s.pc t = .readDirect r size va →
      Step s t (s.goto t (.readDirected r (slice s.window va size)))
  | readDirectTake {r : Read} {bytes : List Byte} : s.pc t = .readDirected r bytes →
      Step s t (readLoop { directTaken s bytes.length with taken := s.taken ++ bytes } t (r.took bytes))
  | write (uio : List Iovec) (nonblock : Bool) : s.pc t = .out →
      Step s t ({ s with asked := s.asked ++ [uioData uio], writers := s.writers ++ [t] }.goto t (.writeEnter ⟨s.asked.length,uio,nonblock⟩))
  | writeLock {w : Write} (big room : Bool) : s.pc t = .writeEnter w → s.lockfl = false →
      Step s t (writeLoop (resize s.lock w big) t w room)
  | writeRelock {w : Write} (room : Bool) : s.pc t = .writeWait w → s.lockfl = false → Step s t (writeLoop s.lock t w room)
  | writeQuit {w : Write} : s.pc t = .writeQuit w → s.lockfl = false → Step s t (finishWrite s.lock t w)
  | writeCopy {w : Write} {size segsize : Nat} : s.pc t = .writeCopy w size segsize →
      Step s t ({ s with ring := s.ring.fill ((uioData w.uio).take size) segsize }.goto t (.writeCopied w size segsize))
  | writePut {w : Write} {size segsize : Nat} (room : Bool) : s.pc t = .writeCopied w size segsize →
      Step s t (writeLoop { s with ring := s.ring.grow size segsize, sent := s.sent ++ log w size } t { w with uio := uiomove w.uio size } room)
  | directAlloc {w : Write} : s.pc t = .directSetup w → Step s t ((loanAlloc s w).goto t (.directLoan w))
  | directNoKva {w : Write} : s.pc t = .directSetup w → kept s w = false → Step s t ((loanFree s).goto t (.directFallback w))
  | directLoan {w : Write} : s.pc t = .directLoan w → Step s t ((loan s t w).goto t (.directPublish w (bcnt (headIovec w.uio))))
  | directNoLoan {w : Write} : s.pc t = .directLoan w → Step s t ((loanFree s).goto t (.directFallback w))
  | directFallback {w : Write} : s.pc t = .directFallback w → Step s t (bufferedWrite s t w)
  | directPublish {w : Write} {n : Nat} : s.pc t = .directPublish w n → Step s t (publish s t w n)
  | directDrain {w : Write} {n : Nat} : s.pc t = .directDrain w n → s.ring.cnt = 0 →
      Step s t ({ s with directr := true }.goto t (.directOffer w n))
  | directDone {w : Write} {n : Nat} : s.pc t = .directOffer w n → s.directr = false → Step s t (withdraw s t w n false)
  | directRelock {w : Write} {n : Nat} {error : Bool} : s.pc t = .directRelock w n error → s.lockfl = false →
      Step s t (s.lock.goto t (.directCleanup w n error))
  -- free: amountpipekva > maxpipekva
  | directCleanup {w : Write} {n : Nat} {error : Bool} (free : Bool) : s.pc t = .directCleanup w n error →
      Step s t ((if error || free then loanFree s else s).goto t (.directFinish w n error))
  | directFinish {w : Write} {n : Nat} {error : Bool} (room : Bool) : s.pc t = .directFinish w n error → Step s t (directEnd s t w n error room)

-- A signal that ends a wait, or a copy that faults.
inductive Fault (s : Pipe T) (t : T) : Pipe T → Prop where
  | readIntr {r : Read} : s.pc t = .readWait r → Fault s t (s.goto t .out)
  | readFault {r : Read} {size : Nat} : s.pc t = .readCopy r size → Fault s t (finishRead s t r)
  | readDirectFault {r : Read} {size va : Nat} : s.pc t = .readDirect r size va → Fault s t (finishRead s t r)
  | writeIntrEnter {w : Write} : s.pc t = .writeEnter w → Fault s t (s.goto t .out)
  | writeIntr {w : Write} : s.pc t = .writeWait w → Fault s t (s.goto t (.writeQuit w))
  | writeFault {w : Write} {size segsize n : Nat} : s.pc t = .writeCopy w size segsize → n ≤ size →
      Fault s t (finishWrite { s with ring := s.ring.fill ((uioData w.uio).take n) segsize } t { w with uio := uiomove w.uio n })
  | drainIntr {w : Write} {n : Nat} : s.pc t = .directDrain w n → Fault s t (withdraw s t w n true)
  | offerIntr {w : Write} {n : Nat} : s.pc t = .directOffer w n → Fault s t (withdraw s t w n true)

def Pipe.init : Pipe T where
  lockfl := false
  directw := false
  directr := false
  ring := emptied PIPE_SIZE fun _ => 0
  map := ⟨false,0,none,0,0⟩
  window _ := 0
  pc _ := .out
  asked := []
  writers := []
  sent := []
  taken := []
  returned := []
  accepted := []
  copied _ := 0

def Pc.holds : Pc → Bool
  | .readCopy .. => true
  | .readCopied .. => true
  | .readDirect .. => true
  | .readDirected .. => true
  | .writeCopy .. => true
  | .writeCopied .. => true
  | .directSetup _ => true
  | .directLoan _ => true
  | .directFallback _ => true
  | .directPublish .. => true
  | .directCleanup .. => true
  | .directFinish .. => true
  | _ => false

def Pc.window : Pc → Bool
  | .directPublish .. => true
  | .directDrain .. => true
  | .directOffer .. => true
  | .directRelock .. => true
  | .directCleanup .. => true
  | .directFinish .. => true
  | _ => false

def Pc.direct : Pc → Bool
  | .directSetup _ => true
  | .directLoan _ => true
  | p => p.window

-- A writer that was interrupted, or is done, and waits for the long-term lock to take its window down.
def Pc.relocks : Pc → Bool
  | .directRelock .. => true
  | _ => false

-- The call of pipe_direct_write, whose first line is KASSERT(pipe_map.cnt == 0).
def Pc.calls : Pc → Bool
  | .directSetup _ => true
  | .panicDirect => true
  | _ => false

def Pc.panics : Pc → Bool
  | .panicRead => true
  | .panicDirect => true
  | _ => false
end NetbsdAvr32.Pipe
