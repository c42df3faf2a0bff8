import NetbsdAvr32.Scatter
import NetbsdAvr32.Sem
import NetbsdAvr32.Slots

-- sys/kern/sysv_msg.c: message queues, the headers and the segments they
-- share, and the calls that send, receive and remove.
namespace NetbsdAvr32.Sysvmsg
open Function Linked Scatter Sysvsem

-- msginit panics unless msgssz is a small power of two and msgseg a short;
-- msg_ts is a u_short.
structure Msginfo where
  msgmni : Nat
  msgmnb : Nat
  msgtql : Nat
  msgssz : Nat
  msgseg : Nat
  power : msgssz ∈ [8,16,32,64,128,256,512,1024]
  index : 0 < msgseg ∧ msgseg ≤ 32767
  hdrs : 0 < msgtql
  fits : msgmnb < 65536

-- sys/sys/msg.h.
def msginfo : Msginfo :=
  { msgmni := 40, msgmnb := 2048, msgtql := 40, msgssz := 8, msgseg := 2048, power := by decide, index := by decide, hdrs := by decide, fits := by decide }

inductive Errno where
  | einval
  | eagain
  | eintr
  | eidrm
  | e2big
  | enomsg
  | eacces
  | eperm
  | efault
  | enospc
  | enoent
  | eexist
  deriving DecidableEq, Repr

-- struct __msg. A NULL link and a msg_spot of -1 are none.
structure Msghdr where
  msgNext : Option Nat
  msgType : Int
  msgTs : Nat
  msgSpot : Option Nat
  deriving DecidableEq, Repr

-- struct msqid_ds. `locked` is MSG_LOCKED; no msgQbytes is a free entry.
structure MsqidDs where
  key : Int
  seq : Nat
  locked : Bool
  msgQnum : Int
  msgQbytes : Nat
  msgFirst : Option Nat
  msgLast : Option Nat
  msgCbytes : Int
  deriving DecidableEq, Repr

structure Msgs where
  nfreeMsgmaps : Int
  freeMsgmaps : Option Nat
  freeMsghdrs : Option Nat
  msgpool : Nat → UInt8
  msgmaps : Nat → Option Nat
  msghdrs : Nat → Msghdr
  msqs : Nat → MsqidDs

def msginit (c : Msginfo) : Msgs where
  nfreeMsgmaps := c.msgseg
  freeMsgmaps := some 0
  freeMsghdrs := some 0
  msgpool _ := 0
  msgmaps i := if i + 1 < c.msgseg then some (i + 1) else none
  msghdrs i := ⟨if i + 1 < c.msgtql then some (i + 1) else none,0,0,some 0⟩
  msqs _ := ⟨0,0,false,0,0,none,none,0⟩

-- The links of the segments and those of the headers, by where they are kept.
def Msgs.segLink (s : Msgs) : Slot (Option Nat) Nat → Option Nat
  | .head none => s.freeMsgmaps
  | .head (some h) => (s.msghdrs h).msgSpot
  | .next p => s.msgmaps p

def Msgs.hdrLink (s : Msgs) : Slot (Option Nat) Nat → Option Nat
  | .head none => s.freeMsghdrs
  | .head (some ix) => (s.msqs ix).msgFirst
  | .next h => (s.msghdrs h).msgNext

def Msgs.setHdr (s : Msgs) (h : Nat) (x : Msghdr) : Msgs := { s with msghdrs := update s.msghdrs h x }
def Msgs.setQueue (s : Msgs) (ix : Nat) (x : MsqidDs) : Msgs := { s with msqs := update s.msqs ix x }

def Msgs.setHdrLink (s : Msgs) (slot : Slot (Option Nat) Nat) (v : Option Nat) : Msgs :=
  match slot with
  | .head none => { s with freeMsghdrs := v }
  | .head (some ix) => s.setQueue ix { s.msqs ix with msgFirst := v }
  | .next h => s.setHdr h { s.msghdrs h with msgNext := v }

def Msgs.lock (s : Msgs) (ix : Nat) (locked : Bool) : Msgs := s.setQueue ix { s.msqs ix with locked := locked }

def freeSegs (c : Msginfo) : Nat → Msgs → Nat → Option Msgs
  | 0, _, _ => none
  | fuel + 1, s, h =>
    if 0 < (s.msghdrs h).msgTs then
      match (s.msghdrs h).msgSpot with
      | none => none
      | some p =>
        if p < c.msgseg then
          let s := { s with msgmaps := update s.msgmaps p s.freeMsgmaps, freeMsgmaps := some p, nfreeMsgmaps := s.nfreeMsgmaps + 1,
                            msghdrs := update s.msghdrs h { s.msghdrs h with msgSpot := s.msgmaps p } }
          freeSegs c fuel (s.setHdr h { s.msghdrs h with msgTs := (s.msghdrs h).msgTs - c.msgssz }) h
        else none
    else some s

def msgFreehdr (c : Msginfo) (s : Msgs) (h : Nat) : Option Msgs :=
  match freeSegs c ((s.msghdrs h).msgTs + 1) s h with
  | none => none
  | some s =>
    if (s.msghdrs h).msgSpot = none then
      some { s.setHdr h { s.msghdrs h with msgNext := s.freeMsghdrs } with freeMsghdrs := some h }
    else none

def takeSegs (c : Msginfo) : Nat → Msgs → Nat → Option Msgs
  | 0, s, _ => some s
  | segsNeeded + 1, s, h =>
    if 0 < s.nfreeMsgmaps then
      match s.freeMsgmaps with
      | none => none
      | some next =>
        if next < c.msgseg then
          takeSegs c segsNeeded { s with freeMsgmaps := s.msgmaps next, nfreeMsgmaps := s.nfreeMsgmaps - 1,
                                         msgmaps := update s.msgmaps next (s.msghdrs h).msgSpot,
                                         msghdrs := update s.msghdrs h { s.msghdrs h with msgSpot := some next } } h
        else none
    else none

-- What the process hands over: its text is the msgsz bytes behind the type.
structure Send where
  msqidr : Int
  msgType : Int
  text : List UInt8
  nowait : Bool
  deriving DecidableEq, Repr

structure Recv where
  msqidr : Int
  msgsz : Nat
  msgtyp : Int
  nowait : Bool
  noerror : Bool
  range : -2147483648 ≤ msgtyp ∧ msgtyp ≤ 2147483647
  deriving DecidableEq

-- Where a process is that has dropped msgmutex in a call: asleep, or at a copy
-- from or to its memory. `rest` is what is still to be copied in and `got` what
-- has been copied out.
inductive Call where
  | idle
  | sndWait (a : Send) (weOwnIt woken : Bool)
  | sndType (a : Send) (msghdr : Nat)
  | sndText (a : Send) (msghdr : Nat) (rest : List UInt8) (next : Nat)
  | rcvWait (a : Recv) (woken : Bool)
  | rcvType (a : Recv) (msghdr msgsz : Nat)
  | rcvText (a : Recv) (msghdr msgsz len : Nat) (got : List UInt8) (next : Nat)
  deriving DecidableEq

structure World where
  msgs : Msgs
  threads : Nat → Call

inductive Reply where
  | goesOn
  | fails (e : Errno)
  | done
  | made (id : Int)
  | sent
  | received (msgType : Int) (text : List UInt8)
  deriving DecidableEq, Repr

-- cv_broadcast on msq_cv.
def Call.wake (ix : Nat) : Call → Call
  | .sndWait a weOwnIt woken => .sndWait a weOwnIt (woken || decide (ipcidToIx a.msqidr = ix))
  | .rcvWait a woken => .rcvWait a (woken || decide (ipcidToIx a.msqidr = ix))
  | call => call

def World.broadcast (w : World) (ix : Nat) : World := { w with threads := fun t => (w.threads t).wake ix }
def World.goes (w : World) (t : Nat) (call : Call) : World := { w with threads := update w.threads t call }
def World.put (w : World) (s : Msgs) : World := { w with msgs := s }
def segsNeeded (c : Msginfo) (msgsz : Nat) : Nat := (msgsz + c.msgssz - 1) / c.msgssz

-- need_more_resources, but for the lock.
def shortOf (c : Msginfo) (s : Msgs) (ix msgsz : Nat) : Prop :=
  ((s.msqs ix).msgQbytes : Int) < msgsz + (s.msqs ix).msgCbytes ∨ s.nfreeMsgmaps < segsNeeded c msgsz ∨ s.freeMsghdrs = none

instance (c : Msginfo) (s : Msgs) (ix msgsz : Nat) : Decidable (shortOf c s ix msgsz) := inferInstanceAs (Decidable (_ ∨ _ ∨ _))

-- A message header and its segments for the sender that has got the resources.
def msgAlloc (c : Msginfo) (s : Msgs) (ix msgsz : Nat) : Option (Msgs × Nat) :=
  match s.freeMsghdrs with
  | none => none
  | some h =>
    let s := { s.lock ix true with freeMsghdrs := (s.msghdrs h).msgNext }
    match takeSegs c (segsNeeded c msgsz) (s.setHdr h { s.msghdrs h with msgSpot := none, msgTs := msgsz % 65536 }) h with
    | none => none
    | some s => some (s,h)

-- One round of the for loop of msgsnd1, up to where it sleeps or copies the
-- type in.
def msgsndTry (c : Msginfo) (w : World) (t : Nat) (a : Send) : Option (World × Reply) :=
  let ix := ipcidToIx a.msqidr
  let msqptr := w.msgs.msqs ix
  if msqptr.msgQbytes < a.text.length then some (w.goes t .idle,.fails .einval)
  else if msqptr.locked = true ∨ shortOf c w.msgs ix a.text.length then
    if a.nowait then some (w.goes t .idle,.fails .eagain)
    else if msqptr.locked then some (w.goes t (.sndWait a false false),.goesOn)
    else some ((w.put (w.msgs.lock ix true)).goes t (.sndWait a true false),.goesOn)
  else match msgAlloc c w.msgs ix a.text.length with
    | none => none
    | some (s,h) => some ((w.put s).goes t (.sndType a h),.goesOn)

def msgsnd1 (c : Msginfo) (w : World) (granted : Bool) (t : Nat) (a : Send) : Option (World × Reply) :=
  let ix := ipcidToIx a.msqidr
  if c.msgmni ≤ ix then some (w,.fails .einval)
  else if (w.msgs.msqs ix).msgQbytes = 0 then some (w,.fails .einval)
  else if (w.msgs.msqs ix).seq ≠ ipcidToSeq a.msqidr then some (w,.fails .einval)
  else if granted = false then some (w,.fails .eacces)
  else msgsndTry c w t a

def msgsndWake (c : Msginfo) (w : World) (t : Nat) (a : Send) (weOwnIt signal : Bool) : Option (World × Reply) :=
  let ix := ipcidToIx a.msqidr
  let w := if weOwnIt then w.put (w.msgs.lock ix false) else w
  if signal then some (w.goes t .idle,.fails .eintr)
  else if (w.msgs.msqs ix).msgQbytes = 0 then some (w.goes t .idle,.fails .eidrm)
  else msgsndTry c w t a

def msgsndFail (c : Msginfo) (w : World) (t : Nat) (a : Send) (h : Nat) (e : Errno) : Option (World × Reply) :=
  let ix := ipcidToIx a.msqidr
  match msgFreehdr c w.msgs h with
  | none => none
  | some s => some (((w.put (s.lock ix false)).broadcast ix).goes t .idle,.fails e)

def msgLink (s : Msgs) (ix h : Nat) : Option Msgs :=
  match (s.msqs ix).msgFirst, (s.msqs ix).msgLast with
  | none, _ => some (s.setQueue ix { s.msqs ix with msgFirst := some h, msgLast := some h })
  | some _, some last => some ((s.setHdr last { s.msghdrs last with msgNext := some h }).setQueue ix { s.msqs ix with msgLast := some h })
  | some _, none => none

def msgPut (s : Msgs) (ix h : Nat) : Option Msgs :=
  match msgLink s ix h with
  | none => none
  | some s =>
    let s := s.setHdr h { s.msghdrs h with msgNext := none }
    some (s.setQueue ix { s.msqs ix with msgCbytes := (s.msqs ix).msgCbytes + (s.msghdrs h).msgTs, msgQnum := (s.msqs ix).msgQnum + 1 })

def msgsndFinish (c : Msginfo) (w : World) (t : Nat) (a : Send) (h : Nat) : Option (World × Reply) :=
  let ix := ipcidToIx a.msqidr
  if (w.msgs.msqs ix).msgQbytes = 0 then msgsndFail c w t a h .eidrm
  else match msgPut (w.msgs.lock ix false) ix h with
    | none => none
    | some s => some (((w.put s).broadcast ix).goes t .idle,.sent)

def msgsndText (c : Msginfo) (w : World) (t : Nat) (a : Send) (h : Nat) (rest : List UInt8) (next : Option Nat) : Option (World × Reply) :=
  if rest = [] then if next = none then msgsndFinish c w t a h else none
  else match next with
    | none => none
    | some p => if p < c.msgseg then some (w.goes t (.sndText a h rest p),.goesOn) else none

def msgsndTyped (c : Msginfo) (w : World) (t : Nat) (a : Send) (h : Nat) (stop : Option Nat) : Option (World × Reply) :=
  match stop with
  | some _ => msgsndFail c w t a h .efault
  | none =>
    let s := w.msgs.setHdr h { w.msgs.msghdrs h with msgType := a.msgType }
    if a.msgType < 1 then msgsndFail c (w.put s) t a h .einval
    else msgsndText c (w.put s) t a h a.text (s.msghdrs h).msgSpot

def msgsndCopied (c : Msginfo) (w : World) (t : Nat) (a : Send) (h : Nat) (rest : List UInt8) (next : Nat) (stop : Option Nat) : Option (World × Reply) :=
  let tlen := if c.msgssz < rest.length then c.msgssz else rest.length
  match stop with
  | some n => msgsndFail c (w.put { w.msgs with msgpool := poke w.msgs.msgpool (next * c.msgssz) ((rest.take tlen).take n) }) t a h .efault
  | none =>
    let s := { w.msgs with msgpool := poke w.msgs.msgpool (next * c.msgssz) (rest.take tlen) }
    msgsndText c (w.put s) t a h (rest.drop tlen) (s.msgmaps next)

def negLong (x : Int) : Int := if x = -2147483648 then x else -x

inductive Found where
  | nothing
  | tooBig
  | taken (h : Nat) (s : Msgs)

def takeFirst (s : Msgs) (ix : Nat) (a : Recv) : Option Found :=
  match (s.msqs ix).msgFirst with
  | none => some .nothing
  | some h =>
    if a.msgsz < (s.msghdrs h).msgTs ∧ a.noerror = false then some .tooBig
    else if (s.msqs ix).msgFirst = (s.msqs ix).msgLast then some (.taken h (s.setQueue ix { s.msqs ix with msgFirst := none, msgLast := none }))
    else if (s.msghdrs h).msgNext = none then none
    else some (.taken h (s.setQueue ix { s.msqs ix with msgFirst := (s.msghdrs h).msgNext }))

def prevSlot (ix : Nat) : Option Nat → Slot (Option Nat) Nat
  | none => .head (some ix)
  | some previous => .next previous

def takeTyped (s : Msgs) (ix : Nat) (a : Recv) : Nat → Option Nat → Option Found
  | 0, _ => none
  | fuel + 1, previous =>
    match s.hdrLink (prevSlot ix previous) with
    | none => some .nothing
    | some h =>
      if a.msgtyp ≠ (s.msghdrs h).msgType ∧ negLong a.msgtyp < (s.msghdrs h).msgType then takeTyped s ix a fuel (some h)
      else if a.msgsz < (s.msghdrs h).msgTs ∧ a.noerror = false then some .tooBig
      else
        let s := s.setHdrLink (prevSlot ix previous) (s.msghdrs h).msgNext
        if some h ≠ (s.msqs ix).msgLast then some (.taken h s)
        else match previous with
          | none => some (.taken h (s.setQueue ix { s.msqs ix with msgFirst := none, msgLast := none }))
          | some previous => some (.taken h (s.setQueue ix { s.msqs ix with msgLast := some previous }))

def msgTake (c : Msginfo) (s : Msgs) (ix : Nat) (a : Recv) : Option Found :=
  if a.msgtyp = 0 then takeFirst s ix a else takeTyped s ix a (c.msgtql + 1) none

-- One round of the while loop of msgrcv1, up to where it sleeps or copies the
-- type out.
def msgrcvTry (c : Msginfo) (w : World) (t : Nat) (a : Recv) : Option (World × Reply) :=
  let ix := ipcidToIx a.msqidr
  match msgTake c w.msgs ix a with
  | none => none
  | some .tooBig => some (w.goes t .idle,.fails .e2big)
  | some .nothing => if a.nowait then some (w.goes t .idle,.fails .enomsg) else some (w.goes t (.rcvWait a false),.goesOn)
  | some (.taken h s) =>
    let ts := (s.msghdrs h).msgTs
    let s := s.setQueue ix { s.msqs ix with msgCbytes := (s.msqs ix).msgCbytes - ts, msgQnum := (s.msqs ix).msgQnum - 1 }
    some ((w.put s).goes t (.rcvType a h (if ts < a.msgsz then ts else a.msgsz)),.goesOn)

def msgrcv1 (c : Msginfo) (w : World) (granted : Bool) (t : Nat) (a : Recv) : Option (World × Reply) :=
  let ix := ipcidToIx a.msqidr
  if c.msgmni ≤ ix then some (w,.fails .einval)
  else if (w.msgs.msqs ix).msgQbytes = 0 then some (w,.fails .einval)
  else if (w.msgs.msqs ix).seq ≠ ipcidToSeq a.msqidr then some (w,.fails .einval)
  else if granted = false then some (w,.fails .eacces)
  else msgrcvTry c w t a

def msgrcvWake (c : Msginfo) (w : World) (t : Nat) (a : Recv) (signal : Bool) : Option (World × Reply) :=
  let ix := ipcidToIx a.msqidr
  if signal then some (w.goes t .idle,.fails .eintr)
  else if (w.msgs.msqs ix).msgQbytes = 0 ∨ (w.msgs.msqs ix).seq ≠ ipcidToSeq a.msqidr then some (w.goes t .idle,.fails .eidrm)
  else msgrcvTry c w t a

def msgrcvFinish (c : Msginfo) (w : World) (t : Nat) (a : Recv) (h : Nat) (r : Reply) : Option (World × Reply) :=
  match msgFreehdr c w.msgs h with
  | none => none
  | some s => some (((w.put s).broadcast (ipcidToIx a.msqidr)).goes t .idle,r)

def msgrcvText (c : Msginfo) (w : World) (t : Nat) (a : Recv) (h msgsz len : Nat) (got : List UInt8) (next : Option Nat) : Option (World × Reply) :=
  if len < msgsz then
    match next with
    | none => none
    | some p => if p < c.msgseg then some (w.goes t (.rcvText a h msgsz len got p),.goesOn) else none
  else msgrcvFinish c w t a h (.received (w.msgs.msghdrs h).msgType got)

def msgrcvTyped (c : Msginfo) (w : World) (t : Nat) (a : Recv) (h msgsz : Nat) (stop : Option Nat) : Option (World × Reply) :=
  match stop with
  | some _ => msgrcvFinish c w t a h (.fails .efault)
  | none => msgrcvText c w t a h msgsz 0 [] (w.msgs.msghdrs h).msgSpot

def msgrcvCopied (c : Msginfo) (w : World) (t : Nat) (a : Recv) (h msgsz len : Nat) (got : List UInt8) (next : Nat) (stop : Option Nat) : Option (World × Reply) :=
  match stop with
  | some _ => msgrcvFinish c w t a h (.fails .efault)
  | none =>
    let tlen := if c.msgssz < msgsz - len then c.msgssz else msgsz - len
    let segment := (List.range tlen).map fun i => w.msgs.msgpool (next * c.msgssz + i)
    msgrcvText c w t a h msgsz (len + c.msgssz) (got ++ segment) (w.msgs.msgmaps next)

def rmidLoop (c : Msginfo) (ix : Nat) : Nat → Msgs → Option Nat → Option Msgs
  | 0, _, _ => none
  | _, s, none => some s
  | fuel + 1, s, some h =>
    let s' := s.setQueue ix { s.msqs ix with msgCbytes := (s.msqs ix).msgCbytes - (s.msghdrs h).msgTs, msgQnum := (s.msqs ix).msgQnum - 1 }
    match msgFreehdr c s' h with
    | none => none
    | some s'' => rmidLoop c ix fuel s'' (s.msghdrs h).msgNext

-- `qbytes` comes with IPC_SET, and whether the caller is the superuser.
inductive Cmd where
  | rmid
  | set (qbytes : Nat) (super : Bool)
  deriving DecidableEq, Repr

def msgctl1 (c : Msginfo) (w : World) (granted : Bool) (msqid : Int) (cmd : Cmd) : Option (World × Reply) :=
  let ix := ipcidToIx msqid
  if c.msgmni ≤ ix then some (w,.fails .einval)
  else if (w.msgs.msqs ix).msgQbytes = 0 then some (w,.fails .einval)
  else if (w.msgs.msqs ix).seq ≠ ipcidToSeq msqid then some (w,.fails .einval)
  else if granted = false then some (w,.fails .eacces)
  else match cmd with
    | .rmid =>
      match rmidLoop c ix (c.msgtql + 1) w.msgs (w.msgs.msqs ix).msgFirst with
      | none => none
      | some s =>
        if (s.msqs ix).msgCbytes = 0 ∧ (s.msqs ix).msgQnum = 0 then
          some ((w.put (s.setQueue ix { s.msqs ix with msgQbytes := 0 })).broadcast ix,.done)
        else none
    | .set qbytes super =>
      if (w.msgs.msqs ix).msgQbytes < qbytes ∧ super = false then some (w,.fails .eperm)
      else
        let qbytes := if c.msgmnb < qbytes then c.msgmnb else qbytes
        if qbytes = 0 then some (w,.fails .einval)
        else some (w.put (w.msgs.setQueue ix { w.msgs.msqs ix with msgQbytes := qbytes }),.done)

-- IXSEQ_TO_IPCID in an int.
def msqidOf (ix seq : Nat) : Int := (ixseqToIpcid ix seq + 2147483648) % 4294967296 - 2147483648

-- IPC_PRIVATE is 0.
def sysMsgget (c : Msginfo) (w : World) (granted : Bool) (key : Int) (creat excl : Bool) : World × Reply :=
  let mine := if key = 0 then none
    else (List.range c.msgmni).find? fun ix => (w.msgs.msqs ix).msgQbytes ≠ 0 ∧ (w.msgs.msqs ix).key = key
  match mine with
  | some ix =>
    if creat = true ∧ excl = true then (w,.fails .eexist)
    else if granted = false then (w,.fails .eacces)
    else (w,.made (msqidOf ix (w.msgs.msqs ix).seq))
  | none =>
    if key = 0 ∨ creat = true then
      match (List.range c.msgmni).find? fun ix => (w.msgs.msqs ix).msgQbytes = 0 ∧ (w.msgs.msqs ix).locked = false with
      | none => (w,.fails .enospc)
      | some ix =>
        let msqptr : MsqidDs := ⟨key,((w.msgs.msqs ix).seq + 1) % 65536,false,0,c.msgmnb,none,none,0⟩
        (w.put (w.msgs.setQueue ix msqptr),.made (msqidOf ix msqptr.seq))
    else (w,.fails .enoent)

-- A stretch under msgmutex. `stop` is how far a copy came that failed.
inductive Event where
  | msgget (granted : Bool) (key : Int) (creat excl : Bool)
  | msgctl (granted : Bool) (msqid : Int) (cmd : Cmd)
  | msgsnd (granted : Bool) (t : Nat) (a : Send)
  | msgrcv (granted : Bool) (t : Nat) (a : Recv)
  | resume (t : Nat) (signal : Bool)
  | copy (t : Nat) (stop : Option Nat)
  deriving DecidableEq

-- A thread makes one call at a time, and cv_wait_sig returns when the thread
-- has been woken or has caught a signal.
def Ready (w : World) : Event → Bool
  | .msgget .. => true
  | .msgctl .. => true
  | .msgsnd _ t _ => w.threads t = .idle
  | .msgrcv _ t _ => w.threads t = .idle
  | .resume t signal => match w.threads t with
    | .sndWait _ _ woken => woken || signal
    | .rcvWait _ woken => woken || signal
    | _ => false
  | .copy t _ => match w.threads t with
    | .sndType .. => true
    | .sndText .. => true
    | .rcvType .. => true
    | .rcvText .. => true
    | _ => false

-- none is a KASSERT that fails, or a NULL pointer that is followed.
def perform (c : Msginfo) (w : World) : Event → Option (World × Reply)
  | .msgget granted key creat excl => some (sysMsgget c w granted key creat excl)
  | .msgctl granted msqid cmd => msgctl1 c w granted msqid cmd
  | .msgsnd granted t a => msgsnd1 c w granted t a
  | .msgrcv granted t a => msgrcv1 c w granted t a
  | .resume t signal => match w.threads t with
    | .sndWait a weOwnIt _ => msgsndWake c w t a weOwnIt signal
    | .rcvWait a _ => msgrcvWake c w t a signal
    | _ => some (w,.goesOn)
  | .copy t stop => match w.threads t with
    | .sndType a h => msgsndTyped c w t a h stop
    | .sndText a h rest next => msgsndCopied c w t a h rest next stop
    | .rcvType a h msgsz => msgrcvTyped c w t a h msgsz stop
    | .rcvText a h msgsz len got next => msgrcvCopied c w t a h msgsz len got next stop
    | _ => some (w,.goesOn)

def boot (c : Msginfo) : World := ⟨msginit c,fun _ => .idle⟩
def Step (c : Msginfo) (w : World) (event : Event) (r : Reply) (w' : World) : Prop := Ready w event = true ∧ perform c w event = some (w',r)

inductive Reached (c : Msginfo) : World → Prop where
  | boot : Reached c (boot c)
  | step {w w' : World} {event : Event} {r : Reply} (reached : Reached c w) (step : Step c w event r w') : Reached c w'
end NetbsdAvr32.Sysvmsg
