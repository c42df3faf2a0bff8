import NetbsdAvr32.TcpReass
import NetbsdAvr32.TcpSack

-- sys/netinet/tcp_input.c: a segment for a connection in a synchronized state, with the
-- parts of tcp_sack.c and tcp_congctl.c that the ACK goes through.
namespace NetbsdAvr32.TcpInput
open Serial TcpSack TcpReass

abbrev ULong := BitVec 32
def umin (a b : ULong) : ULong := if a ≤ b then a else b

-- The values of t_state from TCPS_ESTABLISHED on.
inductive TState where
  | established
  | closeWait
  | finWait1
  | closing
  | lastAck
  | finWait2
  | timeWait
  deriving DecidableEq, Repr

def TState.haveRcvdFin : TState → Bool
  | .closeWait | .closing | .lastAck | .timeWait => true
  | _ => false

-- struct tcpcb, with the fields of struct socket that are kept with it. `sack` and `reass` hold
-- those of the scoreboard, with snd_una, snd_max and snd_fack, and of the queue, with rcv_nxt.
structure Conn where
  tState : TState
  sack : TcpSack.Tcpcb
  reass : Reass
  ackNow : Bool
  delAck : Bool
  ecnPermit : Bool
  ecnSndCwr : Bool
  ecnSndEce : Bool
  sndNxt : Seq
  sndWl1 : Seq
  sndWl2 : Seq
  sndRecover : Seq
  sndHigh : Seq
  sackNewdata : Seq
  sndWnd : ULong
  sndCwnd : ULong
  sndSsthresh : ULong
  maxSndwnd : ULong
  sndCc : ULong
  tBytesAcked : ULong
  tSegsz : ULong
  sndScale : Nat
  tDupacks : Int
  tPartialacks : Int
  newreno : Bool
  rexmt : Bool
  persist : Bool
  rcvWnd : Seq
  rcvUp : Seq
  rcvAdv : Seq
  tsRecent : ULong
  tsRecentAge : ULong
  lastAckSent : Seq
  oobmark : ULong
  iobc : Option UInt8
  deriving DecidableEq, Repr

structure Flags where
  fin : Bool
  syn : Bool
  rst : Bool
  push : Bool
  ack : Bool
  urg : Bool
  ece : Bool
  cwr : Bool
  deriving DecidableEq, Repr

-- A segment whose checksum and options were found right: `tiwin` is the window it offers, and
-- `ce` is the mark of the IP header.
structure Segment where
  thSeq : Seq
  thAck : Seq
  flags : Flags
  tiwin : ULong
  urp : BitVec 16
  data : List UInt8
  ts : Option (ULong × ULong)
  sackOptions : List ((Nat → BitVec 8) × Nat)
  ce : Bool

-- What tcp_input finds at the moment: the space and the bytes in so_rcv, tcp_now, what
-- ppsratecheck and tcpipqent_alloc answer, SS_NOFDREF and SO_OOBINLINE.
structure Env where
  rcvSpace : Int
  rcvCc : Nat
  now : ULong
  ratecheck : Bool
  got : Option Nat
  noFdRef : Bool
  oobInline : Bool

-- The variables of sysctl and the constants.
structure Config where
  lim : Limits
  rexmtthresh : Nat
  doAbc : Bool
  abcAggressive : Bool
  ackOnPush : Bool
  sbMax : Nat
  pawsIdle : ULong

-- The connection after the segment, with what is left to do: tcp_output is called, or not. Or the
-- connection as tcp_close or tcp_drop gets it.
inductive Verdict where
  | ret (c : Conn) (output : Bool)
  | closed (c : Conn)
  deriving DecidableEq

-- The locals: th with th_seq and th_urp as they change, tiflags, tlen and the bytes of m.
structure Work where
  c : Conn
  th : Segment
  ti : Flags
  tlen : Nat
  data : List UInt8
  dupseg : Bool
  needoutput : Bool

abbrev Conn.sndUna (c : Conn) : Seq := c.sack.sndUna
abbrev Conn.sndMax (c : Conn) : Seq := c.sack.sndMax
abbrev Conn.sndFack (c : Conn) : Seq := c.sack.sndFack
abbrev Conn.rcvNxt (c : Conn) : Seq := c.reass.rcvNxt
def Segment.hdr (th : Segment) : Tcphdr := ⟨th.thAck,th.flags.ack⟩

-- tcp_dooptions: after a SYN only TCPOPT_SACK changes the connection.
def tcpDooptions (k : Config) (c : Conn) (th : Segment) : Except Halt Conn := do
  let sack ← th.sackOptions.foldlM (fun sack (cp,optlen) => tcpSackOption k.lim sack th.hdr cp optlen) c.sack
  .ok {c with sack := sack}

def delSackholes (c : Conn) (th : Segment) : Conn := if c.sack.sackEnabled then {c with sack := tcpDelSackholes c.sack th.hdr} else c

-- Half of the window, in whole segments and not less than two.
def halfWindow (c : Conn) : ULong :=
  let win := umin c.sndWnd c.sndCwnd / 2 / c.tSegsz
  (if win < 2 then 2 else win) * c.tSegsz

def congExp (c : Conn) : Conn :=
  {c with sndSsthresh := halfWindow c,sndRecover := c.sndMax,sndCwnd := halfWindow c,ecnSndCwr := c.ecnSndCwr || c.ecnPermit}

-- CE and CWR, that the other end set.
def ecnMarks (c : Conn) (th : Segment) : Conn :=
  let c := if th.ce then {c with ecnSndEce := true} else c
  if th.flags.cwr then {c with ecnSndEce := false} else c

def ecn (c : Conn) (th : Segment) : Conn :=
  if c.ecnPermit then
    if th.flags.ece && seqGeq c.sndUna c.sndRecover then congExp (ecnMarks c th) else ecnMarks c th
  else c

def setupAck (k : Config) (c : Conn) (th : Segment) : Conn :=
  if c.delAck || (k.ackOnPush && th.flags.push) then {c with ackNow := true} else {c with delAck := true}

def sbappendstream (r : Reass) (data : List UInt8) : Reass := if r.cantRcvMore then r else {r with soRcv := r.soRcv ++ data}

-- TSTMP_GEQ(opti.ts_val, tp->ts_recent), where there is a timestamp.
def tsGeq (c : Conn) (th : Segment) : Bool := th.ts.all fun ts => seqGeq ts.1 c.tsRecent

def predicted (c : Conn) (th : Segment) : Bool :=
  c.tState = .established && (!th.flags.syn && !th.flags.fin && !th.flags.rst && !th.flags.urg && !th.flags.ece && !th.flags.cwr && th.flags.ack) &&
    tsGeq c th && th.thSeq = c.rcvNxt && th.tiwin ≠ 0 && th.tiwin = c.sndWnd && c.sndNxt = c.sndMax

def recordTs (env : Env) (c : Conn) (ts : ULong) : Conn := {c with tsRecentAge := env.now,tsRecent := ts}

def predictedTs (env : Env) (c : Conn) (th : Segment) : Conn :=
  match th.ts with
  | some ts => if seqLeq th.thSeq c.lastAckSent then recordTs env c ts.1 else c
  | none => c

-- A pure ack for outstanding data.
def predictAck (c : Conn) (th : Segment) : Option Verdict :=
  if seqGt th.thAck c.sndUna && seqLeq th.thAck c.sndMax && c.sndWnd ≤ c.sndCwnd && c.tPartialacks < 0 then
    let acked := th.thAck - c.sndUna
    let sndHigh := if seqLt c.sndHigh th.thAck then th.thAck else c.sndHigh
    let rexmt := if th.thAck = c.sndMax then false else c.rexmt || !c.persist
    let c := {c with sndCc := c.sndCc - acked,sack := {c.sack with sndUna := th.thAck,sndFack := th.thAck},sndHigh := sndHigh,rexmt := rexmt}
    some (.ret c (c.sndCc ≠ 0))
  else none

-- A pure, in-sequence data packet with nothing on the reassembly queue.
def predictData (k : Config) (env : Env) (c : Conn) (th : Segment) : Option Verdict :=
  if th.thAck = c.sndUna && c.reass.segq.isEmpty && th.data.length ≤ env.rcvSpace then
    let c := {c with reass := sbappendstream {c.reass with rcvNxt := c.rcvNxt + BitVec.ofNat 32 th.data.length} th.data}
    let c := setupAck k c th
    some (.ret c c.ackNow)
  else none

def predict (k : Config) (env : Env) (c : Conn) (th : Segment) : Conn × Option Verdict :=
  if predicted c th then
    let c := predictedTs env c th
    (c,if th.data.isEmpty then predictAck c th else predictData k env c th)
  else (c,none)

def dropafterack (w : Work) : Verdict := if w.ti.rst then .ret w.c false else .ret {w.c with ackNow := true} true
def dropafterackRatelim (env : Env) (w : Work) : Verdict := if env.ratecheck then .ret {w.c with ackNow := true} true else .ret w.c false

def window (env : Env) (c : Conn) : Conn := {c with rcvWnd := BitVec.ofInt 32 (max (max env.rcvSpace 0) (diff c.rcvAdv c.rcvNxt))}

def paws (k : Config) (env : Env) (w : Work) : Except Verdict Work :=
  match w.th.ts with
  | none => .ok w
  | some ts =>
    if !w.ti.rst && w.c.tsRecent ≠ 0 && seqLt ts.1 w.c.tsRecent then
      if env.now - w.c.tsRecentAge > k.pawsIdle then .ok {w with c := {w.c with tsRecent := 0}} else .error (dropafterack w)
    else .ok w

def dropHead (w : Work) (todrop : Nat) : Work :=
  let th := {w.th with thSeq := w.th.thSeq + BitVec.ofNat 32 todrop}
  let w := {w with tlen := w.tlen - todrop,data := w.data.drop todrop}
  if w.th.urp.toNat > todrop then {w with th := {th with urp := th.urp - BitVec.ofNat 16 todrop}}
  else {w with th := {th with urp := 0},ti := {w.ti with urg := false}}

def dropSyn (w : Work) : Work :=
  let th := {w.th with thSeq := w.th.thSeq + 1}
  let ti := {w.ti with syn := false}
  if w.th.urp.toNat > 1 then {w with th := {th with urp := th.urp - 1},ti := ti} else {w with th := {th with urp := 0},ti := {ti with urg := false}}

-- The todrop bytes before rcv_nxt, of which a segment may have fewer.
def trimDup (env : Env) (w : Work) (todrop : Int) : Except Verdict Work :=
  if todrop > w.tlen || (todrop = w.tlen && !w.ti.fin) then
    if w.ti.rst then .error (.ret w.c false)
    else .ok (dropHead {w with c := {w.c with ackNow := true},ti := {w.ti with fin := false,rst := false},dupseg := true} w.tlen)
  else if w.ti.rst && w.th.thSeq ≠ w.c.rcvNxt then .error (dropafterackRatelim env w)
  else .ok (dropHead w todrop.toNat)

def trimHead (env : Env) (w : Work) : Except Verdict Work :=
  let todrop := diff w.c.rcvNxt w.th.thSeq
  if todrop > 0 then
    if w.ti.syn then trimDup env (dropSyn w) (todrop - 1) else trimDup env w todrop
  else .ok w

def afterClose (env : Env) (w : Work) : Except Verdict Work :=
  if env.noFdRef && w.c.tState ≠ .established && w.c.tState ≠ .closeWait && w.tlen ≠ 0 then .error (.closed w.c) else .ok w

def dropTail (w : Work) (todrop : Nat) : Work :=
  {w with tlen := w.tlen - todrop,data := w.data.take (w.data.length - todrop),ti := {w.ti with push := false,fin := false}}

def trimWindow (w : Work) : Except Verdict Work :=
  let todrop := diff (w.th.thSeq + BitVec.ofNat 32 w.tlen) (w.c.rcvNxt + w.c.rcvWnd)
  if todrop > 0 then
    if todrop ≥ w.tlen then
      if w.ti.syn && w.c.tState = .timeWait && seqGt w.th.thSeq w.c.rcvNxt then .error (.closed w.c)
      else if w.c.rcvWnd = 0 && w.th.thSeq = w.c.rcvNxt then .ok (dropTail {w with c := {w.c with ackNow := true}} todrop.toNat)
      else .error (dropafterack w)
    else .ok (dropTail w todrop.toNat)
  else .ok w

def Work.stop (w : Work) : Seq := w.th.thSeq + BitVec.ofNat 32 (w.tlen + if w.ti.syn || w.ti.fin then 1 else 0)

def stamp (env : Env) (w : Work) : Work :=
  match w.th.ts with
  | none => w
  | some ts => if seqLeq w.th.thSeq w.c.lastAckSent && seqLeq w.c.lastAckSent w.stop then {w with c := recordTs env w.c ts.1} else w

def control (env : Env) (w : Work) : Except Verdict Work :=
  if w.ti.rst then
    if w.th.thSeq ≠ w.c.rcvNxt then .error (dropafterackRatelim env w) else .error (.closed w.c)
  else if w.ti.syn then
    if w.c.rcvNxt = w.th.thSeq then .error (.ret w.c false) else .error (dropafterackRatelim env w)
  else if !w.ti.ack then
    if w.c.ackNow then .error (dropafterack w) else .error (.ret w.c false)
  else .ok w

def renoFastRetransmit (k : Config) (out : Conn → Conn) (c : Conn) (th : Segment) : Conn :=
  let onxt := c.sndNxt
  let c := {congExp c with tPartialacks := 0,rexmt := false}
  if c.sack.sackEnabled then out {c with tDupacks := k.rexmtthresh,sackNewdata := c.sndNxt,sndCwnd := c.tSegsz}
  else
    let c := out {c with sndNxt := th.thAck,sndCwnd := c.tSegsz}
    let c := {c with sndCwnd := c.sndSsthresh + c.tSegsz * BitVec.ofInt 32 c.tDupacks}
    if seqGt onxt c.sndNxt then {c with sndNxt := onxt} else c

-- The fast_retransmit of the algorithm, and whether it was a false one.
def fastRetransmit (k : Config) (out : Conn → Conn) (c : Conn) (th : Segment) : Conn × Bool :=
  if c.newreno && seqLt th.thAck c.sndHigh then ({c with tDupacks := 0},true) else (renoFastRetransmit k out c th,false)

def fackFastrecov (k : Config) (c : Conn) : Bool := c.sack.sackEnabled && seqGt c.sndFack (c.sndUna + BitVec.ofNat 32 k.rexmtthresh * c.tSegsz)
def countDup (c : Conn) : Conn := if c.tPartialacks < 0 then {c with tDupacks := c.tDupacks + 1} else c

-- A completely duplicate ACK, after it was counted.
def answerDup (k : Config) (out : Conn → Conn) (w : Work) : Except Verdict Work :=
  if w.c.tPartialacks < 0 && (w.c.tDupacks = k.rexmtthresh || fackFastrecov k w.c) then
    let (c,again) := fastRetransmit k out w.c w.th
    if again then .ok {w with c := c} else .error (.ret c false)
  else if w.c.tDupacks > k.rexmtthresh then .error (.ret (out {w.c with sndCwnd := w.c.sndCwnd + w.c.tSegsz}) false)
  else .ok w

-- An ACK that is not for new data.
def dupAck (k : Config) (out : Conn → Conn) (w : Work) : Except Verdict Work :=
  if w.tlen = 0 && !w.dupseg && w.th.tiwin = w.c.sndWnd then
    if !w.c.rexmt || w.th.thAck ≠ w.c.sndUna then .ok {w with c := {w.c with tDupacks := 0}}
    else answerDup k out {w with c := countDup w.c}
  else if w.tlen ≠ 0 && w.th.thSeq ≠ w.c.rcvNxt && seqLt w.th.thAck (w.c.sndUna - w.c.maxSndwnd) then .error (dropafterack w)
  else .ok w

def completeAck (c : Conn) (th : Segment) : Conn :=
  let left := c.sndMax - th.thAck
  let sndCwnd := if left < c.sndSsthresh then left + c.tSegsz else c.sndSsthresh
  {c with sndCwnd := sndCwnd,tPartialacks := -1,tDupacks := 0}

def tcpSackNewack (out : Conn → Conn) (c : Conn) (th : Segment) : Conn :=
  if c.tPartialacks < 0 then {c with tDupacks := 0}
  else if seqLt th.thAck c.sndRecover then
    let segs := if (th.thAck - c.sndUna) / c.tSegsz > 2 then 2 else 1
    let bytes := (tcpSackOutput c.sack 0).2
    let sndCwnd := bytes + (c.sndNxt - c.sackNewdata) + segs * c.tSegsz
    out {c with tPartialacks := c.tPartialacks + 1,rexmt := false,sndCwnd := sndCwnd,ackNow := true}
  else
    let c := completeAck c th
    if seqGt th.thAck c.sndFack then {c with sack := {c.sack with sndFack := th.thAck}} else c

def fastRetransmitNewack (out : Conn → Conn) (c : Conn) (th : Segment) : Conn :=
  if c.tPartialacks < 0 then {c with tDupacks := 0}
  else if !c.newreno then
    let sndCwnd := if c.sndCwnd > c.sndSsthresh then c.sndSsthresh else c.sndCwnd
    {c with sndCwnd := sndCwnd,tPartialacks := -1,tDupacks := 0,tBytesAcked := 0}
  else if seqLt th.thAck c.sndRecover then
    let onxt := c.sndNxt
    let ocwnd := c.sndCwnd
    let acked := th.thAck - c.sndUna
    let partials := c.tPartialacks + 1
    let c := out {c with tPartialacks := partials,rexmt := c.rexmt && partials ≠ 1,sndNxt := th.thAck,sndCwnd := c.tSegsz + acked}
    let sndNxt := if seqGt onxt c.sndNxt then onxt else c.sndNxt
    {c with sndNxt := sndNxt,sndCwnd := ocwnd - (acked - c.tSegsz)}
  else {completeAck c th with tBytesAcked := 0}

def renoNewack (k : Config) (c : Conn) (th : Segment) : Conn :=
  let cw := c.sndCwnd
  let incr := c.tSegsz
  let acked := th.thAck - c.sndUna
  let (c,incr) :=
    if k.doAbc then
      if cw ≥ c.sndSsthresh then
        let counted := c.tBytesAcked + acked
        if counted ≥ cw then ({c with tBytesAcked := counted - cw},incr) else ({c with tBytesAcked := counted},0)
      else (c,umin acked (if !k.abcAggressive || c.sndNxt ≠ c.sndMax then incr else incr * 2))
    else (c,if cw ≥ c.sndSsthresh then incr * incr / cw else incr)
  {c with sndCwnd := umin (cw + incr) (BitVec.ofNat 32 (65535 <<< c.sndScale))}

def newack (k : Config) (c : Conn) (th : Segment) : Conn := if c.newreno && c.tPartialacks ≥ 0 then c else renoNewack k c th

-- The data that is acked leaves the send buffer, and our FIN goes last.
def drain (c : Conn) (th : Segment) : Conn × Bool :=
  let acked := th.thAck - c.sndUna
  if acked > c.sndCc then ({c with sndWnd := c.sndWnd - c.sndCc,sndCc := 0},true)
  else ({c with sndCc := c.sndCc - acked,sndWnd := c.sndWnd - acked},false)

def advanceUna (c : Conn) (th : Segment) : Conn :=
  let sndFack := if seqGt th.thAck c.sndFack then th.thAck else c.sndFack
  let sndNxt := if seqLt c.sndNxt th.thAck then th.thAck else c.sndNxt
  let sndHigh := if seqLt c.sndHigh th.thAck then th.thAck else c.sndHigh
  {c with sack := {c.sack with sndUna := th.thAck,sndFack := sndFack},sndNxt := sndNxt,sndHigh := sndHigh}

-- The states that wait for the ACK of our FIN.
def finAcked (w : Work) (ourfinisacked : Bool) : Except Verdict Work :=
  match w.c.tState with
  | .finWait1 => .ok (if ourfinisacked then {w with c := {w.c with tState := .finWait2}} else w)
  | .closing => .ok (if ourfinisacked then {w with c := {w.c with tState := .timeWait,rexmt := false,persist := false}} else w)
  | .lastAck => if ourfinisacked then .error (.closed w.c) else .ok w
  | .timeWait => .error (dropafterack w)
  | _ => .ok w

def newackOf (out : Conn → Conn) (c : Conn) (th : Segment) : Conn := if c.sack.sackEnabled then tcpSackNewack out c th else fastRetransmitNewack out c th
def ackTimer (c : Conn) (th : Segment) : Conn := {c with rexmt := if th.thAck = c.sndMax then false else c.rexmt || !c.persist}

def ackProcessing (k : Config) (out : Conn → Conn) (w : Work) : Except Verdict Work :=
  if seqLeq w.th.thAck w.c.sndUna then dupAck k out w
  else
    let c := newackOf out w.c w.th
    if seqGt w.th.thAck c.sndMax then .error (dropafterack {w with c := c})
    else
      let needoutput := w.needoutput || decide (w.th.thAck = c.sndMax)
      let (c,ourfinisacked) := drain (newack k (ackTimer c w.th) w.th) w.th
      finAcked {w with c := advanceUna c w.th,needoutput := needoutput} ourfinisacked

-- The segment is newer than the one the window was taken from.
def newerWindow (c : Conn) (th : Segment) : Bool :=
  seqLt c.sndWl1 th.thSeq || (c.sndWl1 = th.thSeq && (seqLt c.sndWl2 th.thAck || (c.sndWl2 = th.thAck && th.tiwin > c.sndWnd)))

def updateWindow (w : Work) : Work :=
  if w.ti.ack && newerWindow w.c w.th then
    let maxSndwnd := if w.th.tiwin > w.c.maxSndwnd then w.th.tiwin else w.c.maxSndwnd
    {w with c := {w.c with sndWnd := w.th.tiwin,sndWl1 := w.th.thSeq,sndWl2 := w.th.thAck,maxSndwnd := maxSndwnd},needoutput := true}
  else w

-- tcp_pulloutofband, where the byte is in the segment.
def pulloutofband (w : Work) : Work :=
  let i := w.th.urp.toNat - 1
  {w with c := {w.c with iobc := w.data[i]?},data := w.data.eraseIdx i}

def advanceUp (env : Env) (w : Work) : Work :=
  let up := w.th.thSeq + w.th.urp.setWidth 32
  if seqGt up w.c.rcvUp then {w with c := {w.c with rcvUp := up,oobmark := BitVec.ofNat 32 env.rcvCc + (up - w.c.rcvNxt) - 1}} else w

def urgent (k : Config) (env : Env) (w : Work) : Work :=
  if w.ti.urg && w.th.urp ≠ 0 && !w.c.tState.haveRcvdFin then
    if w.th.urp.toNat + env.rcvCc > k.sbMax then {w with th := {w.th with urp := 0},ti := {w.ti with urg := false}}
    else if w.th.urp.toNat ≤ w.tlen % 65536 && !env.oobInline then pulloutofband (advanceUp env w)
    else advanceUp env w
  else if seqGt w.c.rcvNxt w.c.rcvUp then {w with c := {w.c with rcvUp := w.c.rcvNxt}}
  else w

-- dodata: process the segment text, merging it into the TCP sequencing queue. The FIN is that of
-- the header.
def dodata (k : Config) (env : Env) (w : Work) : Work :=
  if (w.tlen ≠ 0 || w.ti.fin) && !w.c.tState.haveRcvdFin then
    if w.th.thSeq = w.c.rcvNxt && w.c.reass.segq.isEmpty && w.c.tState = .established then
      let c := setupAck k w.c w.th
      let c := {c with reass := sbappendstream {c.reass with rcvNxt := c.rcvNxt + BitVec.ofNat 32 w.tlen} w.data}
      {w with c := c,ti := {w.ti with fin := w.th.flags.fin}}
    else
      let (reass,fin) := tcpReass w.c.reass ⟨w.th.thSeq,BitVec.ofNat 32 w.tlen,w.th.flags.fin,w.data⟩ env.got
      {w with c := {w.c with reass := reass,ackNow := true},ti := {w.ti with fin := fin}}
  else {w with ti := {w.ti with fin := false}}

def takeFin (c : Conn) : Conn :=
  if c.tState.haveRcvdFin then c else {c with ackNow := true,reass := {c.reass with rcvNxt := c.rcvNxt + 1,cantRcvMore := true}}

def finState (c : Conn) : Conn :=
  match c.tState with
  | .established => {c with tState := .closeWait}
  | .finWait1 => {c with tState := .closing}
  | .finWait2 => {c with tState := .timeWait,rexmt := false,persist := false}
  | _ => c

def acceptFin (w : Work) : Work := if w.ti.fin then {w with c := finState (takeFin w.c)} else w

-- The way of a segment that is not predicted, as far as the ACK processing, and as far as step6.
def toAck (k : Config) (env : Env) (c : Conn) (th : Segment) : Except Verdict Work := do
  let w ← paws k env ⟨window env c,th,th.flags,th.data.length,th.data,false,false⟩
  let w ← trimHead env w
  let w ← afterClose env w
  let w ← trimWindow w
  control env (stamp env w)

def toStep6 (k : Config) (env : Env) (out : Conn → Conn) (c : Conn) (th : Segment) : Except Verdict Work := do
  let w ← toAck k env c th
  ackProcessing k out w

def step6 (k : Config) (env : Env) (w : Work) : Verdict :=
  let w := acceptFin (dodata k env (urgent k env (updateWindow w)))
  .ret w.c (w.needoutput || w.c.ackNow)

def general (k : Config) (env : Env) (out : Conn → Conn) (c : Conn) (th : Segment) : Verdict :=
  match toStep6 k env out c th with
  | .error v => v
  | .ok w => step6 k env w

-- The options, the holes and the ECN bits, of which every segment has the effect.
def front (k : Config) (c : Conn) (th : Segment) : Except Halt Conn := do
  let c ← tcpDooptions k c th
  .ok (ecn (delSackholes c th) th)

-- tcp_input behind the lookup of the connection. `out` stands for tcp_output where more is done
-- after it.
def tcpInput (k : Config) (env : Env) (out : Conn → Conn) (c : Conn) (th : Segment) : Except Halt Verdict := do
  let c ← front k c th
  match predict k env c th with
  | (_,some v) => .ok v
  | (c,none) => .ok (general k env out c th)
end NetbsdAvr32.TcpInput
