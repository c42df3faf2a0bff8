import NetbsdAvr32.TcpSack

-- sys/netinet/tcp_output.c: the options of a segment. Of tcp_input.c, what bears on them until a
-- connection is established; TCP_SIGNATURE is off.
namespace NetbsdAvr32.TcpOptions
open Serial TcpSack List

abbrev Byte := BitVec 8

def maxTcpoptlen : Nat := 40
def tcpSackMax : Nat := 3
def sizeofTcphdr : Nat := 20

-- The values of t_state, but for TCPS_LISTEN, in which tcp_output is not called.
inductive TState where
  | closed
  | synSent
  | synReceived
  | established
  | closeWait
  | finWait1
  | closing
  | lastAck
  | finWait2
  | timeWait
  deriving DecidableEq, Repr

structure Flags where
  fin : Bool
  syn : Bool
  rst : Bool
  ack : Bool
  deriving DecidableEq, Repr

def TState.outflags : TState → Flags
  | .closed => ⟨false,false,true,true⟩
  | .synSent => ⟨false,true,false,false⟩
  | .synReceived => ⟨false,true,false,true⟩
  | .finWait1 | .closing | .lastAck => ⟨true,false,false,true⟩
  | .established | .closeWait | .finWait2 | .timeWait => ⟨false,false,false,true⟩

structure Ipqent where
  seq : Seq
  len : Seq
  fin : Bool
  deriving DecidableEq, Repr

-- The fields of struct tcpcb that a segment changes on its way through tcp_input. `dsack` is
-- rcv_dsack_block while TCPSACK_HAVED is set.
structure Rcv where
  willSack : Bool
  ackNow : Bool
  dsack : Option Sackblk
  rcvNxt : Seq
  lastAckSent : Seq
  tsRecent : Seq
  tsRecentAge : Seq
  deriving DecidableEq, Repr

-- The other fields. t_segqlen is the length of `timeq`.
structure Conn extends Rcv where
  tState : TState
  noopt : Bool
  reqScale : Bool
  rcvdScale : Bool
  reqTstmp : Bool
  rcvdTstmp : Bool
  requestRScale : Byte
  timeq : List Ipqent
  iss : Seq
  sndUna : Seq
  sndMax : Seq
  deriving DecidableEq, Repr

-- tcp_do_sack and TCP_PAWS_IDLE
structure Config where
  doSack : Bool
  pawsIdle : Seq

structure Segment where
  thSeq : Seq
  thAck : Seq
  flags : Flags
  tlen : Nat
  wscale : Bool
  ts : Option Seq
  sackPermitted : Bool

-- tcp_now, rcv_wnd as it was just computed, and what ppsratecheck and tcpipqent_alloc answer.
structure Env where
  now : Seq
  rcvWnd : Seq
  ratecheck : Bool
  got : Bool

-- The locals th_seq, tlen and tiflags as they change.
structure Work where
  r : Rcv
  seq : Seq
  tlen : Nat
  ti : Flags

-- tcp_dooptions, of which a SYN has the effect while TCPS_HAVERCVDSYN does not hold.
def tcpDooptions (k : Config) (env : Env) (c : Conn) (th : Segment) : Conn :=
  if th.flags.syn then
    {c with
      rcvdScale := c.rcvdScale || th.wscale
      rcvdTstmp := c.rcvdTstmp || th.ts.isSome
      tsRecent := th.ts.getD c.tsRecent
      tsRecentAge := if th.ts.isSome then env.now else c.tsRecentAge
      willSack := c.willSack || (th.sackPermitted && k.doSack)}
  else c

def tcpNewDsack (r : Rcv) (seq : Seq) (len : Nat) : Rcv := if r.willSack then {r with dsack := some ⟨seq,seq + BitVec.ofNat 32 len⟩} else r

def badAck (c : Conn) (th : Segment) : Bool := th.flags.ack && (seqLeq th.thAck c.iss || seqGt th.thAck c.sndMax)

-- tcp_reass, which does not present data before the connection is established. Nothing is on the queue.
def tcpReass (env : Env) (c : Conn) (q : Ipqent) : Conn := if env.got then {c with timeq := q :: c.timeq} else c

-- The data of a SYN without ACK, after it is trimmed to stay within window.
def dodata (env : Env) (c : Conn) (th : Segment) : Conn :=
  if th.tlen > env.rcvWnd.toNat then
    if env.rcvWnd = 0 then c else tcpReass env c ⟨th.thSeq + 1,env.rcvWnd,th.flags.fin⟩
  else if th.tlen ≠ 0 || th.flags.fin then tcpReass env c ⟨th.thSeq + 1,BitVec.ofNat 32 th.tlen,th.flags.fin⟩
  else c

-- case TCPS_SYN_SENT, as far as the connection is established.
def synSent (k : Config) (env : Env) (c : Conn) (th : Segment) : Conn :=
  let c := tcpDooptions k env c th
  if badAck c th then c
  else if th.flags.rst then if th.flags.ack then {c with tState := .closed} else c
  else if !th.flags.syn then c
  else
    let c := {c with rcvNxt := th.thSeq + 1,ackNow := true}
    if th.flags.ack then {c with tState := .established,sndUna := th.thAck} else dodata env {c with tState := .synReceived} th

def dropafterack (w : Work) : Rcv := if w.ti.rst then w.r else {w.r with ackNow := true}
def dropafterackRatelim (env : Env) (r : Rcv) : Rcv := if env.ratecheck then {r with ackNow := true} else r

def paws (k : Config) (env : Env) (th : Segment) (w : Work) : Except Rcv Work :=
  if !w.ti.rst && w.r.tsRecent ≠ 0 && th.ts.any (seqLt · w.r.tsRecent) then
    if env.now - w.r.tsRecentAge > k.pawsIdle then .ok {w with r := {w.r with tsRecent := 0}}
    else .error (dropafterack {w with r := tcpNewDsack w.r w.seq w.tlen})
  else .ok w

def dropHead (w : Work) (todrop : Nat) : Work :=
  {w with r := tcpNewDsack w.r w.seq todrop,seq := w.seq + BitVec.ofNat 32 todrop,tlen := w.tlen - todrop}

def trimDup (env : Env) (w : Work) (todrop : Int) : Except Rcv Work :=
  if todrop > w.tlen || (todrop = w.tlen && !w.ti.fin) then
    if w.ti.rst then .error w.r
    else .ok (dropHead {w with r := {w.r with ackNow := true},ti := {w.ti with fin := false,rst := false}} w.tlen)
  else if w.ti.rst && w.seq ≠ w.r.rcvNxt then .error (dropafterackRatelim env w.r)
  else .ok (dropHead w todrop.toNat)

def trimHead (env : Env) (w : Work) : Except Rcv Work :=
  let todrop := diff w.r.rcvNxt w.seq
  if todrop > 0 then
    if w.ti.syn then trimDup env {w with seq := w.seq + 1,ti := {w.ti with syn := false}} (todrop - 1) else trimDup env w todrop
  else .ok w

def trimWindow (env : Env) (w : Work) : Except Rcv Work :=
  let todrop := diff (w.seq + BitVec.ofNat 32 w.tlen) (w.r.rcvNxt + env.rcvWnd)
  let trimmed := {w with tlen := w.tlen - todrop.toNat,ti := {w.ti with fin := false}}
  if todrop > 0 then
    if todrop ≥ w.tlen then
      if env.rcvWnd = 0 && w.seq = w.r.rcvNxt then .ok {trimmed with r := {w.r with ackNow := true}} else .error (dropafterack w)
    else .ok trimmed
  else .ok w

def Work.stop (w : Work) : Seq := w.seq + BitVec.ofNat 32 (w.tlen + if w.ti.syn || w.ti.fin then 1 else 0)

def stamp (env : Env) (th : Segment) (w : Work) : Rcv :=
  match th.ts with
  | none => w.r
  | some ts => if seqLeq w.seq w.r.lastAckSent && seqLeq w.r.lastAckSent w.stop then {w.r with tsRecentAge := env.now,tsRecent := ts} else w.r

def control (env : Env) (c : Conn) (th : Segment) (r : Rcv) (w : Work) : Rcv × TState :=
  if w.ti.rst then if w.seq ≠ r.rcvNxt then (dropafterackRatelim env r,.synReceived) else (r,.closed)
  else if w.ti.syn then (if r.rcvNxt = w.seq then r else dropafterackRatelim env r,.synReceived)
  else if !w.ti.ack || seqGt c.sndUna th.thAck || seqGt th.thAck c.sndMax then (r,.synReceived)
  else (r,.established)

-- A segment in SYN_RECEIVED state.
def received (k : Config) (env : Env) (c : Conn) (th : Segment) : Rcv × TState :=
  let trimmed := do
    let w ← paws k env th ⟨c.toRcv,th.thSeq,th.tlen,th.flags⟩
    let w ← trimHead env w
    trimWindow env w
  match trimmed with
  | .error r => (r,.synReceived)
  | .ok w => control env c th (stamp env th w) w

def synReceived (k : Config) (env : Env) (c : Conn) (th : Segment) : Conn :=
  if badAck c th then c else {c with toRcv := (received k env c th).1,tState := (received k env c th).2}

-- What tcp_output finds at the moment: the MSS of tcp_mss_to_advertise, TCP_TIMESTAMP, the segment size of
-- tcp_segsize, snd_max after it, and whether the packet went out.
structure Out where
  ourmss : BitVec 16
  timestamp : Seq
  txsegsizeNosack : Int
  sndMax : Seq
  sent : Bool

def tcpSackNumblks (c : Conn) : Nat := if c.willSack then min (c.dsack.toList.length + c.timeq.length) tcpSackMax else 0
def tcpSackOptlen (nblks : Nat) : Nat := nblks * 8 + 2 + 2
def sackNumblks (o : Out) (c : Conn) : Nat := if tcpSackOptlen (tcpSackNumblks c) > o.txsegsizeNosack then 0 else tcpSackNumblks c
def bytes (x : Seq) : List Byte := [x.extractLsb' 24 8,x.extractLsb' 16 8,x.extractLsb' 8 8,x.extractLsb' 0 8]

-- TCPOPT_MAXSEG, TCPOPT_WINDOW behind a TCPOPT_NOP, and TCPOPT_SACK_PERMITTED.
def synOptions (k : Config) (o : Out) (c : Conn) (ack : Bool) : List Byte :=
  [2,4,o.ourmss.extractLsb' 8 8,o.ourmss.extractLsb' 0 8] ++ (if c.reqScale && (!ack || c.rcvdScale) then [1,3,3,c.requestRScale] else []) ++
    (if k.doSack then [4,2,1,1] else [])

def tsOption (o : Out) (c : Conn) : List Byte := [1,1,8,10] ++ bytes o.timestamp ++ bytes c.tsRecent
def Ipqent.block (q : Ipqent) : Sackblk := ⟨q.seq,q.seq + q.len + if q.fin then 1 else 0⟩
def sackBlocks (c : Conn) (n : Nat) : List Sackblk := (c.dsack.toList ++ c.timeq.map Ipqent.block).take n

def sackOption (c : Conn) (n : Nat) : List Byte :=
  [1,1,5,BitVec.ofNat 8 (n * 8 + 2)] ++ (sackBlocks c n).flatMap fun b => bytes b.left ++ bytes b.right

-- opt[0] to opt[optlen - 1]
def options (k : Config) (o : Out) (c : Conn) : List Byte :=
  let flags := c.tState.outflags
  (if flags.syn && !c.noopt then synOptions k o c flags.ack else []) ++
    (if c.reqTstmp && !c.noopt && !flags.rst && ((flags.syn && !flags.ack) || c.rcvdTstmp) then tsOption o c else []) ++
    (if sackNumblks o c ≠ 0 then sackOption c (sackNumblks o c) else [])

def thOff (optlen : Nat) : BitVec 4 := BitVec.ofNat 4 ((sizeofTcphdr + optlen) >>> 2)

def tcpOutput (o : Out) (c : Conn) : Conn :=
  let c := if sackNumblks o c ≠ 0 then {c with dsack := none} else c
  if o.sent then {c with sndMax := o.sndMax,ackNow := false,lastAckSent := c.rcvNxt} else {c with sndMax := o.sndMax}

-- tcp_output may be called at any time. What the user, the timers and an established connection do
-- never leads back to a state that sends SYN.
inductive Step (k : Config) (c : Conn) : Conn → Prop where
  | synSent (env : Env) (th : Segment) (state : c.tState = .synSent) : Step k c (synSent k env c th)
  | synReceived (env : Env) (th : Segment) (state : c.tState = .synReceived) : Step k c (synReceived k env c th)
  | output (o : Out) : Step k c (tcpOutput o c)
  | later (c' : Conn) (opened : c'.tState.outflags.syn = false) : Step k c c'

-- tcp_connect, and syn_cache_get for a listening socket.
inductive Reachable (k : Config) : Conn → Prop where
  | start (c : Conn) (opening : c.tState = .synSent ∨ c.tState = .synReceived) (fresh : c.dsack = none ∧ c.timeq = []) : Reachable k c
  | step {c c' : Conn} (reached : Reachable k c) (step : Step k c c') : Reachable k c'

def Fits (opt : List Byte) : Prop := opt.length ≤ maxTcpoptlen ∧ 4 * (thOff opt.length).toNat = sizeofTcphdr + opt.length
instance (opt : List Byte) : Decidable (Fits opt) := inferInstanceAs (Decidable (_ ∧ _))

-- A D-SACK waits to go out with a SYN,ACK, behind which a segment is queued; every option was agreed on.
def Crowded (k : Config) (o : Out) (c : Conn) : Prop :=
  c.tState = .synReceived ∧ c.dsack ≠ none ∧ c.timeq ≠ [] ∧ tcpSackOptlen 2 ≤ o.txsegsizeNosack ∧ c.noopt = false ∧
    (c.reqScale && c.rcvdScale && k.doSack && c.willSack && c.reqTstmp && c.rcvdTstmp) = true

-- Until the connection is established, the queue has what came with the SYN.
structure Early (c : Conn) : Prop where
  sent : c.tState = .synSent → c.dsack = none ∧ c.timeq = []
  received : c.tState = .synReceived → c.timeq.length ≤ 1

variable {k : Config} {env : Env} {c c' : Conn} {th : Segment}

theorem Early.later (opened : c.tState.outflags.syn = false) : Early c := by
  constructor
  · intro sent
    rw [sent] at opened
    cases opened
  intro received
  rw [received] at opened
  cases opened

theorem Early.one (state : c.tState = .synReceived) (few : c.timeq.length ≤ 1) : Early c :=
  ⟨fun sent => absurd (state.symm.trans sent) (by decide),fun _ => few⟩

theorem received_state (k : Config) (env : Env) (c : Conn) (th : Segment) :
    (received k env c th).2 = .synReceived ∨ (received k env c th).2.outflags.syn = false := by
  unfold received
  dsimp only
  split
  · exact .inl rfl
  unfold control
  split
  · split
    · exact .inl rfl
    · exact .inr rfl
  split
  · exact .inl rfl
  split
  · exact .inl rfl
  · exact .inr rfl

theorem early_received (early : Early c) (state : c.tState = .synReceived) (env : Env) (th : Segment) : Early (synReceived k env c th) := by
  unfold synReceived
  split
  · exact early
  rcases received_state k env c th with stays | opened
  · exact .one stays (early.received state)
  · exact .later opened

theorem reass_early (q : Ipqent) (state : c.tState = .synReceived) (empty : c.timeq = []) : Early (tcpReass env c q) := by
  unfold tcpReass
  split <;> exact .one state (by simp [empty])

theorem dodata_early (state : c.tState = .synReceived) (empty : c.timeq = []) : Early (dodata env c th) := by
  have bare : Early c := .one state (by simp [empty])
  unfold dodata
  split
  · split
    · exact bare
    · exact reass_early _ state empty
  split
  · exact reass_early _ state empty
  · exact bare

theorem early_sent (state : c.tState = .synSent) (fresh : c.dsack = none ∧ c.timeq = []) (env : Env) (th : Segment) : Early (synSent k env c th) := by
  have options : (tcpDooptions k env c th).tState = .synSent ∧ (tcpDooptions k env c th).dsack = none ∧ (tcpDooptions k env c th).timeq = [] := by
    unfold tcpDooptions
    split <;> exact ⟨state,fresh⟩
  have still : Early (tcpDooptions k env c th) := ⟨fun _ => options.2,fun received => absurd (options.1.symm.trans received) (by decide)⟩
  unfold synSent
  dsimp only
  split
  · exact still
  split
  · split
    · exact .later rfl
    · exact still
  split
  · exact still
  split
  · exact .later rfl
  · exact dodata_early rfl options.2.2

theorem output_early (early : Early c) (o : Out) : Early (tcpOutput o c) := by
  have cleared : ∀ d,(d = none ∨ d = c.dsack) → Early {c with dsack := d} := fun d which =>
    ⟨fun sent => ⟨which.elim id fun same => same.trans (early.sent sent).1,(early.sent sent).2⟩,early.received⟩
  unfold tcpOutput
  split
  · have now := cleared none (.inl rfl)
    split <;> exact ⟨now.sent,now.received⟩
  · split <;> exact ⟨early.sent,early.received⟩

theorem step_early (early : Early c) (step : Step k c c') : Early c' := by
  cases step with
  | synSent env th state => exact early_sent state (early.sent state) env th
  | synReceived env th state => exact early_received early state env th
  | output o => exact output_early early o
  | later _ opened => exact .later opened

theorem reached_early (reached : Reachable k c) : Early c := by
  induction reached with
  | start c _ fresh => exact ⟨fun _ => fresh,fun _ => by simp [fresh.2]⟩
  | step _ step ih => exact step_early ih step

theorem sackOption_length {n : Nat} (few : n ≤ c.dsack.toList.length + c.timeq.length) : (sackOption c n).length = tcpSackOptlen n := by
  have each : ∀ l : List Sackblk,(l.flatMap fun b => bytes b.left ++ bytes b.right).length = 8 * l.length := by
    intro l
    induction l with
    | nil => rfl
    | cons b l ih =>
      rw [flatMap_cons,length_append,ih,length_cons]
      simp only [bytes,length_append,length_cons,length_nil]
      omega
  rw [sackOption,length_append,each,sackBlocks,length_take,length_append,length_map,Nat.min_eq_left few,tcpSackOptlen]
  simp only [length_cons,length_nil]
  omega

theorem numblks_le (o : Out) (c : Conn) : sackNumblks o c ≤ c.dsack.toList.length + c.timeq.length ∧ sackNumblks o c ≤ tcpSackMax := by
  have low : tcpSackNumblks c ≤ c.dsack.toList.length + c.timeq.length ∧ tcpSackNumblks c ≤ tcpSackMax := by
    unfold tcpSackNumblks
    split <;> omega
  unfold sackNumblks
  split <;> omega

theorem dsack_length (c : Conn) : c.dsack.toList.length ≤ 1 := by
  cases c.dsack <;> simp

def tsSent (c : Conn) : Bool := c.reqTstmp && !c.noopt && !c.tState.outflags.rst && ((c.tState.outflags.syn && !c.tState.outflags.ack) || c.rcvdTstmp)
def sackWords (n : Nat) : Nat := if n ≠ 0 then 2 * n + 1 else 0

def optWords (k : Config) (o : Out) (c : Conn) : Nat :=
  (c.tState.outflags.syn && !c.noopt).toNat * (1 + (c.reqScale && (!c.tState.outflags.ack || c.rcvdScale)).toNat + k.doSack.toNat) +
    3 * (tsSent c).toNat + sackWords (sackNumblks o c)

theorem options_length (k : Config) (o : Out) (c : Conn) : (options k o c).length = 4 * optWords k o c := by
  have sack : (if sackNumblks o c ≠ 0 then sackOption c (sackNumblks o c) else []).length = 4 * sackWords (sackNumblks o c) := by
    rw [apply_ite length,sackOption_length (numblks_le o c).1]
    unfold sackWords tcpSackOptlen
    split
    · omega
    · rfl
  have syn : (synOptions k o c c.tState.outflags.ack).length =
      4 * (1 + (c.reqScale && (!c.tState.outflags.ack || c.rcvdScale)).toNat + k.doSack.toNat) := by
    rw [synOptions,length_append,length_append]
    cases c.reqScale && (!c.tState.outflags.ack || c.rcvdScale) <;> cases k.doSack <;> rfl
  unfold options optWords
  rw [length_append,length_append,sack,apply_ite length,apply_ite length,syn]
  change _ + (if tsSent c = true then 12 else 0) + _ = _
  cases c.tState.outflags.syn && !c.noopt <;> cases tsSent c <;> simp <;> omega

theorem fits_iff (k : Config) (o : Out) (c : Conn) : Fits (options k o c) ↔ optWords k o c ≤ 10 := by
  have off : (thOff (options k o c).length).toNat = (20 + (options k o c).length) / 4 % 16 := by
    rw [thOff,BitVec.toNat_ofNat,Nat.shiftRight_eq_div_pow]
    rfl
  unfold Fits maxTcpoptlen sizeofTcphdr
  rw [off,options_length]
  omega

-- Two blocks, where the D-SACK and the one segment of the queue go out together.
theorem two_blocks (o : Out) (few : c.timeq.length ≤ 1) : sackNumblks o c ≤ 2 ∧
    (sackNumblks o c = 2 ↔ (c.dsack ≠ none ∧ c.timeq ≠ []) ∧ tcpSackOptlen 2 ≤ o.txsegsizeNosack ∧ c.willSack = true) := by
  have both : c.dsack.toList.length + c.timeq.length = 2 ↔ c.dsack ≠ none ∧ c.timeq ≠ [] := by
    cases c.dsack <;> cases queue : c.timeq <;> simp_all
  have low := dsack_length c
  unfold sackNumblks tcpSackNumblks tcpSackMax tcpSackOptlen
  cases c.willSack with
  | false => simp
  | true =>
    simp only [if_true,and_true,← both]
    split <;> omega

theorem options_fit (o : Out) (reached : Reachable k c) : Fits (options k o c) ↔ ¬Crowded k o c := by
  have early := reached_early reached
  have bits := Bool.toNat_le (tsSent c)
  rw [fits_iff]
  by_cases received : c.tState = .synReceived
  · obtain ⟨few,two⟩ := two_blocks o (early.received received)
    have crowded : Crowded k o c ↔ sackNumblks o c = 2 ∧ c.noopt = false ∧ (c.reqScale && c.rcvdScale && k.doSack && c.reqTstmp && c.rcvdTstmp) = true := by
      unfold Crowded
      simp only [received,Bool.and_eq_true]
      tauto
    rw [crowded]
    unfold optWords tsSent sackWords
    rw [received]
    cases c.noopt <;> cases c.reqScale <;> cases c.rcvdScale <;> cases k.doSack <;> cases c.reqTstmp <;> cases c.rcvdTstmp <;>
      simp [TState.outflags] <;> split <;> omega
  · have apart : ¬Crowded k o c := fun crowded => received crowded.1
    simp only [apart,not_false_eq_true,iff_true]
    unfold optWords
    have most := (numblks_le o c).2
    by_cases sent : c.tState = .synSent
    · have few := (numblks_le o c).1
      rw [(early.sent sent).1,(early.sent sent).2] at few
      have one := Bool.toNat_le (c.reqScale && (!c.tState.outflags.ack || c.rcvdScale))
      have two := Bool.toNat_le k.doSack
      have none : sackWords (sackNumblks o c) = 0 := by
        rw [Nat.le_zero.mp few]
        rfl
      cases c.tState.outflags.syn && !c.noopt <;> simp <;> omega
    · have closed : c.tState.outflags.syn = false := by
        cases state : c.tState <;> simp_all [TState.outflags]
      have words : sackWords (sackNumblks o c) ≤ 7 := by
        unfold sackWords tcpSackMax at *
        split <;> omega
      rw [closed]
      simp
      omega

def sacks : Config := ⟨true,0x19bfcc00⟩
def ready : Env := ⟨7,1000,true,true⟩
def sends : Out := ⟨1460,7,1460,101,true⟩

-- A connection that has sent its SYN, and the SYN of the other end with a byte of data.
def opening : Conn := ⟨⟨false,true,none,0,0,0,0⟩,.synSent,false,true,false,true,false,3,[],100,100,101⟩
def crossing : Segment := ⟨500,0,⟨false,true,false,false⟩,1,true,some 9,true⟩

theorem options_fit_opening : Fits (options sacks sends opening) :=
  (options_fit sends (.start opening (.inl rfl) ⟨rfl,rfl⟩)).mpr fun crowded => absurd crowded.1 (by decide)

-- The other end sends its SYN twice before our SYN,ACK is there, which then goes out again with a D-SACK.
theorem options_overflow : ∃ c,Reachable sacks c ∧ (options sacks sends c).length = 44 ∧ thOff 44 = 0 := by
  have met : Reachable sacks _ := (Reachable.start opening (.inl rfl) ⟨rfl,rfl⟩).step (.synSent ready crossing rfl)
  have again := (met.step (.output sends)).step (.synReceived ready crossing (by decide))
  exact ⟨_,again,by decide +kernel,by decide⟩
end NetbsdAvr32.TcpOptions
