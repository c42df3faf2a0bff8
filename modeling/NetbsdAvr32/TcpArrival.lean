import NetbsdAvr32.Exits
import NetbsdAvr32.TcpInput

-- What the options, the holes and the ECN bits of a segment leave alone.
namespace NetbsdAvr32.TcpSack
open Serial

structure Ends (tp tp' : Tcpcb) : Prop where
  enabled : tp'.sackEnabled = tp.sackEnabled
  una : tp'.sndUna = tp.sndUna
  max : tp'.sndMax = tp.sndMax

def Next.tp : Next → Tcpcb
  | .go p => p.tp
  | .ret tp => tp

variable {lim : Limits} {tp tp' : Tcpcb} {p : Pass} {sack : Sackblk}

theorem Ends.refl (tp : Tcpcb) : Ends tp tp := ⟨rfl,rfl,rfl⟩

theorem Ends.trans {a b c : Tcpcb} (one : Ends a b) (two : Ends b c) : Ends a c :=
  ⟨two.enabled.trans one.enabled,two.una.trans one.una,two.max.trans one.max⟩

theorem sackAllochole_ends (lim : Limits) (tp : Tcpcb) : Ends tp (sackAllochole lim tp).1 := by
  unfold sackAllochole
  split
  · exact .refl tp
  split
  · exact ⟨rfl,rfl,rfl⟩
  · exact ⟨rfl,rfl,rfl⟩

theorem insertTail_ends (lim : Limits) (p : Pass) (start stop : Seq) : Ends p.tp (insertTail lim p start stop).tp := by
  have ends := sackAllochole_ends lim p.tp
  unfold insertTail
  dsimp only
  split
  · exact ends
  · exact ⟨ends.enabled,ends.una,ends.max⟩

theorem scan_ends (lim : Limits) (sack : Sackblk) (tp : Tcpcb) (before after : List Sackhole) :
    Exits (fun _ => True) (fun next => Ends tp next.tp) (scan lim sack tp before after) := by
  induction after generalizing before with
  | nil => exact .refl tp
  | cons cur rest ih =>
    have ends := sackAllochole_ends lim tp
    rw [scan]
    split
    · exact .refl tp
    split
    · exact ih _
    split
    · split
      · exact ⟨rfl,rfl,rfl⟩
      · exact .refl tp
    split
    · exact .refl tp
    split
    · dsimp only
      split
      · exact ends
      · exact ⟨ends.enabled,ends.una,ends.max⟩
    · trivial

theorem appendHole_ends (lim : Limits) (sack : Sackblk) (p : Pass) : Ends p.tp (appendHole lim sack p).tp := by
  have one : Ends p.tp (if seqLt p.tp.rcvLastsack sack.left then insertTail lim p p.tp.rcvLastsack sack.left else Next.go p).tp := by
    split
    · exact insertTail_ends ..
    · exact .refl _
  unfold appendHole
  dsimp only
  split
  · next tp same =>
    rw [same] at one
    exact one
  next p' same =>
  rw [same] at one
  split
  · exact ⟨one.enabled,one.una,one.max⟩
  · exact one

theorem block_ends (lim : Limits) (thAck : Seq) (sack : Sackblk) (p : Pass) : Exits (fun _ => True) (fun next => Ends p.tp next.tp) (block lim thAck sack p) := by
  have fack : Ends p.tp (updateFack sack p.tp) := by
    unfold updateFack
    split
    · exact ⟨rfl,rfl,rfl⟩
    · exact .refl _
  unfold block blockHoles
  split
  · have tail := insertTail_ends lim {p with tp := updateFack sack p.tp} thAck sack.left
    split
    · next tp same =>
      rw [same] at tail
      exact fack.trans tail
    next p' same =>
    rw [same] at tail
    exact fack.trans ⟨tail.enabled,tail.una,tail.max⟩
  refine (scan_ends lim sack (updateFack sack p.tp) p.before p.after).bind fun next ends => ?_
  cases next with
  | ret tp => exact fack.trans ends
  | go p' => exact (fack.trans ends).trans (appendHole_ends lim sack p')

theorem update_ends (lim : Limits) (thAck : Seq) (sacks : List Sackblk) (p : Pass) : Exits (fun _ => True) (Ends p.tp) (update lim thAck sacks p) := by
  induction sacks generalizing p with
  | nil => exact ⟨rfl,rfl,rfl⟩
  | cons sack sacks ih =>
    refine (block_ends lim thAck sack p).bind fun next ends => ?_
    cases next with
    | ret tp => exact ends
    | go p' => exact (ih p').mono (fun _ _ => trivial) fun _ more => ends.trans more

theorem tcpSackOption_ends (lim : Limits) (tp : Tcpcb) (th : Tcphdr) (cp : Nat → BitVec 8) (optlen : Nat) :
    Exits (fun _ => True) (Ends tp) (tcpSackOption lim tp th cp optlen) := by
  unfold tcpSackOption
  split
  · exact .refl tp
  · exact update_ends ..

theorem tcpDelSackholes_ends (tp : Tcpcb) (th : Tcphdr) : Ends tp (tcpDelSackholes tp th) := ⟨rfl,rfl,rfl⟩
end NetbsdAvr32.TcpSack

namespace NetbsdAvr32.TcpInput
open Serial TcpSack TcpReass
variable {k : Config} {c c₁ : Conn} {th : Segment}

theorem options_ends (lim : Limits) (hdr : Tcphdr) (options : List ((Nat → BitVec 8) × Nat)) (tp : Tcpcb) :
    Exits (fun _ => True) (Ends tp) (options.foldlM (fun sack (o : (Nat → BitVec 8) × Nat) => tcpSackOption lim sack hdr o.1 o.2) tp) := by
  induction options generalizing tp with
  | nil => exact .refl tp
  | cons o options ih =>
    exact (tcpSackOption_ends lim tp hdr o.1 o.2).bind fun tp' ends => (ih tp').mono (fun _ _ => trivial) fun _ more => ends.trans more

theorem front_cases (ran : front k c th = .ok c₁) : ∃ sack,Ends c.sack sack ∧ c₁ = ecn {c with sack := sack} th := by
  have options : Exits (fun _ => True) (fun c' : Conn => ∃ sack,Ends c.sack sack ∧ c' = {c with sack := sack}) (tcpDooptions k c th) :=
    (options_ends k.lim th.hdr th.sackOptions c.sack).bind fun sack ends => ⟨sack,ends,rfl⟩
  have whole : Exits (fun _ => True) (fun c' => ∃ sack,Ends c.sack sack ∧ c' = ecn {c with sack := sack} th) (front k c th) := by
    refine options.bind fun c' ⟨sack,ends,same⟩ => ?_
    subst same
    unfold delSackholes
    split
    · exact ⟨_,ends.trans (tcpDelSackholes_ends sack th.hdr),rfl⟩
    · exact ⟨sack,ends,rfl⟩
  exact whole.ok ran

theorem ecnMarks_eq (c : Conn) (th : Segment) : ∃ ece,ecnMarks c th = {c with ecnSndEce := ece} := by
  unfold ecnMarks
  dsimp only
  split
  · split
    · exact ⟨false,rfl⟩
    · exact ⟨false,rfl⟩
  split
  · exact ⟨true,rfl⟩
  · exact ⟨c.ecnSndEce,rfl⟩

-- ECE is answered once for a window of data.
def answered (c : Conn) (th : Segment) : Bool := c.ecnPermit && (th.flags.ece && seqGeq c.sndUna c.sndRecover)

theorem ecn_cases (c : Conn) (th : Segment) : ∃ ece,(answered c th = false ∧ ecn c th = {c with ecnSndEce := ece}) ∨
    (answered c th = true ∧ ecn c th = congExp {c with ecnSndEce := ece}) := by
  obtain ⟨ece,marks⟩ := ecnMarks_eq c th
  unfold ecn answered
  rw [marks]
  split
  · next permit =>
    split
    · next now => exact ⟨ece,.inr ⟨by rw [permit,now]; rfl,rfl⟩⟩
    · next later => exact ⟨ece,.inl ⟨by rw [permit,Bool.eq_false_iff.mpr later]; rfl,rfl⟩⟩
  · next off => exact ⟨c.ecnSndEce,.inl ⟨by rw [Bool.eq_false_iff.mpr off]; rfl,rfl⟩⟩

theorem tcpInput_predicted {env : Env} {out : Conn → Conn} {c₂ : Conn} {v : Verdict} (first : front k c th = .ok c₁) (taken : predict k env c₁ th = (c₂,some v)) :
    tcpInput k env out c th = .ok v := by
  unfold tcpInput
  rw [first]
  simp only [bind,Except.bind,taken]

theorem tcpInput_general {env : Env} {out : Conn → Conn} {c₂ : Conn} (first : front k c th = .ok c₁) (none : predict k env c₁ th = (c₂,none)) :
    tcpInput k env out c th = .ok (general k env out c₂ th) := by
  unfold tcpInput
  rw [first]
  simp only [bind,Except.bind,none]

theorem front_of_ok {env : Env} {out : Conn → Conn} {v : Verdict} (ran : tcpInput k env out c th = .ok v) : ∃ c₁,front k c th = .ok c₁ := by
  unfold tcpInput at ran
  cases first : front k c th with
  | error halt =>
    rw [first] at ran
    cases ran
  | ok c₁ => exact ⟨c₁,rfl⟩

def Received (c c' : Conn) : Prop := ∃ ackNow rcvWnd tsRecent tsRecentAge,c' = {c with ackNow := ackNow,rcvWnd := rcvWnd,tsRecent := tsRecent,tsRecentAge := tsRecentAge}

def Verdict.conn : Verdict → Conn
  | .ret c _ => c
  | .closed c => c

structure Arrived (c : Conn) (th : Segment) (w : Work) : Prop where
  conn : Received c w.c
  thAck : w.th.thAck = th.thAck
  tiwin : w.th.tiwin = th.tiwin
  flags : w.th.flags = th.flags
  ack : w.ti.ack = th.flags.ack
  tlen : w.tlen ≤ th.data.length
  order : th.thSeq = c.rcvNxt → w.th = th ∧ w.ti.urg = th.flags.urg

variable {k : Config} {env : Env} {c c' : Conn} {th : Segment} {w : Work}

namespace Received

theorem refl (c : Conn) : Received c c := ⟨_,_,_,_,rfl⟩

theorem trans {c'' : Conn} (one : Received c c') (two : Received c' c'') : Received c c'' := by
  obtain ⟨_,_,_,_,same⟩ := one
  obtain ⟨_,_,_,_,same'⟩ := two
  subst same same'
  exact ⟨_,_,_,_,rfl⟩
end Received

theorem Arrived.conn_trans (arrived : Arrived c th w) (more : Received w.c c') : Arrived c th {w with c := c'} :=
  ⟨arrived.conn.trans more,arrived.thAck,arrived.tiwin,arrived.flags,arrived.ack,arrived.tlen,arrived.order⟩

theorem dropafterack_received (received : Received c w.c) : Received c (dropafterack w).conn := by
  unfold dropafterack
  split
  · exact received
  · exact received.trans ⟨_,_,_,_,rfl⟩

theorem dropafterackRatelim_received (received : Received c w.c) : Received c (dropafterackRatelim env w).conn := by
  unfold dropafterackRatelim
  split
  · exact received.trans ⟨_,_,_,_,rfl⟩
  · exact received

theorem recordTs_received (env : Env) (c : Conn) (ts : ULong) : Received c (recordTs env c ts) := ⟨_,_,_,_,rfl⟩

theorem predictedTs_received (env : Env) (c : Conn) (th : Segment) : Received c (predictedTs env c th) := by
  unfold predictedTs
  split
  · split
    · exact recordTs_received ..
    · exact .refl c
  · exact .refl c

theorem predict_received (k : Config) (env : Env) (c : Conn) (th : Segment) : Received c (predict k env c th).1 := by
  unfold predict
  split
  · exact predictedTs_received ..
  · exact .refl c

abbrev Gone (c : Conn) (v : Verdict) : Prop := Received c v.conn

section
variable (arrived : Arrived c th w)
include arrived

theorem paws_exits : Exits (Gone c) (Arrived c th) (paws k env w) := by
  unfold paws
  split
  · exact arrived
  split
  · split
    · exact arrived.conn_trans ⟨_,_,_,_,rfl⟩
    · exact dropafterack_received arrived.conn
  · exact arrived

theorem dropHead_arrived (late : th.thSeq ≠ c.rcvNxt) (todrop : Nat) : Arrived c th (dropHead w todrop) := by
  have tlen : w.tlen - todrop ≤ th.data.length := Nat.le_trans (Nat.sub_le ..) arrived.tlen
  unfold dropHead
  dsimp only
  split
  · exact ⟨arrived.conn,arrived.thAck,arrived.tiwin,arrived.flags,arrived.ack,tlen,fun order => absurd order late⟩
  · exact ⟨arrived.conn,arrived.thAck,arrived.tiwin,arrived.flags,arrived.ack,tlen,fun order => absurd order late⟩

theorem dropSyn_arrived (late : th.thSeq ≠ c.rcvNxt) : Arrived c th (dropSyn w) := by
  unfold dropSyn
  split
  · exact ⟨arrived.conn,arrived.thAck,arrived.tiwin,arrived.flags,arrived.ack,arrived.tlen,fun order => absurd order late⟩
  · exact ⟨arrived.conn,arrived.thAck,arrived.tiwin,arrived.flags,arrived.ack,arrived.tlen,fun order => absurd order late⟩

theorem trimDup_exits (late : th.thSeq ≠ c.rcvNxt) (todrop : Int) : Exits (Gone c) (Arrived c th) (trimDup env w todrop) := by
  unfold trimDup
  split
  · split
    · exact arrived.conn
    refine dropHead_arrived ?_ late w.tlen
    have noted := @Arrived.conn_trans _ {w.c with ackNow := true} _ _ arrived ⟨_,_,_,_,rfl⟩
    exact ⟨noted.conn,noted.thAck,noted.tiwin,noted.flags,noted.ack,noted.tlen,noted.order⟩
  split
  · exact dropafterackRatelim_received arrived.conn
  · exact dropHead_arrived arrived late todrop.toNat

theorem trimHead_exits : Exits (Gone c) (Arrived c th) (trimHead env w) := by
  have next_ : w.c.rcvNxt = c.rcvNxt := by
    obtain ⟨_,_,_,_,conn⟩ := arrived.conn
    rw [conn]
  unfold trimHead
  dsimp only
  split
  · next some_ =>
    have late : th.thSeq ≠ c.rcvNxt := by
      intro order
      rw [(arrived.order order).1,next_,order,diff_self] at some_
      exact absurd some_ (by omega)
    split
    · exact trimDup_exits (dropSyn_arrived arrived late) late _
    · exact trimDup_exits arrived late _
  · exact arrived

theorem afterClose_exits : Exits (Gone c) (Arrived c th) (afterClose env w) := by
  unfold afterClose
  split
  · exact arrived.conn
  · exact arrived

theorem dropTail_arrived (todrop : Nat) : Arrived c th (dropTail w todrop) :=
  ⟨arrived.conn,arrived.thAck,arrived.tiwin,arrived.flags,arrived.ack,Nat.le_trans (Nat.sub_le ..) arrived.tlen,arrived.order⟩

theorem trimWindow_exits : Exits (Gone c) (Arrived c th) (trimWindow w) := by
  unfold trimWindow
  dsimp only
  split
  · split
    · split
      · exact arrived.conn
      split
      · exact dropTail_arrived (arrived.conn_trans ⟨_,_,_,_,rfl⟩) _
      · exact dropafterack_received arrived.conn
    · exact dropTail_arrived arrived _
  · exact arrived

theorem stamp_arrived : Arrived c th (stamp env w) := by
  unfold stamp
  split
  · exact arrived
  split
  · exact arrived.conn_trans (recordTs_received ..)
  · exact arrived

theorem control_exits : Exits (Gone c) (fun w => Arrived c th w ∧ w.ti.ack) (control env w) := by
  unfold control
  split
  · split
    · exact dropafterackRatelim_received arrived.conn
    · exact arrived.conn
  split
  · split
    · exact arrived.conn
    · exact dropafterackRatelim_received arrived.conn
  split
  · split
    · exact dropafterack_received arrived.conn
    · exact arrived.conn
  · next set_ => exact ⟨arrived,by simpa using set_⟩
end

theorem toAck_exits (k : Config) (env : Env) (c : Conn) (th : Segment) : Exits (Gone c) (fun w => Arrived c th w ∧ w.ti.ack) (toAck k env c th) := by
  have start : Arrived c th ⟨window env c,th,th.flags,th.data.length,th.data,false,false⟩ :=
    ⟨⟨_,_,_,_,rfl⟩,rfl,rfl,rfl,rfl,Nat.le_refl _,fun _ => ⟨rfl,rfl⟩⟩
  refine (paws_exits start).bind fun w arrived => ?_
  refine (trimHead_exits arrived).bind fun w arrived => ?_
  refine (afterClose_exits arrived).bind fun w arrived => ?_
  refine (trimWindow_exits arrived).bind fun w arrived => ?_
  exact control_exits (stamp_arrived arrived)

-- A connection after the handshake, which has received n bytes that the user has read.
def received (n : Nat) : Conn where
  tState := .established
  sack := ⟨false,0,0,0,0,[],0,0,[]⟩
  reass := ⟨[],[],0,BitVec.ofNat 32 n,[],false,true⟩
  ackNow := false
  delAck := false
  ecnPermit := false
  ecnSndCwr := false
  ecnSndEce := false
  sndNxt := 0
  sndWl1 := 0
  sndWl2 := 0
  sndRecover := 0
  sndHigh := 0
  sackNewdata := 0
  sndWnd := 65535
  sndCwnd := 65535
  sndSsthresh := 65535
  maxSndwnd := 65535
  sndCc := 0
  tBytesAcked := 0
  tSegsz := 1460
  sndScale := 0
  tDupacks := 0
  tPartialacks := -1
  newreno := true
  rexmt := false
  persist := false
  rcvWnd := 65535
  rcvUp := 0
  rcvAdv := 0
  tsRecent := 0
  tsRecentAge := 0
  lastAckSent := 0
  oobmark := 0
  iobc := none

def sysctls : Config := ⟨⟨32,1024⟩,3,false,false,false,262144,0⟩
def idle : Env := ⟨65535,0,0,false,none,false,false⟩
end NetbsdAvr32.TcpInput
