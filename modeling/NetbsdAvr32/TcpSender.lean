import NetbsdAvr32.TcpArrival
import NetbsdAvr32.TcpSackExact

-- What a segment that acknowledges nothing acceptable does to the sending side.
namespace NetbsdAvr32.TcpInput
open Serial TcpSack TcpReass Bool

structure Sender where
  una : Seq
  nxt : Seq
  max : Seq
  cwnd : ULong
  ssthresh : ULong
  fack : Seq
  partialacks : Int
  dupacks : Int
  holes : List Sackhole
  deriving DecidableEq

def sender (c : Conn) : Sender :=
  ⟨c.sndUna,c.sndNxt,c.sndMax,c.sndCwnd,c.sndSsthresh,c.sndFack,c.tPartialacks,c.tDupacks,c.sack.sndHoles⟩

def noAck (c : Conn) (th : Segment) : Bool := !th.flags.ack || seqGt th.thAck c.sndMax

-- What the holes and the ECN bits make of the connection, as it comes to the tests of the segment.
def tested (k : Config) (env : Env) (c : Conn) (th : Segment) : Conn := (predict k env (ecn (delSackholes c th) th) th).1

def again (c : Conn) (th : Segment) (w : Work) : Bool := w.tlen = 0 && !w.dupseg && th.tiwin = c.sndWnd

-- Neither the holes, nor ECE, nor the ACK processing, where the segment gets there, find anything to change.
structure Harmless (k : Config) (env : Env) (c : Conn) (th : Segment) : Prop where
  holes : c.sack.sackEnabled → ∀ h ∈ c.sack.sndHoles.head?,seqLeq h.stop (lastack c.sack th.hdr) = false ∧ seqLt h.start (lastack c.sack th.hdr) = false
  ece : answered c th → halfWindow c = c.sndCwnd ∧ halfWindow c = c.sndSsthresh
  old : ∀ w,toAck k env (tested k env c th) th = .ok w → seqLeq th.thAck c.sndUna → again c th w → c.tDupacks = 0
  new : ∀ w,toAck k env (tested k env c th) th = .ok w → ¬seqLeq th.thAck c.sndUna → c.tPartialacks < 0 ∧ c.tDupacks = 0

variable {k : Config} {env : Env} {out : Conn → Conn} {c c₁ c' : Conn} {th : Segment} {w : Work}

theorem Received.sender (received : Received c c') : TcpInput.sender c' = TcpInput.sender c ∧ c'.sndWnd = c.sndWnd := by
  obtain ⟨_,_,_,_,same⟩ := received
  subst same
  exact ⟨rfl,rfl⟩

theorem options_ignored (none : noAck c th) : tcpDooptions k c th = .ok c := by
  have every : ∀ optlen,ignored k.lim c.sack th.hdr optlen = true := by
    intro optlen
    unfold noAck at none
    simp only [or_eq_true,not_eq_true'] at none
    rcases none with clear | beyond
    · simp [ignored,Segment.hdr,clear]
    simp only [ignored,Segment.hdr,or_eq_true]
    exact .inr (.inr beyond)
  have fold : ∀ options : List ((Nat → BitVec 8) × Nat),
      options.foldlM (fun sack (o : (Nat → BitVec 8) × Nat) => tcpSackOption k.lim sack th.hdr o.1 o.2) c.sack = .ok c.sack := by
    intro options
    induction options with
    | nil => rfl
    | cons o options ih =>
      have first : tcpSackOption k.lim c.sack th.hdr o.1 o.2 = .ok c.sack := by
        unfold tcpSackOption
        rw [if_pos (every o.2)]
      rw [List.foldlM_cons,first]
      exact ih
  unfold tcpDooptions
  rw [fold]
  rfl

theorem front_noAck (none : noAck c th) : front k c th = .ok (ecn (delSackholes c th) th) := by
  unfold front
  rw [options_ignored none]
  rfl

theorem delHoles_eq_iff (stop : Seq) (holes : List Sackhole) :
    delHoles stop holes = holes ↔ ∀ h ∈ holes.head?,seqLeq h.stop stop = false ∧ seqLt h.start stop = false := by
  cases holes with
  | nil => simp [delHoles]
  | cons cur rest =>
    have short := delHoles_length stop rest
    simp only [List.head?_cons,Option.mem_def,Option.some.injEq,forall_eq']
    rw [delHoles]
    split
    · next closed =>
      constructor
      · intro same
        have length := congrArg List.length same
        simp only [List.length_cons] at length
        omega
      rintro ⟨open_,_⟩
      rw [closed] at open_
      cases open_
    next open_ =>
    split
    · next cut =>
      constructor
      · intro same
        have start : stop = cur.start := congrArg Sackhole.start (List.cons.inj same).1
        rw [← start] at cut
        exact absurd (seqLt_iff.mp cut) (by rw [diff_self]; omega)
      rintro ⟨_,whole⟩
      rw [cut] at whole
      cases whole
    next whole =>
    refine ⟨fun _ => ⟨?_,?_⟩,fun _ => rfl⟩
    · exact eq_false_iff.mpr open_
    · exact eq_false_iff.mpr whole

theorem predict_noAck (env : Env) (none : noAck c th) (valid : seqLeq c.sndUna c.sndMax) : (predict k env c th).2 = .none := by
  have valid := seqLeq_iff.mp valid
  unfold predict
  split
  · next flags =>
    have beyond : diff th.thAck c.sndMax > 0 := by
      have ack : th.flags.ack = true := by
        simp only [predicted,and_eq_true] at flags
        exact flags.1.1.1.1.1.2.2
      simp only [noAck,ack,Bool.not_true,Bool.false_or] at none
      exact seqGt_iff.mp none
    have same := (predictedTs_received env c th).sender.1
    have una : (predictedTs env c th).sndUna = c.sndUna := congrArg Sender.una same
    have max : (predictedTs env c th).sndMax = c.sndMax := congrArg Sender.max same
    dsimp only
    split
    · unfold predictAck
      rw [if_neg]
      simp only [and_eq_true,max]
      intro acks
      have inside := seqLeq_iff.mp acks.1.1.2
      omega
    unfold predictData
    rw [if_neg]
    simp only [and_eq_true,decide_eq_true_eq,una]
    intro data
    rw [data.1.1] at beyond
    omega
  · rfl

theorem dropafterack_sender (w : Work) : sender (dropafterack w).conn = sender w.c := by
  unfold dropafterack
  split
  · rfl
  · rfl

theorem updateWindow_sender (w : Work) : sender (updateWindow w).c = sender w.c := by
  unfold updateWindow
  split
  · rfl
  · rfl

theorem advanceUp_sender (env : Env) (w : Work) : sender (advanceUp env w).c = sender w.c := by
  unfold advanceUp
  dsimp only
  split
  · rfl
  · rfl

theorem urgent_sender (k : Config) (env : Env) (w : Work) : sender (urgent k env w).c = sender w.c := by
  unfold urgent
  split
  · split
    · rfl
    split
    · exact advanceUp_sender env w
    · exact advanceUp_sender env w
  split
  · rfl
  · rfl

theorem setupAck_sender (k : Config) (c : Conn) (th : Segment) : sender (setupAck k c th) = sender c := by
  unfold setupAck
  split
  · rfl
  · rfl

theorem dodata_sender (k : Config) (env : Env) (w : Work) : sender (dodata k env w).c = sender w.c := by
  unfold dodata
  split
  · split
    · exact setupAck_sender k w.c w.th
    · rfl
  · rfl

theorem finState_sender (c : Conn) : sender (finState c) = sender c := by
  unfold finState
  split
  · rfl
  · rfl
  · rfl
  · rfl

theorem acceptFin_sender (w : Work) : sender (acceptFin w).c = sender w.c := by
  unfold acceptFin
  split
  · refine (finState_sender _).trans ?_
    unfold takeFin
    split
    · rfl
    · rfl
  · rfl

theorem step6_sender (k : Config) (env : Env) (w : Work) : sender (step6 k env w).conn = sender w.c :=
  (acceptFin_sender _).trans ((dodata_sender ..).trans ((urgent_sender ..).trans (updateWindow_sender w)))

theorem newackOf_partialacks (frame : ∀ c,(out c).tPartialacks = c.tPartialacks) (recovery : 0 ≤ c.tPartialacks) :
    (newackOf out c th).tPartialacks ≠ c.tPartialacks := by
  unfold newackOf
  split
  · unfold tcpSackNewack
    rw [if_neg (by omega)]
    split
    · rw [frame]
      dsimp only
      omega
    dsimp only
    split
    · dsimp only [completeAck]
      omega
    dsimp only [completeAck]
    omega
  unfold fastRetransmitNewack
  rw [if_neg (by omega)]
  split
  · dsimp only
    omega
  split
  · rw [frame]
    dsimp only
    omega
  dsimp only [completeAck]
  omega

theorem newackOf_idle (idle : c.tPartialacks < 0) : newackOf out c th = {c with tDupacks := 0} := by
  unfold newackOf
  split
  · unfold tcpSackNewack
    rw [if_pos idle]
  unfold fastRetransmitNewack
  rw [if_pos idle]

theorem newack_partialacks (k : Config) (c : Conn) (th : Segment) : (newack k c th).tPartialacks = c.tPartialacks := by
  unfold newack
  split
  · rfl
  unfold renoNewack
  dsimp only
  split
  · split
    · split
      · rfl
      · rfl
    · rfl
  · rfl

theorem drain_partialacks (c : Conn) (th : Segment) : (drain c th).1.tPartialacks = c.tPartialacks := by
  unfold drain
  dsimp only
  split
  · rfl
  · rfl

theorem finAcked_partialacks (w : Work) (fin : Bool) :
    Exits (fun v => v.conn.tPartialacks = w.c.tPartialacks) (fun w' => w'.c.tPartialacks = w.c.tPartialacks) (finAcked w fin) := by
  unfold finAcked
  split
  · cases fin
    · rfl
    · rfl
  · cases fin
    · rfl
    · rfl
  · cases fin
    · rfl
    · rfl
  · exact congrArg Sender.partialacks (dropafterack_sender w)
  · rfl

theorem delSackholes_cases (c : Conn) (th : Segment) : (c.sack.sackEnabled = false ∧ delSackholes c th = c) ∨
    (c.sack.sackEnabled = true ∧ delSackholes c th = {c with sack := tcpDelSackholes c.sack th.hdr}) := by
  unfold delSackholes
  cases c.sack.sackEnabled with
  | false => exact .inl ⟨rfl,rfl⟩
  | true => exact .inr ⟨rfl,rfl⟩

theorem delSackholes_answered (c : Conn) (th : Segment) : answered (delSackholes c th) th = answered c th ∧ halfWindow (delSackholes c th) = halfWindow c := by
  rcases delSackholes_cases c th with ⟨_,same⟩ | ⟨_,same⟩
  · rw [same]
    exact ⟨rfl,rfl⟩
  rw [same]
  exact ⟨rfl,rfl⟩

theorem tested_sender (k : Config) (env : Env) (c : Conn) (th : Segment) : ∃ holes cwnd ssthresh,
    sender (tested k env c th) = {sender c with holes := holes,cwnd := cwnd,ssthresh := ssthresh} ∧ (tested k env c th).sndWnd = c.sndWnd ∧
      (holes = c.sack.sndHoles ↔ (c.sack.sackEnabled → ∀ h ∈ c.sack.sndHoles.head?,seqLeq h.stop (lastack c.sack th.hdr) = false ∧ seqLt h.start (lastack c.sack th.hdr) = false)) ∧
        (cwnd = c.sndCwnd ∧ ssthresh = c.sndSsthresh ↔ (answered c th → halfWindow c = c.sndCwnd ∧ halfWindow c = c.sndSsthresh)) := by
  obtain ⟨later,wnd⟩ := (predict_received k env (ecn (delSackholes c th) th) th).sender
  obtain ⟨same,half_⟩ := delSackholes_answered c th
  have holes : ∃ holes,sender (delSackholes c th) = {sender c with holes := holes} ∧ (delSackholes c th).sndWnd = c.sndWnd ∧
      (holes = c.sack.sndHoles ↔ (c.sack.sackEnabled → ∀ h ∈ c.sack.sndHoles.head?,seqLeq h.stop (lastack c.sack th.hdr) = false ∧ seqLt h.start (lastack c.sack th.hdr) = false)) := by
    rcases delSackholes_cases c th with ⟨off,done⟩ | ⟨on,done⟩
    · refine ⟨c.sack.sndHoles,?_,?_,?_⟩
      · rw [done]
        rfl
      · rw [done]
      · simp [off]
    refine ⟨delHoles (lastack c.sack th.hdr) c.sack.sndHoles,?_,?_,?_⟩
    · rw [done]
      rfl
    · rw [done]
    rw [delHoles_eq_iff]
    exact ⟨fun all _ => all,fun all => all on⟩
  obtain ⟨holes,cut,cutWnd,exact_⟩ := holes
  unfold tested
  obtain ⟨ece,⟨not_,marked⟩ | ⟨now,congested⟩⟩ := ecn_cases (delSackholes c th) th
  · rw [same] at not_
    refine ⟨holes,c.sndCwnd,c.sndSsthresh,?_,?_,exact_,?_⟩
    · rw [later,marked]
      exact cut
    · rw [wnd,marked]
      exact cutWnd
    · simp [not_]
  rw [same] at now
  refine ⟨holes,halfWindow c,halfWindow c,?_,?_,exact_,?_⟩
  · rw [later,congested]
    refine (congrArg (fun s : Sender => {s with cwnd := halfWindow (delSackholes c th),ssthresh := halfWindow (delSackholes c th)}) cut).trans ?_
    rw [half_]
  · rw [wnd,congested]
    exact cutWnd
  · simp [now]

theorem dupAck_again (away : w.th.thAck ≠ w.c.sndUna) (dup : again w.c w.th w) : dupAck k out w = .ok {w with c := {w.c with tDupacks := 0}} := by
  unfold again at dup
  unfold dupAck
  rw [if_pos dup,if_pos (by simp [away])]

theorem dupAck_other (other : ¬again w.c w.th w) :
    Exits (fun v => sender v.conn = sender w.c) (fun w' => sender w'.c = sender w.c) (dupAck k out w) := by
  unfold again at other
  unfold dupAck
  rw [if_neg other]
  split
  · exact dropafterack_sender w
  · rfl

theorem ackProcessing_partialacks (frame : ∀ c,(out c).tPartialacks = c.tPartialacks) (recovery : 0 ≤ w.c.tPartialacks) (new : ¬seqLeq w.th.thAck w.c.sndUna) :
    Exits (fun v => v.conn.tPartialacks ≠ w.c.tPartialacks) (fun w' => w'.c.tPartialacks ≠ w.c.tPartialacks) (ackProcessing k out w) := by
  have changed := @newackOf_partialacks out w.c w.th frame recovery
  unfold ackProcessing
  rw [if_neg new]
  dsimp only
  split
  · have same := congrArg Sender.partialacks (dropafterack_sender {w with c := newackOf out w.c w.th})
    exact fun equal => changed (same.symm.trans equal)
  have kept := (drain_partialacks (newack k (ackTimer (newackOf out w.c w.th) w.th) w.th) w.th).trans (newack_partialacks k _ w.th)
  generalize drain (newack k (ackTimer (newackOf out w.c w.th) w.th) w.th) w.th = drained at kept ⊢
  refine (finAcked_partialacks _ drained.2).mono (fun v same equal => changed ?_) fun w' same equal => changed ?_
  · exact kept.symm.trans (same.symm.trans equal)
  · exact kept.symm.trans (same.symm.trans equal)

theorem ackProcessing_beyond (idle : w.c.tPartialacks < 0) (new : ¬seqLeq w.th.thAck w.c.sndUna) (beyond : seqGt w.th.thAck w.c.sndMax) :
    ackProcessing k out w = .error (dropafterack {w with c := {w.c with tDupacks := 0}}) := by
  unfold ackProcessing
  rw [if_neg new,newackOf_idle idle]
  rw [if_pos beyond]

theorem general_eq (k : Config) (env : Env) (out : Conn → Conn) (c : Conn) (th : Segment) : general k env out c th = match toAck k env c th with
    | .error v => v
    | .ok w => match ackProcessing k out w with
      | .error v => v
      | .ok w => step6 k env w := by
  unfold general toStep6
  cases toAck k env c th with
  | error v => rfl
  | ok w => rfl

theorem general_cases (frame : ∀ c,(out c).tPartialacks = c.tPartialacks) (none : noAck c th) (valid : seqLeq c.sndUna c.sndMax) :
    (sender (general k env out c th).conn = sender c ∧ ∀ w,toAck k env c th = .ok w → seqLeq th.thAck c.sndUna ∧ ¬again c th w) ∨
    (sender (general k env out c th).conn = {sender c with dupacks := 0} ∧
      ∃ w,toAck k env c th = .ok w ∧ (seqLeq th.thAck c.sndUna ∧ again c th w ∨ ¬seqLeq th.thAck c.sndUna ∧ c.tPartialacks < 0)) ∨
    ((general k env out c th).conn.tPartialacks ≠ c.tPartialacks ∧ 0 ≤ c.tPartialacks ∧ ∃ w,toAck k env c th = .ok w ∧ ¬seqLeq th.thAck c.sndUna) := by
  have way := toAck_exits k env c th
  have path := general_eq k env out c th
  cases reached : toAck k env c th with
  | error v =>
    rw [reached] at path
    refine .inl ⟨?_,fun w on => absurd on (by simp)⟩
    rw [path]
    exact (way.error reached).sender.1
  | ok w =>
    obtain ⟨arrived,ack⟩ := way.ok reached
    obtain ⟨same,wnd⟩ := arrived.conn.sender
    have una : w.c.sndUna = c.sndUna := congrArg Sender.una same
    have max : w.c.sndMax = c.sndMax := congrArg Sender.max same
    have partialacks : w.c.tPartialacks = c.tPartialacks := congrArg Sender.partialacks same
    have dup : again w.c w.th w = again c th w := by
      unfold again
      rw [arrived.tiwin,wnd]
    have beyond : seqGt th.thAck c.sndMax = true := by
      have flag : th.flags.ack = true := arrived.ack.symm.trans ack
      simp only [noAck,flag,Bool.not_true,Bool.false_or] at none
      exact none
    have away : w.th.thAck ≠ w.c.sndUna := by
      intro equal
      have far := seqGt_iff.mp beyond
      have near := seqLeq_iff.mp valid
      rw [← arrived.thAck,equal,una] at far
      omega
    rw [reached] at path
    dsimp only at path
    by_cases old : seqLeq th.thAck c.sndUna
    · have processing : ackProcessing k out w = dupAck k out w := by
        unfold ackProcessing
        rw [if_pos (by rw [arrived.thAck,una]; exact old)]
      by_cases comes : again c th w = true
      · rw [processing,dupAck_again away (dup.trans comes)] at path
        refine .inr (.inl ⟨?_,w,rfl,.inl ⟨old,comes⟩⟩)
        rw [path]
        refine (step6_sender k env _).trans ?_
        exact congrArg (fun s : Sender => {s with dupacks := 0}) same
      refine .inl ⟨?_,fun w' on => ?_⟩
      · have other := @dupAck_other k out w (by rw [dup]; exact comes)
        rw [processing] at path
        cases result : dupAck k out w with
        | error v =>
          rw [result] at path
          rw [path]
          exact (other.error result).trans same
        | ok w' =>
          rw [result] at path
          rw [path]
          exact (step6_sender k env w').trans ((other.ok result).trans same)
      cases on
      exact ⟨old,comes⟩
    have new : ¬seqLeq w.th.thAck w.c.sndUna := by
      rw [arrived.thAck,una]
      exact old
    by_cases idle : c.tPartialacks < 0
    · rw [ackProcessing_beyond (by rw [partialacks]; exact idle) new (by rw [arrived.thAck,max]; exact beyond)] at path
      refine .inr (.inl ⟨?_,w,rfl,.inr ⟨old,idle⟩⟩)
      rw [path]
      refine (dropafterack_sender _).trans ?_
      exact congrArg (fun s : Sender => {s with dupacks := 0}) same
    have changed := @ackProcessing_partialacks k out w frame (by rw [partialacks]; omega) new
    refine .inr (.inr ⟨?_,by omega,w,rfl,old⟩)
    cases result : ackProcessing k out w with
    | error v =>
      rw [result] at path
      rw [path,← partialacks]
      exact changed.error result
    | ok w' =>
      rw [result] at path
      rw [path,← partialacks]
      intro equal
      exact changed.ok result ((congrArg Sender.partialacks (step6_sender k env w')).symm.trans equal)

theorem sender_with_iff {holes : List Sackhole} {cwnd ssthresh : ULong} {dupacks : Int} :
    {sender c with holes := holes,cwnd := cwnd,ssthresh := ssthresh,dupacks := dupacks} = sender c ↔
      holes = c.sack.sndHoles ∧ (cwnd = c.sndCwnd ∧ ssthresh = c.sndSsthresh) ∧ dupacks = c.tDupacks := by
  constructor
  · intro equal
    exact ⟨congrArg Sender.holes equal,⟨congrArg Sender.cwnd equal,congrArg Sender.ssthresh equal⟩,congrArg Sender.dupacks equal⟩
  rintro ⟨rfl,⟨rfl,rfl⟩,rfl⟩
  rfl

-- A segment without an acceptable ACK leaves the sending side alone if and only if it is harmless.
theorem sender_exact (k : Config) (env : Env) (out : Conn → Conn) (c : Conn) (th : Segment) (frame : ∀ c,(out c).tPartialacks = c.tPartialacks)
    (valid : seqLeq c.sndUna c.sndMax) (none : noAck c th) :
    (∃ v,tcpInput k env out c th = .ok v ∧ sender v.conn = sender c) ↔ Harmless k env c th := by
  obtain ⟨holes,cwnd,ssthresh,same,wnd,holes_iff,window_iff⟩ := tested_sender k env c th
  have tests : sender (tested k env c th) = sender (ecn (delSackholes c th) th) := (predict_received ..).sender.1
  have una : (tested k env c th).sndUna = c.sndUna := congrArg Sender.una same
  have max : (tested k env c th).sndMax = c.sndMax := congrArg Sender.max same
  have una' : (ecn (delSackholes c th) th).sndUna = c.sndUna := (congrArg Sender.una tests).symm.trans una
  have max' : (ecn (delSackholes c th) th).sndMax = c.sndMax := (congrArg Sender.max tests).symm.trans max
  have ran : tcpInput k env out c th = .ok (general k env out (tested k env c th) th) := by
    refine tcpInput_general (front_noAck none) (Prod.ext rfl ?_)
    exact predict_noAck env (by rw [noAck,max']; exact none) (by rw [una',max']; exact valid)
  have cases := @general_cases k env out (tested k env c th) th frame (by rw [noAck,max]; exact none) (by rw [una,max]; exact valid)
  have dup : ∀ w,again (tested k env c th) th w = again c th w := fun w => by
    unfold again
    rw [wnd]
  have whole : (∃ v,tcpInput k env out c th = .ok v ∧ sender v.conn = sender c) ↔ sender (general k env out (tested k env c th) th).conn = sender c := by
    rw [ran]
    constructor
    · rintro ⟨v,equal,kept⟩
      cases equal
      exact kept
    · intro kept
      exact ⟨_,rfl,kept⟩
  have partialacks : (tested k env c th).tPartialacks = c.tPartialacks := congrArg Sender.partialacks same
  rw [whole]
  simp only [dup,una,partialacks] at cases
  rcases cases with ⟨kept,alone⟩ | ⟨cleared,w,on,which⟩ | ⟨changed,recovery,w,on,new⟩
  · rw [kept,same]
    have exact_ := @sender_with_iff c holes cwnd ssthresh c.tDupacks
    constructor
    · intro equal
      obtain ⟨h,window,_⟩ := exact_.mp equal
      exact ⟨holes_iff.mp h,window_iff.mp window,fun w on _ comes => absurd comes (alone w on).2,fun w on new => absurd (alone w on).1 new⟩
    · rintro ⟨h,window,_,_⟩
      exact exact_.mpr ⟨holes_iff.mpr h,window_iff.mpr window,rfl⟩
  · rw [cleared,same]
    have exact_ := @sender_with_iff c holes cwnd ssthresh 0
    constructor
    · intro equal
      obtain ⟨h,window,zero⟩ := exact_.mp equal
      refine ⟨holes_iff.mp h,window_iff.mp window,fun _ _ _ _ => zero.symm,fun w' on' new => ⟨?_,zero.symm⟩⟩
      rcases which with ⟨old,_⟩ | ⟨_,idle⟩
      · exact absurd old new
      · exact idle
    · rintro ⟨h,window,old,new⟩
      refine exact_.mpr ⟨holes_iff.mpr h,window_iff.mpr window,?_⟩
      rcases which with ⟨before,comes⟩ | ⟨after,_⟩
      · exact (old w on before comes).symm
      · exact (new w on after).2.symm
  · constructor
    · intro equal
      exact absurd (congrArg Sender.partialacks equal) changed
    · intro harmless
      have idle := (harmless.new w on new).1
      omega

-- 1000 bytes are out, of which the peer holds 100 behind the first hole.
def holding : Conn := {received 0 with sack := ⟨true,0,1000,300,300,[⟨100,200,100⟩],1,1,[]⟩,sndNxt := 1000,sndCc := 1000,rexmt := true}
def forged (thAck : Seq) : Segment := ⟨0,thAck,⟨false,false,false,false,false,false,false,false⟩,65535,0,[],none,[],false⟩

theorem sender_holes_lost : ¬∀ (k : Config) (env : Env) (out : Conn → Conn) (c : Conn) (th : Segment),(∀ c,(out c).tPartialacks = c.tPartialacks) →
    seqLeq c.sndUna c.sndMax → noAck c th → ∃ v,tcpInput k env out c th = .ok v ∧ sender v.conn = sender c := by
  intro claim
  obtain ⟨v,ran,kept⟩ := claim sysctls idle id holding (forged 500) (fun _ => rfl) (by decide +kernel) (by decide +kernel)
  have lost : (tcpInput sysctls idle id holding (forged 500)).toOption.map (fun v => sender v.conn) ≠ some (sender holding) := by decide +kernel
  rw [ran] at lost
  exact lost (congrArg some kept)

theorem sender_exact_forged : (∃ v,tcpInput sysctls idle id holding (forged 50) = .ok v ∧ sender v.conn = sender holding) ↔
    Harmless sysctls idle holding (forged 50) :=
  sender_exact sysctls idle id holding (forged 50) (fun _ => rfl) (by decide +kernel) (by decide +kernel)
end NetbsdAvr32.TcpInput
