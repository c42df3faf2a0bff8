import NetbsdAvr32.TcpAck

-- The points that the window update and the urgent pointer compare with, on runs of in-order
-- segments of an established connection.
namespace NetbsdAvr32.TcpInput
open Serial TcpSack TcpReass Reass

structure Sound (c : Conn) : Prop where
  wl1 : seqLeq c.sndWl1 c.rcvNxt
  wl2 : seqLeq c.sndWl2 c.sndUna
  up : seqLeq c.rcvNxt (c.rcvUp + 1073741824)

-- The segment starts at rcv_nxt. A datagram has at most IP_MAXPACKET bytes.
structure InOrder (c : Conn) (th : Segment) : Prop where
  next : th.thSeq = c.rcvNxt
  size : th.data.length ≤ 65535

def fast (k : Config) (env : Env) (c : Conn) (th : Segment) : Bool := (predict k env c th).2.isSome

-- The urgent pointer is beyond what the socket buffer can hold, and step6 leaves the segment.
def tooUrgent (k : Config) (env : Env) (th : Segment) : Bool := th.flags.urg && th.urp ≠ 0 && th.urp.toNat + env.rcvCc > k.sbMax
def seqLen (th : Segment) : Nat := th.data.length + if th.flags.fin then 1 else 0

-- Where the points are not pulled along, they are still near enough after the segment.
structure Near (k : Config) (env : Env) (c : Conn) (th : Segment) : Prop where
  wl1 : fast k env c th → -half ≤ diff c.sndWl1 c.rcvNxt - seqLen th
  wl2 : fast k env c th ∨ c.sndWl1 = th.thSeq → seqGt th.thAck c.sndUna → seqLeq c.sndWl2 th.thAck
  up : fast k env c th ∨ tooUrgent k env th → diff c.rcvNxt (c.rcvUp + 1073741824) + seqLen th ≤ 0

inductive Run (k : Config) (out : Conn → Conn) (meets : Env → Conn → Segment → Prop) (start : Conn) : Conn → Prop where
  | start : Run k out meets start start
  | segment {c c' : Conn} {env : Env} {th : Segment} {output : Bool} : Run k out meets start c → c.tState = .established → InOrder c th → meets env c th →
      tcpInput k env out c th = .ok (.ret c' output) → Run k out meets start c'
  | other {c c' : Conn} : Run k out meets start c → c'.sndUna = c.sndUna → c'.sndWl1 = c.sndWl1 → c'.sndWl2 = c.sndWl2 → c'.rcvNxt = c.rcvNxt →
      c'.reass.segq = c.reass.segq → c'.rcvUp = c.rcvUp → Run k out meets start c'

structure Inv (c : Conn) : Prop where
  wl1 : diff c.sndWl1 c.rcvNxt ≤ 0
  wl2 : diff c.sndWl2 c.sndUna ≤ 0
  up : -1073741824 ≤ diff c.rcvNxt c.rcvUp ∧ diff c.rcvNxt c.rcvUp ≤ 1073741824
  segq : c.reass.segq = []

variable {k : Config} {env : Env} {out : Conn → Conn} {start c c₁ c' : Conn} {th : Segment} {w : Work}

theorem far_diff (a b : Seq) : ∃ k : Int,diff a (b + 1073741824) = diff a b - 1073741824 + 4294967296 * k := by
  have step : diff (b + 1073741824) b = 1073741824 := by
    have forward := @diff_forward b b 1073741824 (by rw [diff_self]; unfold half; omega) (by rw [diff_self]; unfold half; omega)
    rw [diff_self,Int.zero_add] at forward
    exact forward
  obtain ⟨k,add⟩ := diff_add a (b + 1073741824) b
  rw [step] at add
  exact ⟨k,add⟩

variable {a b : Seq} {output : Bool} {v : Verdict}

theorem far_iff : diff a (b + 1073741824) ≤ 0 ↔ -1073741824 ≤ diff a b ∧ diff a b ≤ 1073741824 := by
  obtain ⟨k,add⟩ := far_diff a b
  obtain ⟨low,high⟩ := diff_bounds a b
  obtain ⟨low',high'⟩ := diff_bounds a (b + 1073741824)
  unfold half at *
  constructor
  · intro below
    omega
  rintro ⟨one,two⟩
  omega

theorem far_eq (below : diff a (b + 1073741824) ≤ 0) : diff a (b + 1073741824) = diff a b - 1073741824 := by
  obtain ⟨k,add⟩ := far_diff a b
  obtain ⟨low,high⟩ := far_iff.mp below
  obtain ⟨low',high'⟩ := diff_bounds a (b + 1073741824)
  unfold half at *
  omega

theorem Sound.inv (sound : Sound c) (empty : c.reass.segq = []) : Inv c :=
  ⟨seqLeq_iff.mp sound.wl1,seqLeq_iff.mp sound.wl2,far_iff.mp (seqLeq_iff.mp sound.up),empty⟩

theorem Inv.sound (inv : Inv c) : Sound c :=
  ⟨seqLeq_iff.mpr inv.wl1,seqLeq_iff.mpr inv.wl2,seqLeq_iff.mpr (far_iff.mpr inv.up)⟩

theorem Kept.inv (kept : Kept c c') (inv : Inv c) : Inv c' := by
  obtain ⟨_,una,wl1,wl2,reass,up⟩ := kept
  refine ⟨?_,?_,?_,?_⟩
  · rw [wl1,Conn.rcvNxt,reass]
    exact inv.wl1
  · rw [wl2,una]
    exact inv.wl2
  · rw [up,Conn.rcvNxt,reass]
    exact inv.up
  rw [reass]
  exact inv.segq

structure Reached (c : Conn) (th : Segment) (w : Work) : Prop where
  tState : w.c.tState = c.tState
  wl1 : w.c.sndWl1 = c.sndWl1
  wl2 : w.c.sndWl2 = c.sndWl2
  reass : w.c.reass = c.reass
  up : w.c.rcvUp = c.rcvUp
  same : w.th = th
  tlen : w.tlen ≤ th.data.length
  urg : w.ti.urg = th.flags.urg
  ack : w.ti.ack
  una : (diff th.thAck c.sndUna ≤ 0 ∧ w.c.sndUna = c.sndUna ∧ w.c.sndWnd = c.sndWnd) ∨ (diff th.thAck c.sndUna > 0 ∧ w.c.sndUna = th.thAck)

theorem Acked.reached {before : Work} (acked : Acked c before w) (order : InOrder c th) (arrived : Arrived c th before) (ack : before.ti.ack) : Reached c th w := by
  obtain ⟨same,urg⟩ := arrived.order order.next
  have una := acked.una
  rw [same] at una
  exact ⟨acked.tState,acked.wl1,acked.wl2,acked.reass,acked.up,acked.th.trans same,by rw [acked.tlen]; exact arrived.tlen,by rw [acked.ti]; exact urg,by rw [acked.ti]; exact ack,una⟩

theorem toStep6_reached (frame : ∀ c,Kept c (out c)) (established : c.tState = .established) (order : InOrder c th) :
    Exits (Left c) (Reached c th) (toStep6 k env out c th) :=
  (toStep6_exits frame established).mono (fun _ left => left) fun _ ⟨_,_,arrived,ack,acked⟩ => acked.reached order arrived ack

theorem eq_of_diff (zero : diff a b = 0) : a = b := diff_inj (zero.trans (diff_self b).symm)

theorem Reached.behind (acked : Reached c th w) (inv : Inv c) (order : InOrder c th) : diff w.c.sndWl1 w.th.thSeq ≤ 0 := by
  rw [acked.wl1,acked.same,order.next]
  exact inv.wl1

theorem Reached.newer (acked : Reached c th w) (inv : Inv c) (order : InOrder c th) (near : c.sndWl1 = th.thSeq → seqGt th.thAck c.sndUna → seqLeq c.sndWl2 th.thAck)
    (sequence : seqGeq th.thAck c.sndUna) (larger : th.tiwin > c.sndWnd) : newerWindow w.c w.th := by
  have behind := acked.behind inv order
  rw [acked.wl1,acked.same] at behind
  have sequence := seqGeq_iff.mp sequence
  unfold newerWindow
  rw [acked.wl1,acked.wl2,acked.same]
  by_cases before : diff c.sndWl1 th.thSeq < 0
  · simp [seqLt_iff.mpr before]
  have here : c.sndWl1 = th.thSeq := eq_of_diff (by omega)
  rcases acked.una with ⟨old,_,wnd⟩ | ⟨new,_⟩
  · have at_ : th.thAck = c.sndUna := eq_of_diff (by omega)
    have wl2 := inv.wl2
    rw [← at_] at wl2
    by_cases less : diff c.sndWl2 th.thAck < 0
    · simp [here,seqLt_iff.mpr less]
    have equal : c.sndWl2 = th.thAck := eq_of_diff (by omega)
    rw [wnd]
    simp [here,equal,larger]
  have wl2 := seqLeq_iff.mp (near here (seqGt_iff.mpr new))
  by_cases less : diff c.sndWl2 th.thAck < 0
  · simp [here,seqLt_iff.mpr less]
  have equal : c.sndWl2 = th.thAck := eq_of_diff (by omega)
  have wl2 := inv.wl2
  rw [equal] at wl2
  omega

structure Updated (c : Conn) (th : Segment) (w : Work) : Prop where
  tState : w.c.tState = c.tState
  wl1 : w.c.sndWl1 = c.rcvNxt
  wl2 : diff w.c.sndWl2 w.c.sndUna ≤ 0
  reass : w.c.reass = c.reass
  thSeq : w.th.thSeq = c.rcvNxt
  flags : w.th.flags = th.flags
  tlen : w.tlen ≤ th.data.length

theorem updateWindow_updated (acked : Reached c th w) (inv : Inv c) (order : InOrder c th)
    (near : c.sndWl1 = th.thSeq → seqGt th.thAck c.sndUna → seqLeq c.sndWl2 th.thAck) : Updated c th (updateWindow w) := by
  have behind := acked.behind inv order
  unfold updateWindow
  split
  · refine ⟨acked.tState,?_,?_,acked.reass,?_,?_,acked.tlen⟩
    · exact (congrArg Segment.thSeq acked.same).trans order.next
    · rw [acked.same]
      rcases acked.una with ⟨old,una,_⟩ | ⟨_,una⟩
      · rw [una]
        exact old
      · rw [una,diff_self]
    · exact (congrArg Segment.thSeq acked.same).trans order.next
    · exact congrArg Segment.flags acked.same
  next older =>
  rw [acked.ack] at older
  have here : w.c.sndWl1 = w.th.thSeq := by
    refine eq_of_diff (by_contra fun apart => older ?_)
    have before : diff w.c.sndWl1 w.th.thSeq < 0 := by omega
    simp [newerWindow,seqLt_iff.mpr before]
  have place : w.th.thSeq = c.rcvNxt := (congrArg Segment.thSeq acked.same).trans order.next
  refine ⟨acked.tState,here.trans place,?_,acked.reass,place,congrArg Segment.flags acked.same,acked.tlen⟩
  rw [acked.wl2]
  rcases acked.una with ⟨_,una,_⟩ | ⟨new,una⟩
  · rw [una]
    exact inv.wl2
  rw [una]
  refine seqLeq_iff.mp (near ?_ (seqGt_iff.mpr new))
  rw [← acked.wl1,here,acked.same]

theorem advanceUp_updated (updated : Updated c th w) (low : -1073741824 ≤ diff c.rcvNxt w.c.rcvUp) (high : diff c.rcvNxt w.c.rcvUp ≤ 1073741824) :
    Updated c th (advanceUp env w) ∧ -1073741824 ≤ diff c.rcvNxt (advanceUp env w).c.rcvUp ∧ diff c.rcvNxt (advanceUp env w).c.rcvUp ≤ 0 := by
  have wide : w.th.urp.setWidth 32 = BitVec.ofNat 32 w.th.urp.toNat := by
    apply BitVec.eq_of_toNat_eq
    simp
  unfold advanceUp
  dsimp only
  rw [updated.thSeq,wide]
  split
  · have ahead : diff c.rcvNxt (c.rcvNxt + BitVec.ofNat 32 w.th.urp.toNat) = diff c.rcvNxt c.rcvNxt - w.th.urp.toNat := by
      refine diff_backward ?_ ?_
      · rw [diff_self]
        unfold half
        omega
      rw [diff_self]
      unfold half
      omega
    rw [diff_self] at ahead
    refine ⟨⟨updated.tState,updated.wl1,updated.wl2,updated.reass,updated.thSeq,updated.flags,updated.tlen⟩,?_,?_⟩
    · dsimp only
      omega
    dsimp only
    omega
  next known =>
  have moved : diff (c.rcvNxt + BitVec.ofNat 32 w.th.urp.toNat) w.c.rcvUp = diff c.rcvNxt w.c.rcvUp + w.th.urp.toNat := by
    refine diff_forward ?_ ?_
    · unfold half
      omega
    unfold half
    omega
  have behind : ¬diff (c.rcvNxt + BitVec.ofNat 32 w.th.urp.toNat) w.c.rcvUp > 0 := fun more => known (seqGt_iff.mpr more)
  exact ⟨updated,low,by omega⟩

theorem pulloutofband_updated (updated : Updated c th w) : Updated c th (pulloutofband w) :=
  ⟨updated.tState,updated.wl1,updated.wl2,updated.reass,updated.thSeq,updated.flags,updated.tlen⟩

theorem urgent_updated (updated : Updated c th w) (urp : w.th.urp = th.urp) (urg : w.ti.urg = th.flags.urg) (up : w.c.rcvUp = c.rcvUp) (inv : Inv c) :
    Updated c th (urgent k env w) ∧ -1073741824 ≤ diff c.rcvNxt (urgent k env w).c.rcvUp ∧
      ((urgent k env w).c.rcvUp = c.rcvUp ∧ tooUrgent k env th ∨ diff c.rcvNxt (urgent k env w).c.rcvUp ≤ 0) := by
  obtain ⟨low,high⟩ := inv.up
  rw [← up] at low high
  have advanced := @advanceUp_updated env _ _ _ updated low high
  unfold urgent
  split
  · next some_ =>
    split
    · next much =>
      refine ⟨⟨updated.tState,updated.wl1,updated.wl2,updated.reass,updated.thSeq,updated.flags,updated.tlen⟩,low,.inl ⟨up,?_⟩⟩
      simp only [Bool.and_eq_true,decide_eq_true_eq] at some_
      rw [urg,urp] at some_
      rw [urp] at much
      simp only [tooUrgent,Bool.and_eq_true,decide_eq_true_eq]
      exact ⟨some_.1,much⟩
    split
    · exact ⟨pulloutofband_updated advanced.1,advanced.2.1,.inr advanced.2.2⟩
    · exact ⟨advanced.1,advanced.2.1,.inr advanced.2.2⟩
  have next_ : w.c.rcvNxt = c.rcvNxt := congrArg rcvNxt updated.reass
  split
  · refine ⟨⟨updated.tState,updated.wl1,updated.wl2,updated.reass,updated.thSeq,updated.flags,updated.tlen⟩,?_,.inr ?_⟩
    · rw [next_,diff_self]
      decide
    · rw [next_,diff_self]
  next behind =>
  rw [next_] at behind
  have ahead : ¬diff c.rcvNxt w.c.rcvUp > 0 := fun more => behind (seqGt_iff.mpr more)
  exact ⟨updated,low,.inr (by omega)⟩

structure Moved (w w' : Work) (n : Nat) : Prop where
  una : w'.c.sndUna = w.c.sndUna
  wl1 : w'.c.sndWl1 = w.c.sndWl1
  wl2 : w'.c.sndWl2 = w.c.sndWl2
  next : w'.c.rcvNxt = w.c.rcvNxt + BitVec.ofNat 32 n
  segq : w'.c.reass.segq = w.c.reass.segq
  up : w'.c.rcvUp = w.c.rcvUp

theorem Moved.none {w w' : Work} (una : w'.c.sndUna = w.c.sndUna) (wl1 : w'.c.sndWl1 = w.c.sndWl1) (wl2 : w'.c.sndWl2 = w.c.sndWl2)
    (reass : w'.c.reass = w.c.reass) (up : w'.c.rcvUp = w.c.rcvUp) : Moved w w' 0 := by
  refine ⟨una,wl1,wl2,?_,congrArg Reass.segq reass,up⟩
  have next_ : w'.c.rcvNxt = w.c.rcvNxt := congrArg rcvNxt reass
  rw [next_]
  simp

theorem sbappendstream_rcvNxt (r : Reass) (data : List UInt8) : (sbappendstream r data).rcvNxt = r.rcvNxt ∧ (sbappendstream r data).segq = r.segq := by
  unfold sbappendstream
  split
  · exact ⟨rfl,rfl⟩
  · exact ⟨rfl,rfl⟩

theorem dodata_moved (updated : Updated c th w) (established : c.tState = .established) (empty : c.reass.segq = []) :
    Moved w (dodata k env w) w.tlen ∧ ((dodata k env w).ti.fin → th.flags.fin) ∧ (dodata k env w).c.tState = .established := by
  have tState : w.c.tState = .established := updated.tState.trans established
  have open_ : w.c.tState.haveRcvdFin = false := by
    rw [tState]
    rfl
  have inline : (decide (w.th.thSeq = w.c.rcvNxt) && w.c.reass.segq.isEmpty && decide (w.c.tState = .established)) = true := by
    have place : w.th.thSeq = w.c.rcvNxt := updated.thSeq.trans (congrArg rcvNxt updated.reass).symm
    have segq : w.c.reass.segq = [] := (congrArg segq updated.reass).trans empty
    rw [segq]
    simp [place,tState]
  unfold dodata
  rw [open_,inline]
  split
  · have ack := setupAck_kept k w.c w.th
    obtain ⟨next_,segq⟩ := sbappendstream_rcvNxt {(setupAck k w.c w.th).reass with rcvNxt := (setupAck k w.c w.th).rcvNxt + BitVec.ofNat 32 w.tlen} w.data
    refine ⟨⟨ack.una,ack.wl1,ack.wl2,?_,?_,ack.up⟩,?_,ack.tState.trans tState⟩
    · refine next_.trans ?_
      exact congrArg (fun r : Reass => r.rcvNxt + BitVec.ofNat 32 w.tlen) ack.reass
    · refine segq.trans ?_
      rw [ack.reass]
    intro fin
    rw [← updated.flags]
    exact fin
  next none =>
  have zero : w.tlen = 0 := by
    by_contra some_
    exact none (by simp [some_])
  rw [zero]
  exact ⟨.none rfl rfl rfl rfl rfl,by simp,tState⟩

theorem acceptFin_moved (established : w.c.tState = .established) : Moved w (acceptFin w) (if w.ti.fin then 1 else 0) := by
  unfold acceptFin
  split
  · rw [takeFin_established established]
    exact ⟨rfl,rfl,rfl,rfl,rfl,rfl⟩
  · exact .none rfl rfl rfl rfl rfl

theorem inv_forward {n : Nat} {c' : Conn} (inv : Inv c) (wl1 : -half ≤ diff c'.sndWl1 c.rcvNxt - n) (wl1' : diff c'.sndWl1 c.rcvNxt ≤ 0) (wl2 : diff c'.sndWl2 c'.sndUna ≤ 0)
    (next_ : c'.rcvNxt = c.rcvNxt + BitVec.ofNat 32 n) (segq : c'.reass.segq = c.reass.segq) (low : -1073741824 ≤ diff c.rcvNxt c'.rcvUp)
    (high : diff c.rcvNxt c'.rcvUp + n ≤ 1073741824) : Inv c' := by
  refine ⟨?_,wl2,?_,segq.trans inv.segq⟩
  · rw [next_,diff_backward wl1 (by unfold half; omega)]
    omega
  rw [next_,diff_forward (by unfold half; omega) (by unfold half; omega)]
  omega

theorem step6_inv (acked : Reached c th w) (inv : Inv c) (established : c.tState = .established) (order : InOrder c th)
    (wl2 : c.sndWl1 = th.thSeq → seqGt th.thAck c.sndUna → seqLeq c.sndWl2 th.thAck)
    (far : tooUrgent k env th → diff c.rcvNxt (c.rcvUp + 1073741824) + seqLen th ≤ 0) (done : step6 k env w = .ret c' output) : Inv c' := by
  obtain ⟨same,flags,rcvUp⟩ := updateWindow_others w
  have updated := updateWindow_updated acked inv order wl2
  have urp : (updateWindow w).th.urp = th.urp := by rw [same,acked.same]
  have urg : (updateWindow w).ti.urg = th.flags.urg := by rw [flags,acked.urg]
  obtain ⟨updated,low,up⟩ := @urgent_updated k env _ _ _ updated urp urg (rcvUp.trans acked.up) inv
  cases done
  generalize urgent k env (updateWindow w) = u at *
  obtain ⟨text,fin,tState⟩ := @dodata_moved k env _ _ _ updated established inv.segq
  have closing := acceptFin_moved tState
  generalize dodata k env u = d at *
  have size := updated.tlen
  have short := order.size
  have small : (if d.ti.fin then 1 else 0) ≤ if th.flags.fin then 1 else 0 := by
    split
    · next set_ =>
      rw [if_pos (fin set_)]
    · omega
  have one : (if d.ti.fin then 1 else 0) ≤ 1 := by
    split
    · omega
    · omega
  have length : u.tlen + (if d.ti.fin then 1 else 0) ≤ seqLen th := Nat.add_le_add size small
  generalize (if d.ti.fin then 1 else 0) = n at *
  have next_ : (acceptFin d).c.rcvNxt = c.rcvNxt + BitVec.ofNat 32 (u.tlen + n) := by
    have place : u.c.rcvNxt = c.rcvNxt := congrArg rcvNxt updated.reass
    rw [closing.next,text.next,place,BitVec.ofNat_add,BitVec.add_assoc]
  have wl1 : (acceptFin d).c.sndWl1 = c.rcvNxt := closing.wl1.trans (text.wl1.trans updated.wl1)
  have rcvUp : (acceptFin d).c.rcvUp = u.c.rcvUp := closing.up.trans text.up
  refine inv_forward inv ?_ ?_ ?_ next_ (closing.segq.trans (text.segq.trans (congrArg segq updated.reass))) ?_ ?_
  · rw [wl1,diff_self]
    unfold half
    omega
  · rw [wl1,diff_self]
  · rw [closing.wl2,closing.una,text.wl2,text.una]
    exact updated.wl2
  · rw [rcvUp]
    exact low
  rw [rcvUp]
  rcases up with ⟨kept,much⟩ | ahead
  · have room := far much
    rw [far_eq (by omega)] at room
    rw [kept]
    omega
  · omega

structure Predicted (c : Conn) (th : Segment) (c' : Conn) : Prop where
  wl1 : c'.sndWl1 = c.sndWl1
  wl2 : c'.sndWl2 = c.sndWl2
  next : c'.rcvNxt = c.rcvNxt + BitVec.ofNat 32 th.data.length
  segq : c'.reass.segq = c.reass.segq
  up : c'.rcvUp = c.rcvUp
  una : c'.sndUna = c.sndUna ∨ (seqGt th.thAck c.sndUna ∧ c'.sndUna = th.thAck)

theorem predictAck_cases (empty : th.data = []) (taken : predictAck c th = some v) : ∃ c' output,v = .ret c' output ∧ Predicted c th c' := by
  unfold predictAck at taken
  split at taken
  · next acks =>
    simp only [Bool.and_eq_true,decide_eq_true_eq] at acks
    cases taken
    refine ⟨_,_,rfl,rfl,rfl,?_,rfl,rfl,.inr ⟨acks.1.1.1,rfl⟩⟩
    rw [empty]
    simp
  · cases taken

theorem predictData_cases (taken : predictData k env c th = some v) : ∃ c' output,v = .ret c' output ∧ Predicted c th c' := by
  unfold predictData at taken
  split at taken
  · cases taken
    obtain ⟨next_,segq⟩ := sbappendstream_rcvNxt {c.reass with rcvNxt := c.rcvNxt + BitVec.ofNat 32 th.data.length} th.data
    have ack := setupAck_kept k {c with reass := sbappendstream {c.reass with rcvNxt := c.rcvNxt + BitVec.ofNat 32 th.data.length} th.data} th
    refine ⟨_,_,rfl,ack.wl1,ack.wl2,?_,?_,ack.up,.inl ack.una⟩
    · exact (congrArg rcvNxt ack.reass).trans next_
    · exact (congrArg Reass.segq ack.reass).trans segq
  · cases taken

theorem predict_cases (taken : (predict k env c th).2 = some v) : ∃ c' output,v = .ret c' output ∧ Predicted c th c' := by
  have kept := (predictedTs_received env c th).kept.1
  have whole : ∃ c' output,v = .ret c' output ∧ Predicted (predictedTs env c th) th c' := by
    unfold predict at taken
    split at taken
    · split at taken
      · next empty => exact predictAck_cases (List.isEmpty_iff.mp empty) taken
      · exact predictData_cases taken
    · cases taken
  obtain ⟨c',output,same,⟨wl1,wl2,next_,segq,up,una⟩⟩ := whole
  rw [kept.una] at una
  refine ⟨c',output,same,wl1.trans kept.wl1,wl2.trans kept.wl2,?_,?_,up.trans kept.up,una⟩
  · rw [next_,Conn.rcvNxt,kept.reass]
  · rw [segq,kept.reass]

theorem predict_inv (inv : Inv c) (near : Near k env c th) (taken : fast k env c th) (moved : Predicted c th c') : Inv c' := by
  have room := near.up (.inl taken)
  have back := near.wl1 taken
  have behind := inv.wl1
  have low := inv.up.1
  have small : th.data.length ≤ seqLen th := Nat.le_add_right ..
  rw [far_eq (by omega)] at room
  refine inv_forward inv ?_ ?_ ?_ moved.next moved.segq ?_ ?_
  · rw [moved.wl1]
    omega
  · rw [moved.wl1]
    exact behind
  · rw [moved.wl2]
    rcases moved.una with same | ⟨more,una⟩
    · rw [same]
      exact inv.wl2
    rw [una]
    exact seqLeq_iff.mp (near.wl2 (.inl taken) more)
  · rw [moved.up]
    exact low
  rw [moved.up]
  omega

theorem fast_iff : fast k env c th ↔ predicted c th ∧
    if th.data = [] then seqGt th.thAck c.sndUna ∧ seqLeq th.thAck c.sndMax ∧ c.sndWnd ≤ c.sndCwnd ∧ c.tPartialacks < 0
    else th.thAck = c.sndUna ∧ c.reass.segq = [] ∧ th.data.length ≤ env.rcvSpace := by
  have same : (predictedTs env c th).sack = c.sack ∧ (predictedTs env c th).sndWnd = c.sndWnd ∧ (predictedTs env c th).sndCwnd = c.sndCwnd ∧
      (predictedTs env c th).tPartialacks = c.tPartialacks ∧ (predictedTs env c th).reass = c.reass := by
    unfold predictedTs
    split
    · split
      · exact ⟨rfl,rfl,rfl,rfl,rfl⟩
      · exact ⟨rfl,rfl,rfl,rfl,rfl⟩
    · exact ⟨rfl,rfl,rfl,rfl,rfl⟩
  unfold fast predict
  split
  · next flags =>
    simp only [flags,true_and]
    unfold predictAck predictData
    simp only [Conn.sndUna,Conn.sndMax,same]
    by_cases empty : th.data = []
    · simp [empty,and_assoc]
    · simp [empty,and_assoc]
  · next flags => simp [flags]

theorem front_kept (env : Env) (ran : front k c th = .ok c₁) : Kept c c₁ ∧ c₁.sndWnd = c.sndWnd ∧ (fast k env c₁ th ↔ fast k env c th) := by
  obtain ⟨sack,ends,same⟩ := front_cases ran
  subst same
  obtain ⟨ece,⟨_,marked⟩ | ⟨now,congested⟩⟩ := ecn_cases {c with sack := sack} th
  · rw [marked]
    refine ⟨⟨rfl,ends.una,rfl,rfl,rfl,rfl⟩,rfl,?_⟩
    simp only [fast_iff,predicted,tsGeq,Conn.sndUna,Conn.sndMax,Conn.rcvNxt,ends.una,ends.max]
  have flag : th.flags.ece = true := by
    simp only [answered,Bool.and_eq_true] at now
    exact now.2.1
  rw [congested]
  refine ⟨⟨rfl,ends.una,rfl,rfl,rfl,rfl⟩,rfl,?_⟩
  simp [fast_iff,predicted,flag]

theorem Near.front (near : Near k env c th) (ran : front k c th = .ok c₁) : Near k env c₁ th := by
  obtain ⟨kept,_,same⟩ := front_kept env ran
  obtain ⟨wl1,wl2,up⟩ := near
  refine ⟨?_,?_,?_⟩
  · rw [same,kept.wl1,Conn.rcvNxt,kept.reass]
    exact wl1
  · rw [same,kept.wl1,kept.wl2,kept.una]
    exact wl2
  rw [same,kept.up,Conn.rcvNxt,kept.reass]
  exact up

theorem InOrder.kept (order : InOrder c th) (kept : Kept c c₁) : InOrder c₁ th :=
  ⟨order.next.trans (congrArg rcvNxt kept.reass).symm,order.size⟩

theorem general_inv (frame : ∀ c,Kept c (out c)) (inv : Inv c) (established : c.tState = .established) (order : InOrder c th) (near : Near k env c th)
    (kept : Kept c c₁) (done : general k env out c₁ th = .ret c' output) : Inv c' := by
  have way := @toStep6_reached k env out c₁ th frame (kept.tState.trans established) (order.kept kept)
  unfold general at done
  split at done
  · next v left =>
    subst done
    exact (Kept.trans kept (way.error left)).inv inv
  next w on =>
  refine step6_inv (way.ok on) (kept.inv inv) (kept.tState.trans established) (order.kept kept) ?_ ?_ done
  · rw [kept.wl1,kept.wl2,kept.una]
    exact fun here more => near.wl2 (.inr here) more
  rw [kept.up,Conn.rcvNxt,kept.reass]
  exact fun much => near.up (.inr much)

theorem segment_inv (frame : ∀ c,Kept c (out c)) (inv : Inv c) (established : c.tState = .established) (order : InOrder c th) (near : Near k env c th)
    (ran : tcpInput k env out c th = .ok (.ret c' output)) : Inv c' := by
  obtain ⟨c₁,first⟩ := front_of_ok ran
  have kept := (front_kept env first).1
  have near := near.front first
  have predictKept := (predict_received k env c₁ th).kept.1
  cases predicted : predict k env c₁ th with
  | mk c₂ v =>
    rw [predicted] at predictKept
    cases v with
    | some v =>
      rw [tcpInput_predicted first predicted] at ran
      cases ran
      have taken : (predict k env c₁ th).2 = some (.ret c' output) := by rw [predicted]
      obtain ⟨c'',output',equal,moved⟩ := predict_cases taken
      cases equal
      refine predict_inv (kept.inv inv) near ?_ moved
      unfold fast
      rw [taken]
      rfl
    | none =>
      rw [tcpInput_general first predicted] at ran
      injection ran with ran
      exact general_inv frame (kept.inv inv) (kept.tState.trans established) (order.kept kept) near predictKept ran

theorem run_inv {start : Conn} (frame : ∀ c,Kept c (out c)) (inv : Inv start) (run : Run k out (Near k) start c) : Inv c := by
  induction run with
  | start => exact inv
  | segment prior established order near ran ih => exact segment_inv frame ih established order near ran
  | other prior una wl1 wl2 next_ segq up ih =>
    obtain ⟨wl1',wl2',up',segq'⟩ := ih
    refine ⟨?_,?_,?_,segq.trans segq'⟩
    · rw [wl1,next_]
      exact wl1'
    · rw [wl2,una]
      exact wl2'
    rw [next_,up]
    exact up'

theorem header_prediction_exact (k : Config) (out : Conn → Conn) (start c : Conn) (frame : ∀ c,Kept c (out c)) (sound : Sound start) (empty : start.reass.segq = [])
    (run : Run k out (Near k) start c) :
    Sound c ∧ ∀ env th c₁ w,c.tState = .established → InOrder c th → Near k env c th → front k c th = .ok c₁ → seqGeq th.thAck c.sndUna → th.tiwin > c.sndWnd →
      toStep6 k env out c₁ th = .ok w → (w.ti.ack && newerWindow w.c w.th) = true := by
  have inv := run_inv frame (sound.inv empty) run
  refine ⟨inv.sound,fun env th c₁ w established order near first sequence larger reached => ?_⟩
  obtain ⟨kept,wnd,_⟩ := front_kept env first
  have acked := (toStep6_reached frame (kept.tState.trans established) (order.kept kept)).ok reached
  have newer := acked.newer (kept.inv inv) (order.kept kept) (fun here more => (near.front first).wl2 (.inr here) more) ?_ ?_
  · rw [acked.ack,newer]
    rfl
  · rw [kept.una]
    exact sequence
  · rw [wnd]
    exact larger

def nextSegment (n : Nat) (data : List UInt8) : Segment := ⟨BitVec.ofNat 32 n,0,⟨false,false,false,false,true,false,false,false⟩,65535,0,data,none,[],false⟩

theorem received_next (n : Nat) (data : List UInt8) (some_ : data ≠ []) (size : data.length ≤ 65535) : tcpInput sysctls idle id (received n) (nextSegment n data) =
    .ok (.ret {received n with reass := ⟨[],[],0,BitVec.ofNat 32 n + BitVec.ofNat 32 data.length,data,false,true⟩,delAck := true} false) := by
  have predicted_ : predicted (received n) (nextSegment n data) = true := by
    simp [predicted,received,nextSegment,tsGeq]
  have first : front sysctls (received n) (nextSegment n data) = .ok (received n) := rfl
  refine @tcpInput_predicted _ _ _ _ _ _ (received n) _ first ?_
  unfold predict
  rw [predicted_]
  have fits : (data.length : Int) ≤ 65535 := Int.ofNat_le.mpr size
  simp [predictedTs,predictData,received,nextSegment,idle,sysctls,setupAck,sbappendstream,some_,size,fits]

theorem received_run (n : Nat) : Run sysctls id (fun _ _ _ => True) (received 0) (received (n * 32768)) := by
  have size : (List.replicate 32768 (0 : UInt8)).length = 32768 := List.length_replicate
  induction n with
  | zero => exact .start
  | succ n ih =>
    have step := received_next (n * 32768) (List.replicate 32768 0) (List.ne_nil_of_length_pos (by omega)) (by omega)
    refine .other (.segment ih rfl ⟨rfl,?_⟩ trivial step) rfl rfl rfl ?_ rfl rfl
    · refine Nat.le_trans (Nat.le_of_eq size) (by omega)
    rw [size,Nat.succ_mul]
    exact BitVec.ofNat_add ..

theorem received_sound : Sound (received 0) := by
  refine ⟨?_,?_,?_⟩
  · decide +kernel
  · decide +kernel
  · decide +kernel

-- 65537 such segments, all of them predicted, take rcv_nxt past snd_wl1 + 2 ^ 31.
theorem header_prediction_wraps : ¬∀ (k : Config) (out : Conn → Conn) (start c : Conn),(∀ c,Kept c (out c)) → Sound start → start.reass.segq = [] →
    Run k out (fun _ _ _ => True) start c → Sound c := by
  intro claim
  have ends := claim sysctls id (received 0) (received (65537 * 32768)) Kept.refl received_sound rfl (received_run 65537)
  have behind := ends.wl1
  revert behind
  decide +kernel

theorem header_prediction_exact_next : Sound {received 0 with reass := ⟨[],[],0,BitVec.ofNat 32 0 + BitVec.ofNat 32 1,[7],false,true⟩,delAck := true} := by
  have near : Near sysctls idle (received 0) (nextSegment 0 [7]) := by
    refine ⟨fun _ => ?_,fun _ more => ?_,fun _ => ?_⟩
    · decide +kernel
    · decide +kernel
    · decide +kernel
  exact (header_prediction_exact sysctls id (received 0) _ Kept.refl received_sound rfl
    (.segment .start rfl ⟨rfl,by decide⟩ near (received_next 0 [7] (by decide) (by decide)))).1
end NetbsdAvr32.TcpInput
