import NetbsdAvr32.TcpArrival

-- The ACK of a segment, as an established connection takes it.
namespace NetbsdAvr32.TcpInput
open Serial TcpSack TcpReass

-- What tcp_input alone changes: tcp_output, the timers and the user keep it.
structure Kept (c c' : Conn) : Prop where
  tState : c'.tState = c.tState
  una : c'.sndUna = c.sndUna
  wl1 : c'.sndWl1 = c.sndWl1
  wl2 : c'.sndWl2 = c.sndWl2
  reass : c'.reass = c.reass
  up : c'.rcvUp = c.rcvUp

variable {k : Config} {env : Env} {out : Conn → Conn} {c c' : Conn} {th : Segment} {w before : Work}

namespace Kept

theorem refl (c : Conn) : Kept c c := ⟨rfl,rfl,rfl,rfl,rfl,rfl⟩

theorem trans {a b c : Conn} (one : Kept a b) (two : Kept b c) : Kept a c :=
  ⟨two.tState.trans one.tState,two.una.trans one.una,two.wl1.trans one.wl1,two.wl2.trans one.wl2,two.reass.trans one.reass,two.up.trans one.up⟩

theorem sent (frame : ∀ c,Kept c (out c)) (kept : Kept c c') : Kept c (out c') := kept.trans (frame c')
end Kept

def Left (c : Conn) : Verdict → Prop
  | .ret c' _ => Kept c c'
  | .closed _ => True

theorem Received.kept (received : Received c c') : Kept c c' ∧ c'.sndWnd = c.sndWnd := by
  obtain ⟨_,_,_,_,same⟩ := received
  subst same
  exact ⟨⟨rfl,rfl,rfl,rfl,rfl,rfl⟩,rfl⟩

theorem Gone.left {v : Verdict} (gone : Gone c v) : Left c v := by
  cases v with
  | ret c' output => exact gone.kept.1
  | closed c' => trivial

theorem renoFastRetransmit_kept (frame : ∀ c,Kept c (out c)) (k : Config) (c : Conn) (th : Segment) : Kept c (renoFastRetransmit k out c th) := by
  unfold renoFastRetransmit
  dsimp only
  split
  · exact .sent frame ⟨rfl,rfl,rfl,rfl,rfl,rfl⟩
  split
  · refine .trans (b := out _) ?_ ⟨rfl,rfl,rfl,rfl,rfl,rfl⟩
    exact .sent frame ⟨rfl,rfl,rfl,rfl,rfl,rfl⟩
  refine .trans (b := out _) ?_ ⟨rfl,rfl,rfl,rfl,rfl,rfl⟩
  exact .sent frame ⟨rfl,rfl,rfl,rfl,rfl,rfl⟩

theorem completeAck_kept (c : Conn) (th : Segment) : Kept c (completeAck c th) := ⟨rfl,rfl,rfl,rfl,rfl,rfl⟩

theorem tcpSackNewack_kept (frame : ∀ c,Kept c (out c)) (c : Conn) (th : Segment) : Kept c (tcpSackNewack out c th) := by
  unfold tcpSackNewack
  split
  · exact ⟨rfl,rfl,rfl,rfl,rfl,rfl⟩
  split
  · exact .sent frame ⟨rfl,rfl,rfl,rfl,rfl,rfl⟩
  dsimp only
  split
  · exact (completeAck_kept c th).trans ⟨rfl,rfl,rfl,rfl,rfl,rfl⟩
  · exact completeAck_kept c th

theorem fastRetransmitNewack_kept (frame : ∀ c,Kept c (out c)) (c : Conn) (th : Segment) : Kept c (fastRetransmitNewack out c th) := by
  unfold fastRetransmitNewack
  split
  · exact ⟨rfl,rfl,rfl,rfl,rfl,rfl⟩
  split
  · exact ⟨rfl,rfl,rfl,rfl,rfl,rfl⟩
  split
  · refine .trans (b := out _) ?_ ⟨rfl,rfl,rfl,rfl,rfl,rfl⟩
    exact .sent frame ⟨rfl,rfl,rfl,rfl,rfl,rfl⟩
  · exact (completeAck_kept c th).trans ⟨rfl,rfl,rfl,rfl,rfl,rfl⟩

theorem newackOf_kept (frame : ∀ c,Kept c (out c)) (c : Conn) (th : Segment) : Kept c (newackOf out c th) := by
  unfold newackOf
  split
  · exact tcpSackNewack_kept frame c th
  · exact fastRetransmitNewack_kept frame c th

theorem renoNewack_kept (k : Config) (c : Conn) (th : Segment) : Kept c (renoNewack k c th) := by
  unfold renoNewack
  dsimp only
  split
  · split
    · split
      · exact ⟨rfl,rfl,rfl,rfl,rfl,rfl⟩
      · exact ⟨rfl,rfl,rfl,rfl,rfl,rfl⟩
    · exact ⟨rfl,rfl,rfl,rfl,rfl,rfl⟩
  · exact ⟨rfl,rfl,rfl,rfl,rfl,rfl⟩

theorem newack_kept (k : Config) (c : Conn) (th : Segment) : Kept c (newack k c th) := by
  unfold newack
  split
  · exact .refl c
  · exact renoNewack_kept k c th

theorem ackTimer_kept (c : Conn) (th : Segment) : Kept c (ackTimer c th) := ⟨rfl,rfl,rfl,rfl,rfl,rfl⟩

theorem drain_kept (c : Conn) (th : Segment) : Kept c (drain c th).1 := by
  unfold drain
  dsimp only
  split
  · exact ⟨rfl,rfl,rfl,rfl,rfl,rfl⟩
  · exact ⟨rfl,rfl,rfl,rfl,rfl,rfl⟩

theorem fastRetransmit_cases (k : Config) (out : Conn → Conn) (c : Conn) (th : Segment) :
    fastRetransmit k out c th = ({c with tDupacks := 0},true) ∨ fastRetransmit k out c th = (renoFastRetransmit k out c th,false) := by
  unfold fastRetransmit
  split
  · exact .inl rfl
  · exact .inr rfl

structure Acked (c : Conn) (before w : Work) : Prop where
  tState : w.c.tState = c.tState
  wl1 : w.c.sndWl1 = c.sndWl1
  wl2 : w.c.sndWl2 = c.sndWl2
  reass : w.c.reass = c.reass
  up : w.c.rcvUp = c.rcvUp
  th : w.th = before.th
  ti : w.ti = before.ti
  tlen : w.tlen = before.tlen
  data : w.data = before.data
  una : (diff before.th.thAck c.sndUna ≤ 0 ∧ w.c.sndUna = c.sndUna ∧ w.c.sndWnd = c.sndWnd) ∨ (diff before.th.thAck c.sndUna > 0 ∧ w.c.sndUna = before.th.thAck)

theorem Acked.dupacks (acked : Acked c before w) (n : Int) : Acked c before {w with c := {w.c with tDupacks := n}} :=
  ⟨acked.tState,acked.wl1,acked.wl2,acked.reass,acked.up,acked.th,acked.ti,acked.tlen,acked.data,acked.una⟩

theorem dropafterack_left (kept : Kept c w.c) : Left c (dropafterack w) := by
  unfold dropafterack
  split
  · exact kept
  · exact kept.trans ⟨rfl,rfl,rfl,rfl,rfl,rfl⟩

theorem answerDup_exits (frame : ∀ c,Kept c (out c)) (kept : Kept c w.c) (acked : Acked c before w) : Exits (Left c) (Acked c before) (answerDup k out w) := by
  unfold answerDup
  split
  · rcases fastRetransmit_cases k out w.c w.th with again | once
    · rw [again]
      exact acked.dupacks 0
    rw [once]
    exact kept.trans (renoFastRetransmit_kept frame k w.c w.th)
  split
  · refine kept.trans (.sent frame ?_)
    exact ⟨rfl,rfl,rfl,rfl,rfl,rfl⟩
  · exact acked

theorem dupAck_exits (frame : ∀ c,Kept c (out c)) (acked : Acked c before w) (kept : Kept c w.c) : Exits (Left c) (Acked c before) (dupAck k out w) := by
  unfold dupAck
  split
  · split
    · exact acked.dupacks 0
    unfold countDup
    split
    · exact answerDup_exits frame (kept.trans ⟨rfl,rfl,rfl,rfl,rfl,rfl⟩) (acked.dupacks _)
    · exact answerDup_exits frame kept acked
  split
  · exact dropafterack_left kept
  · exact acked

theorem finAcked_exits (established : w.c.tState = .established) (fin : Bool) : finAcked w fin = .ok w := by
  unfold finAcked
  rw [established]

theorem ackProcessing_exits (frame : ∀ c,Kept c (out c)) (established : c.tState = .established) (kept : Kept c w.c) (wnd : w.c.sndWnd = c.sndWnd) :
    Exits (Left c) (Acked c w) (ackProcessing k out w) := by
  have una := kept.una
  unfold ackProcessing
  split
  · next old =>
    have old := seqLeq_iff.mp old
    rw [una] at old
    exact dupAck_exits frame ⟨kept.tState,kept.wl1,kept.wl2,kept.reass,kept.up,rfl,rfl,rfl,rfl,.inl ⟨old,una,wnd⟩⟩ kept
  next new =>
  have new : diff w.th.thAck c.sndUna > 0 := by
    rw [← una]
    by_contra old
    exact new (seqLeq_iff.mpr (by omega))
  have first := kept.trans (newackOf_kept frame w.c w.th)
  dsimp only
  split
  · exact dropafterack_left first
  have second := ((first.trans (ackTimer_kept _ w.th)).trans (newack_kept k _ w.th)).trans (drain_kept _ w.th)
  generalize drain (newack k (ackTimer (newackOf out w.c w.th) w.th) w.th) w.th = drained at second ⊢
  rw [finAcked_exits (second.tState.trans established)]
  exact ⟨second.tState,second.wl1,second.wl2,second.reass,second.up,rfl,rfl,rfl,rfl,.inr ⟨new,rfl⟩⟩

theorem toStep6_exits (frame : ∀ c,Kept c (out c)) (established : c.tState = .established) :
    Exits (Left c) (fun w => ∃ before,toAck k env c th = .ok before ∧ Arrived c th before ∧ before.ti.ack ∧ Acked c before w) (toStep6 k env out c th) := by
  have way := toAck_exits k env c th
  unfold toStep6
  cases reached : toAck k env c th with
  | error v => exact (way.error reached).left
  | ok before =>
    obtain ⟨arrived,ack⟩ := way.ok reached
    obtain ⟨kept,wnd⟩ := arrived.conn.kept
    exact (ackProcessing_exits frame established kept wnd).mono (fun _ left => left) fun w acked => ⟨before,rfl,arrived,ack,acked⟩

theorem updateWindow_others (w : Work) : (updateWindow w).th = w.th ∧ (updateWindow w).ti = w.ti ∧ (updateWindow w).c.rcvUp = w.c.rcvUp := by
  unfold updateWindow
  split
  · exact ⟨rfl,rfl,rfl⟩
  · exact ⟨rfl,rfl,rfl⟩

theorem setupAck_kept (k : Config) (c : Conn) (th : Segment) : Kept c (setupAck k c th) := by
  unfold setupAck
  split
  · exact ⟨rfl,rfl,rfl,rfl,rfl,rfl⟩
  · exact ⟨rfl,rfl,rfl,rfl,rfl,rfl⟩

theorem takeFin_established (established : c.tState = .established) :
    finState (takeFin c) = {c with tState := .closeWait,ackNow := true,reass := {c.reass with rcvNxt := c.rcvNxt + 1,cantRcvMore := true}} := by
  unfold takeFin
  rw [established]
  simp [finState,TState.haveRcvdFin]
end NetbsdAvr32.TcpInput
