import NetbsdAvr32.MsgExact

-- What a stretch of one thread can change for the others.
namespace NetbsdAvr32.Sysvmsg
open Function Linked Sysvsem Option
variable {c : Msginfo} {w w' w₁ : World} {s s' s'' : Msgs} {h ix t u n p j : Nat} {call call' : Call} {a : Send} {e : Errno} {r : Reply} {event : Event} {b : Option Nat}

theorem takeSegs_frame (n : Nat) {s : Msgs} (ran : takeSegs c n s h = some s') :
    s'.msqs = s.msqs ∧ s'.freeMsghdrs = s.freeMsghdrs ∧ s'.nfreeMsgmaps ≤ s.nfreeMsgmaps := by
  induction n generalizing s with
  | zero =>
    cases ran
    exact ⟨rfl,rfl,Int.le_refl _⟩
  | succ n ih =>
    rw [takeSegs] at ran
    split at ran
    · split at ran
      · cases ran
      split at ran
      · obtain ⟨msqs,free,less⟩ := ih ran
        exact ⟨msqs,free,Int.le_trans less (by dsimp only; omega)⟩
      · cases ran
    · cases ran

theorem freeSegs_frame (n : Nat) {s : Msgs} (ran : freeSegs c n s h = some s') : s'.msqs = s.msqs := by
  induction n generalizing s with
  | zero => cases ran
  | succ n ih =>
    rw [freeSegs] at ran
    split at ran
    · split at ran
      · cases ran
      split at ran
      · exact (ih ran).trans rfl
      · cases ran
    cases ran
    rfl

theorem msgFreehdr_frame (ran : msgFreehdr c s h = some s') : s'.msqs = s.msqs := by
  unfold msgFreehdr at ran
  split at ran
  · cases ran
  next s₁ freed =>
  split at ran
  · cases ran
    have := freeSegs_frame _ freed
    exact this
  · cases ran

theorem msgAlloc_frame (ran : msgAlloc c s ix n = some (s',h)) : s'.msqs = (s.lock ix true).msqs ∧ s'.nfreeMsgmaps ≤ s.nfreeMsgmaps := by
  unfold msgAlloc at ran
  split at ran
  · cases ran
  dsimp only at ran
  split at ran
  · cases ran
  next s₁ taken =>
  cases ran
  obtain ⟨msqs,_,less⟩ := takeSegs_frame _ taken
  exact ⟨msqs,less⟩

structure Same (s s' : Msgs) (at_ : Option Nat) : Prop where
  seq : ∀ j,(s'.msqs j).seq = (s.msqs j).seq
  qbytes : ∀ j,(s'.msqs j).msgQbytes = (s.msqs j).msgQbytes
  cbytes : ∀ j,at_ ≠ some j → (s'.msqs j).msgCbytes = (s.msqs j).msgCbytes
  locked : ∀ j,at_ ≠ some j → (s'.msqs j).locked = (s.msqs j).locked

theorem Same.refl (s : Msgs) (at_ : Option Nat) : Same s s at_ := ⟨fun _ => rfl,fun _ => rfl,fun _ _ => rfl,fun _ _ => rfl⟩

theorem Same.queue (s : Msgs) {q : MsqidDs} (seq : q.seq = (s.msqs ix).seq) (qbytes : q.msgQbytes = (s.msqs ix).msgQbytes) : Same s (s.setQueue ix q) (some ix) := by
  refine ⟨fun j => ?_,fun j => ?_,fun j ne => ?_,fun j ne => ?_⟩
  · by_cases at_ : j = ix
    · subst at_
      rw [setQueue_at,seq]
    · rw [setQueue_else at_]
  · by_cases at_ : j = ix
    · subst at_
      rw [setQueue_at,qbytes]
    · rw [setQueue_else at_]
  · rw [setQueue_else fun is => ne (congrArg some is.symm)]
  · rw [setQueue_else fun is => ne (congrArg some is.symm)]

theorem setQueue_locked (s : Msgs) (ix : Nat) (q : MsqidDs) : ((s.setQueue ix q).msqs ix).locked = q.locked := congrArg MsqidDs.locked setQueue_at

theorem Same.trans {at_ : Option Nat} (one : Same s s' at_) (two : Same s' s'' at_) : Same s s'' at_ :=
  ⟨fun j => (two.seq j).trans (one.seq j),fun j => (two.qbytes j).trans (one.qbytes j),fun j ne => (two.cbytes j ne).trans (one.cbytes j ne),
    fun j ne => (two.locked j ne).trans (one.locked j ne)⟩

theorem Same.of_eq {at_ : Option Nat} (msqs : s'.msqs = s.msqs) : Same s s' at_ := by
  refine ⟨fun _ => ?_,fun _ => ?_,fun _ _ => ?_,fun _ _ => ?_⟩ <;> rw [msqs]

theorem lock_same (s : Msgs) (ix : Nat) (b : Bool) : Same s (s.lock ix b) (some ix) := .queue s rfl rfl

theorem msgLink_frame (ran : msgLink s ix h = some s') : Same s s' (some ix) := by
  unfold msgLink at ran
  split at ran
  · cases ran
    exact .queue s rfl rfl
  · cases ran
    exact (Same.of_eq (by rfl)).trans (.queue _ (by rfl) (by rfl))
  · cases ran

theorem msgPut_frame (ran : msgPut s ix h = some s') : Same s s' (some ix) := by
  unfold msgPut at ran
  split at ran
  · cases ran
  next s₁ linked =>
  cases ran
  exact (msgLink_frame linked).trans ((Same.of_eq (by rfl)).trans (.queue _ (by rfl) (by rfl)))

theorem setHdrLink_frame (s : Msgs) (ix : Nat) (previous : Option Nat) (v : Option Nat) :
    Same s (s.setHdrLink (prevSlot ix previous) v) (some ix) ∧ ((s.setHdrLink (prevSlot ix previous) v).msqs ix).locked = (s.msqs ix).locked := by
  cases previous with
  | none => exact ⟨.queue s rfl rfl,setQueue_locked s ix _⟩
  | some h => exact ⟨.of_eq rfl,rfl⟩

theorem msgTake_frame {a : Recv} (ran : msgTake c s ix a = some (.taken h s')) : Same s s' (some ix) ∧ (s'.msqs ix).locked = (s.msqs ix).locked := by
  have typed (fuel : Nat) (previous : Option Nat) (ran : takeTyped s ix a fuel previous = some (.taken h s')) :
      Same s s' (some ix) ∧ (s'.msqs ix).locked = (s.msqs ix).locked := by
    induction fuel generalizing previous with
    | zero => cases ran
    | succ fuel ih =>
      rw [takeTyped] at ran
      split at ran
      · cases ran
      next x link =>
      split at ran
      · exact ih _ ran
      split at ran
      · cases ran
      dsimp only at ran
      obtain ⟨same,locked⟩ := setHdrLink_frame s ix previous (s.msghdrs x).msgNext
      split at ran
      · cases ran
        exact ⟨same,locked⟩
      split at ran
      · cases ran
        exact ⟨same.trans (.queue _ rfl rfl),(setQueue_locked _ ix _).trans locked⟩
      cases ran
      exact ⟨same.trans (.queue _ rfl rfl),(setQueue_locked _ ix _).trans locked⟩
  unfold msgTake at ran
  split at ran
  · unfold takeFirst at ran
    split at ran
    · cases ran
    split at ran
    · cases ran
    split at ran
    · cases ran
      exact ⟨.queue s rfl rfl,setQueue_locked s ix _⟩
    split at ran
    · cases ran
    cases ran
    exact ⟨.queue s rfl rfl,setQueue_locked s ix _⟩
  · exact typed _ _ ran

theorem rmidLoop_frame (fuel : Nat) {s : Msgs} {p : Option Nat} (ran : rmidLoop c ix fuel s p = some s') :
    Same s s' (some ix) ∧ (s'.msqs ix).locked = (s.msqs ix).locked := by
  induction fuel generalizing s p with
  | zero => cases ran
  | succ fuel ih =>
    cases p with
    | none =>
      cases ran
      exact ⟨.refl ..,rfl⟩
    | some h =>
      rw [rmidLoop] at ran
      split at ran
      · cases ran
      next s₁ freed =>
      have msqs := msgFreehdr_frame freed
      obtain ⟨same,locked⟩ := ih ran
      refine ⟨(Same.queue s (by rfl) (by rfl)).trans ((Same.of_eq msqs).trans same),?_⟩
      rw [locked,msqs,setQueue_at]

def Call.sender : Call → Option Send
  | .sndWait a _ _ => some a
  | .sndType a _ => some a
  | .sndText a _ _ _ => some a
  | _ => none

def Call.taking : Call → Option Nat
  | .rcvType a _ _ => some (ipcidToIx a.msqidr)
  | .rcvText a _ _ _ _ _ => some (ipcidToIx a.msqidr)
  | _ => none

def Call.heard (call : Call) : Option Nat → Call
  | none => call
  | some ix => call.wake ix

@[simp] theorem wake_sender (ix : Nat) (call : Call) : (call.wake ix).sender = call.sender := by cases call <;> rfl
@[simp] theorem wake_taking (ix : Nat) (call : Call) : (call.wake ix).taking = call.taking := by cases call <;> rfl

def Quits (w : World) (event : Event) (t j : Nat) : Prop :=
  ∃ a woken,w.threads t = .sndWait a true woken ∧ ipcidToIx a.msqidr = j ∧
    (event = .resume t true ∨ (w.msgs.msqs j).msgQbytes = 0 ∨ (w.msgs.msqs j).msgQbytes < a.text.length ∨ a.nowait = true)

-- A stretch of the thread `t` that broadcasts to the queue `b`.
structure Turn (c : Msginfo) (w w' : World) (event : Event) (t : Nat) (r : Reply) (b : Option Nat) : Prop where
  others : ∀ u,u ≠ t → w'.threads u = (w.threads u).heard b
  seq : ∀ j,(w'.msgs.msqs j).seq = (w.msgs.msqs j).seq
  qbytes : ∀ j,(w'.msgs.msqs j).msgQbytes = (w.msgs.msqs j).msgQbytes
  cbytes : ∀ j,b ≠ some j → (w'.threads t).taking ≠ some j → (w'.msgs.msqs j).msgCbytes = (w.msgs.msqs j).msgCbytes
  taking : ∀ j,(w.threads t).taking = some j → b = some j ∨ (w'.threads t).taking = some j
  locked : ∀ j,(w.msgs.msqs j).locked = true → b ≠ some j → (w'.msgs.msqs j).locked = true ∨ Quits w event t j
  sleeps : ∀ a own woken,w'.threads t = .sndWait a own woken → woken = false ∧ a.nowait = false ∧ a.text.length ≤ (w.msgs.msqs (ipcidToIx a.msqidr)).msgQbytes ∧
    (w.msgs.msqs (ipcidToIx a.msqidr)).msgQbytes ≠ 0 ∧ (w'.msgs.msqs (ipcidToIx a.msqidr)).locked = true ∧ (own = true → shortOf c w'.msgs (ipcidToIx a.msqidr) a.text.length)
  enters : ∀ a,(w'.threads t).sender = some a → (w.threads t).sender = some a ∨ (w.msgs.msqs (ipcidToIx a.msqidr)).seq = ipcidToSeq a.msqidr
  answers : ∀ a,(w.threads t).sender = some a → r = .goesOn ∧ (w'.threads t).sender = some a ∨ (∃ e,r = .fails e) ∨ r = .sent ∧ (w.msgs.msqs (ipcidToIx a.msqidr)).msgQbytes ≠ 0
  sent : r = .sent → ∃ a,(w.threads t).sender = some a

structure Tried (c : Msginfo) (w w' : World) (t : Nat) (a : Send) (r : Reply) : Prop where
  others : ∀ u,u ≠ t → w'.threads u = w.threads u
  same : Same w.msgs w'.msgs (some (ipcidToIx a.msqidr))
  cbytes : (w'.msgs.msqs (ipcidToIx a.msqidr)).msgCbytes = (w.msgs.msqs (ipcidToIx a.msqidr)).msgCbytes
  ends : (∃ e,r = .fails e) ∧ w'.threads t = .idle ∧ w'.msgs = w.msgs ∧ ((w.msgs.msqs (ipcidToIx a.msqidr)).msgQbytes < a.text.length ∨ a.nowait = true) ∨
    r = .goesOn ∧ (w'.msgs.msqs (ipcidToIx a.msqidr)).locked = true ∧
      ((∃ h,w'.threads t = .sndType a h) ∨ a.nowait = false ∧ a.text.length ≤ (w.msgs.msqs (ipcidToIx a.msqidr)).msgQbytes ∧
        ∃ own,w'.threads t = .sndWait a own false ∧ (own = true → shortOf c w'.msgs (ipcidToIx a.msqidr) a.text.length))

theorem shortOf_lock (c : Msginfo) (s : Msgs) (ix n : Nat) (b : Bool) : shortOf c (s.lock ix b) ix n ↔ shortOf c s ix n := by
  unfold shortOf
  rw [lock_at]
  exact Iff.rfl

theorem msgsndTry_tried (ran : msgsndTry c w t a = some (w',r)) : Tried c w w' t a r := by
  unfold msgsndTry at ran
  dsimp only at ran
  split at ran
  · next big =>
    cases ran
    exact ⟨fun u ne => goes_else ne,.refl ..,rfl,.inl ⟨⟨_,rfl⟩,goes_self,rfl,.inl big⟩⟩
  next fits =>
  split at ran
  · next less =>
    split at ran
    · next nowait =>
      cases ran
      exact ⟨fun u ne => goes_else ne,.refl ..,rfl,.inl ⟨⟨_,rfl⟩,goes_self,rfl,.inr nowait⟩⟩
    next wait =>
    have wait := Bool.eq_false_iff.mpr wait
    split at ran
    · next locked =>
      cases ran
      exact ⟨fun u ne => goes_else ne,.refl ..,rfl,.inr ⟨rfl,locked,.inr ⟨wait,Nat.le_of_not_lt fits,false,goes_self,nofun⟩⟩⟩
    next free =>
    cases ran
    have short := less.resolve_left free
    refine ⟨fun u ne => goes_else ne,lock_same ..,?_,.inr ⟨rfl,?_,.inr ⟨wait,Nat.le_of_not_lt fits,true,goes_self,fun _ => (shortOf_lock ..).mpr short⟩⟩⟩
    · simp only [goes_msgs,put_msgs,lock_at]
    · simp only [goes_msgs,put_msgs,lock_at]
  split at ran
  · cases ran
  next s h alloc =>
  cases ran
  have msqs := (msgAlloc_frame alloc).1
  refine ⟨fun u ne => goes_else ne,(lock_same _ _ true).trans (.of_eq msqs),?_,.inr ⟨rfl,?_,.inl ⟨h,goes_self⟩⟩⟩
  · simp only [goes_msgs,put_msgs,msqs,lock_at]
  · simp only [goes_msgs,put_msgs,msqs,lock_at]

theorem Tried.enter (tried : Tried c w w' t a r) (idle : w.threads t = .idle) (lives : (w.msgs.msqs (ipcidToIx a.msqidr)).msgQbytes ≠ 0)
    (seq : (w.msgs.msqs (ipcidToIx a.msqidr)).seq = ipcidToSeq a.msqidr) : Turn c w w' event t r none where
  others := tried.others
  seq := tried.same.seq
  qbytes := tried.same.qbytes
  cbytes j _ _ := by
    by_cases at_ : ipcidToIx a.msqidr = j
    · exact at_ ▸ tried.cbytes
    · exact tried.same.cbytes j fun is => at_ (some.inj is)
  taking j is := by
    rw [idle] at is
    cases is
  locked j is _ := by
    by_cases at_ : ipcidToIx a.msqidr = j
    · rcases tried.ends with ⟨_,_,msgs,_⟩ | ⟨_,locked,_⟩
      · rw [msgs]
        exact .inl is
      · exact .inl (at_ ▸ locked)
    rw [tried.same.locked j fun is => at_ (some.inj is)]
    exact .inl is
  sleeps a' own woken is := by
    rcases tried.ends with ⟨_,idle',_⟩ | ⟨_,locked,⟨h,type⟩ | ⟨wait,fits,own',asleep,short⟩⟩
    · rw [idle'] at is
      cases is
    · rw [type] at is
      cases is
    rw [asleep] at is
    cases is
    exact ⟨rfl,wait,fits,lives,locked,short⟩
  enters a' is := by
    rcases tried.ends with ⟨_,idle',_⟩ | ⟨_,locked,⟨h,type⟩ | ⟨wait,fits,own',asleep,short⟩⟩
    · rw [idle'] at is
      cases is
    · rw [type] at is
      cases is
      exact .inr seq
    rw [asleep] at is
    cases is
    exact .inr seq
  answers a' is := by
    rw [idle] at is
    cases is
  sent is := by
    rcases tried.ends with ⟨⟨e,fails⟩,_⟩ | ⟨goesOn,_⟩
    · rw [fails] at is
      cases is
    rw [goesOn] at is
    cases is

theorem Tried.wake {own woken : Bool} (tried : Tried c w₁ w' t a r) (at_ : w.threads t = .sndWait a own woken)
    (is : w₁ = if own then w.put (w.msgs.lock (ipcidToIx a.msqidr) false) else w) (lives : (w.msgs.msqs (ipcidToIx a.msqidr)).msgQbytes ≠ 0) :
    Turn c w w' (.resume t false) t r none := by
  have threads : w₁.threads = w.threads := by
    rw [is]
    cases own <;> rfl
  have freed : Same w.msgs w₁.msgs (some (ipcidToIx a.msqidr)) ∧ (w₁.msgs.msqs (ipcidToIx a.msqidr)).msgCbytes = (w.msgs.msqs (ipcidToIx a.msqidr)).msgCbytes ∧
      (own = false → w₁.msgs = w.msgs) := by
    rw [is]
    cases own with
    | true => exact ⟨lock_same ..,by rw [if_pos rfl,put_msgs,lock_at],nofun⟩
    | false => exact ⟨.refl ..,rfl,fun _ => rfl⟩
  obtain ⟨freed,cbytes,mine⟩ := freed
  have same := freed.trans tried.same
  refine ⟨fun u ne => (tried.others u ne).trans (congrFun threads u),same.seq,same.qbytes,fun j _ _ => ?_,fun j is => ?_,fun j held _ => ?_,fun a' own' woken' is => ?_,fun a' is => ?_,
    fun a' is => ?_,fun _ => ⟨a,by rw [at_]; rfl⟩⟩
  · by_cases here : ipcidToIx a.msqidr = j
    · exact here ▸ tried.cbytes.trans cbytes
    · exact same.cbytes j fun is => here (some.inj is)
  · rw [at_] at is
    cases is
  · by_cases here : ipcidToIx a.msqidr = j
    · subst here
      rcases tried.ends with ⟨_,_,msgs,why⟩ | ⟨_,locked,_⟩
      · cases own with
        | true =>
          refine .inr ⟨a,woken,at_,rfl,.inr (.inr ?_)⟩
          rwa [freed.qbytes] at why
        | false =>
          rw [msgs,mine rfl]
          exact .inl held
      · exact .inl locked
    rw [same.locked j fun is => here (some.inj is)]
    exact .inl held
  · rcases tried.ends with ⟨_,idle,_⟩ | ⟨_,locked,⟨h,type⟩ | ⟨wait,fits,own',asleep,short⟩⟩
    · rw [idle] at is
      cases is
    · rw [type] at is
      cases is
    rw [asleep] at is
    cases is
    rw [freed.qbytes] at fits
    exact ⟨rfl,wait,fits,lives,locked,short⟩
  · refine .inl ?_
    rcases tried.ends with ⟨_,idle,_⟩ | ⟨_,locked,⟨h,type⟩ | ⟨wait,fits,own',asleep,short⟩⟩
    · rw [idle] at is
      cases is
    · rw [type] at is
      rw [at_]
      exact is
    rw [asleep] at is
    rw [at_]
    exact is
  rw [at_] at is
  rcases tried.ends with ⟨fails,_⟩ | ⟨goesOn,locked,⟨h,type⟩ | ⟨wait,fits,own',asleep,short⟩⟩
  · exact .inr (.inl fails)
  · exact .inl ⟨goesOn,by rw [type]; exact is⟩
  · exact .inl ⟨goesOn,by rw [asleep]; exact is⟩

theorem Turn.before (turn : Turn c (w.put s) w' event t r b) (msqs : s.msqs = w.msgs.msqs) : Turn c w w' event t r b := by
  obtain ⟨others,seq,qbytes,cbytes,taking,locked,sleeps,enters,answers,sent⟩ := turn
  unfold Quits at locked
  simp only [put_msgs,put_threads,msqs] at *
  exact ⟨others,seq,qbytes,cbytes,taking,locked,sleeps,enters,answers,sent⟩

theorem Turn.moves (call' : Call) (sender : call'.sender = (w.threads t).sender) (taking : call'.taking = (w.threads t).taking) (up : ∀ a own woken,call' ≠ .sndWait a own woken) :
    Turn c w (w.goes t call') event t .goesOn none where
  others u ne := goes_else ne
  seq _ := rfl
  qbytes _ := rfl
  cbytes _ _ _ := rfl
  taking j is := by
    rw [goes_self,taking]
    exact .inr is
  locked _ is _ := .inl is
  sleeps a own woken is := by
    rw [goes_self] at is
    exact absurd is (up a own woken)
  enters a is := by
    rw [goes_self,sender] at is
    exact .inl is
  answers a is := by
    rw [goes_self,sender]
    exact .inl ⟨rfl,is⟩
  sent is := by cases is

theorem Turn.finishes (same : Same w.msgs s' (some ix)) (mine : ∀ j,(w.threads t).taking = some j → ix = j)
    (answers : ∀ a,(w.threads t).sender = some a → (∃ e,r = .fails e) ∨ r = .sent ∧ (w.msgs.msqs (ipcidToIx a.msqidr)).msgQbytes ≠ 0)
    (sent : r = .sent → ∃ a,(w.threads t).sender = some a) : Turn c w (((w.put s').broadcast ix).goes t .idle) event t r (some ix) where
  others u ne := goes_else ne
  seq := same.seq
  qbytes := same.qbytes
  cbytes j ne _ := same.cbytes j ne
  taking j is := .inl (congrArg some (mine j is))
  locked j is ne := .inl ((same.locked j ne).trans is)
  sleeps a own woken is := by
    rw [goes_self] at is
    cases is
  enters a is := by
    rw [goes_self] at is
    cases is
  answers a is := .inr (answers a is)
  sent := sent

theorem Turn.quits (e : Errno) (alike : w₁ = w ∨ ∃ j,Quits w event t j ∧ w₁ = w.put (w.msgs.lock j false)) (taking : (w.threads t).taking = none) :
    Turn c w (w₁.goes t .idle) event t (.fails e) none := by
  have threads : w₁.threads = w.threads := by
    rcases alike with same | ⟨j,_,same⟩ <;> rw [same]
    rfl
  have same : ∃ j,Same w.msgs w₁.msgs (some j) ∧ (w₁.msgs.msqs j).msgCbytes = (w.msgs.msqs j).msgCbytes ∧ (w₁ = w ∨ Quits w event t j) := by
    rcases alike with same | ⟨j,quits,same⟩ <;> rw [same]
    · exact ⟨0,.refl ..,rfl,.inl rfl⟩
    · exact ⟨j,lock_same ..,by rw [put_msgs,lock_at],.inr quits⟩
  obtain ⟨i,same,cbytes,why⟩ := same
  refine ⟨fun u ne => (goes_else ne).trans (congrFun threads u),same.seq,same.qbytes,fun j _ _ => ?_,fun j is => ?_,fun j is _ => ?_,fun a own woken is => ?_,fun a is => ?_,
    fun a _ => .inr (.inl ⟨e,rfl⟩),fun is => (by cases is)⟩
  · by_cases here : i = j
    · exact here ▸ cbytes
    · exact same.cbytes j fun is => here (some.inj is)
  · rw [taking] at is
    cases is
  · by_cases here : i = j
    · subst here
      rcases why with alike | quits
      · exact .inl (alike ▸ is)
      · exact .inr quits
    · exact .inl ((same.locked j fun is => here (some.inj is)).trans is)
  · rw [goes_self] at is
    cases is
  rw [goes_self] at is
  cases is

theorem msgsndFail_turn {h : Nat} (taking : (w.threads t).taking = none) (ran : msgsndFail c w t a h e = some (w',r)) :
    Turn c w w' event t r (some (ipcidToIx a.msqidr)) := by
  unfold msgsndFail at ran
  split at ran
  · cases ran
  next s freed =>
  cases ran
  refine .finishes ((Same.of_eq (msgFreehdr_frame freed)).trans (lock_same ..)) (fun j is => ?_) (fun _ _ => .inl ⟨e,rfl⟩) fun is => (by cases is)
  rw [taking] at is
  cases is

theorem msgsndText_turn {h : Nat} {rest : List UInt8} {next : Option Nat} (sender : (w.threads t).sender = some a) (taking : (w.threads t).taking = none)
    (ran : msgsndText c w t a h rest next = some (w',r)) : ∃ b,Turn c w w' event t r b := by
  have not_ (j : Nat) (is : (w.threads t).taking = some j) : ipcidToIx a.msqidr = j := by
    rw [taking] at is
    cases is
  unfold msgsndText at ran
  split at ran
  · split at ran
    · unfold msgsndFinish at ran
      dsimp only at ran
      split at ran
      · exact ⟨_,msgsndFail_turn taking ran⟩
      next lives =>
      split at ran
      · cases ran
      next s put =>
      cases ran
      refine ⟨_,.finishes ((lock_same ..).trans (msgPut_frame put)) not_ (fun a' is => .inr ⟨rfl,?_⟩) fun _ => ⟨a,sender⟩⟩
      rw [sender] at is
      cases is
      exact lives
    · cases ran
  split at ran
  · cases ran
  split at ran
  · cases ran
    exact ⟨none,.moves _ sender.symm taking.symm nofun⟩
  · cases ran

section
variable (sender : (w.threads t).sender = none)
include sender

theorem msgrcvFinish_turn {a : Recv} {h : Nat} {r' : Reply} (taking : (w.threads t).taking = some (ipcidToIx a.msqidr))
    (unsent : r' ≠ .sent) (ran : msgrcvFinish c w t a h r' = some (w',r)) : Turn c w w' event t r (some (ipcidToIx a.msqidr)) := by
  unfold msgrcvFinish at ran
  split at ran
  · cases ran
  next s freed =>
  cases ran
  refine .finishes (Same.of_eq (msgFreehdr_frame freed)) (fun j is => ?_) (fun a is => ?_) fun is => absurd is unsent
  · rw [taking] at is
    exact some.inj is
  rw [sender] at is
  cases is

theorem msgrcvText_turn {a : Recv} {h msgsz len : Nat} {got : List UInt8} {next : Option Nat} 
    (taking : (w.threads t).taking = some (ipcidToIx a.msqidr)) (ran : msgrcvText c w t a h msgsz len got next = some (w',r)) : ∃ b,Turn c w w' event t r b := by
  unfold msgrcvText at ran
  split at ran
  · split at ran
    · cases ran
    split at ran
    · cases ran
      exact ⟨none,.moves _ sender.symm taking.symm nofun⟩
    · cases ran
  · exact ⟨_,msgrcvFinish_turn sender taking (fun is => by cases is) ran⟩

theorem msgrcvTry_turn {a : Recv} (taking : (w.threads t).taking = none) (ran : msgrcvTry c w t a = some (w',r)) :
    Turn c w w' event t r none := by
  unfold msgrcvTry at ran
  dsimp only at ran
  split at ran
  · cases ran
  · cases ran
    exact .quits _ (.inl rfl) taking
  · split at ran
    · cases ran
      exact .quits _ (.inl rfl) taking
    cases ran
    exact .moves _ sender.symm taking.symm nofun
  next h s found =>
  cases ran
  obtain ⟨same,locked⟩ := msgTake_frame found
  have all : Same w.msgs (s.setQueue (ipcidToIx a.msqidr) { s.msqs (ipcidToIx a.msqidr) with msgCbytes := (s.msqs (ipcidToIx a.msqidr)).msgCbytes - (s.msghdrs h).msgTs, msgQnum := (s.msqs (ipcidToIx a.msqidr)).msgQnum - 1 })
      (some (ipcidToIx a.msqidr)) := same.trans (.queue _ (by rfl) (by rfl))
  refine ⟨fun u ne => goes_else ne,all.seq,all.qbytes,fun j _ ne => ?_,fun j is => ?_,fun j is _ => .inl ?_,fun a own woken is => ?_,fun a is => ?_,fun a is => ?_,fun is => (by cases is)⟩
  · refine all.cbytes j fun is => ne ?_
    rw [goes_self]
    exact is
  · rw [taking] at is
    cases is
  · by_cases here : ipcidToIx a.msqidr = j
    · subst here
      exact (setQueue_locked s (ipcidToIx a.msqidr) _).trans (locked.trans is)
    · exact (all.locked j fun is => here (some.inj is)).trans is
  · rw [goes_self] at is
    cases is
  · rw [goes_self] at is
    cases is
  rw [sender] at is
  cases is
end

def Event.thread : Event → Option Nat
  | .msgsnd _ t _ => some t
  | .msgrcv _ t _ => some t
  | .resume t _ => some t
  | .copy t _ => some t
  | _ => none

theorem perform_turn (mine : event.thread = some t) (step : Step c w event r w') : ∃ b,Turn c w w' event t r b := by
  obtain ⟨ready,ran⟩ := step
  have refused (idle : w.threads t = .idle) (e : Errno) (r : Reply) (w' : World) (ran : some (w,Reply.fails e) = some (w',r)) : ∃ b,Turn c w w' event t r b := by
    cases ran
    have turn : Turn c w (w.goes t .idle) event t (.fails e) none := .quits e (.inl rfl) (by rw [idle]; rfl)
    rw [goes_id idle] at turn
    exact ⟨none,turn⟩
  cases event with
  | msgget granted key creat excl => cases mine
  | msgctl granted msqid cmd => cases mine
  | msgsnd granted t a =>
    cases mine
    have idle : w.threads t = .idle := of_decide_eq_true ready
    dsimp only [perform] at ran
    unfold msgsnd1 at ran
    dsimp only at ran
    split at ran
    · exact refused idle _ _ _ ran
    split at ran
    · exact refused idle _ _ _ ran
    next lives =>
    split at ran
    · exact refused idle _ _ _ ran
    next seq =>
    split at ran
    · exact refused idle _ _ _ ran
    · exact ⟨none,(msgsndTry_tried ran).enter idle lives (not_not.mp seq)⟩
  | msgrcv granted t a =>
    cases mine
    have idle : w.threads t = .idle := of_decide_eq_true ready
    dsimp only [perform] at ran
    unfold msgrcv1 at ran
    dsimp only at ran
    split at ran
    · exact refused idle _ _ _ ran
    split at ran
    · exact refused idle _ _ _ ran
    split at ran
    · exact refused idle _ _ _ ran
    split at ran
    · exact refused idle _ _ _ ran
    · exact ⟨none,msgrcvTry_turn (by rw [idle]; rfl) (by rw [idle]; rfl) ran⟩
  | resume t signal =>
    cases mine
    dsimp only [perform] at ran
    dsimp only [Ready] at ready
    cases at_ : w.threads t with
    | sndWait a own woken =>
      rw [at_] at ran
      obtain ⟨w₁,is⟩ : ∃ w₁,w₁ = if own then w.put (w.msgs.lock (ipcidToIx a.msqidr) false) else w := ⟨_,rfl⟩
      unfold msgsndWake at ran
      dsimp only at ran
      rw [← is] at ran
      have none_ : (w.threads t).taking = none := by
        rw [at_]
        rfl
      have alike (why : Event.resume t signal = .resume t true ∨ (w.msgs.msqs (ipcidToIx a.msqidr)).msgQbytes = 0) :
          w₁ = w ∨ ∃ j,Quits w (.resume t signal) t j ∧ w₁ = w.put (w.msgs.lock j false) := by
        cases own with
        | true => exact .inr ⟨_,⟨a,woken,at_,rfl,why.imp_right .inl⟩,is⟩
        | false => exact .inl is
      have qbytes : (w₁.msgs.msqs (ipcidToIx a.msqidr)).msgQbytes = (w.msgs.msqs (ipcidToIx a.msqidr)).msgQbytes := by
        rw [is]
        cases own with
        | true => exact (lock_same w.msgs (ipcidToIx a.msqidr) false).qbytes _
        | false => rfl
      split at ran
      · next raised =>
        cases ran
        exact ⟨none,.quits _ (alike (.inl (by rw [raised]))) none_⟩
      next quiet =>
      split at ran
      · next gone =>
        cases ran
        exact ⟨none,.quits _ (alike (.inr (qbytes.symm.trans gone))) none_⟩
      next lives =>
      rw [Bool.eq_false_iff.mpr quiet]
      exact ⟨none,(msgsndTry_tried ran).wake at_ is (qbytes ▸ lives)⟩
    | rcvWait a woken =>
      rw [at_] at ran
      unfold msgrcvWake at ran
      dsimp only at ran
      split at ran
      · cases ran
        exact ⟨none,.quits _ (.inl rfl) (by rw [at_]; rfl)⟩
      split at ran
      · cases ran
        exact ⟨none,.quits _ (.inl rfl) (by rw [at_]; rfl)⟩
      · exact ⟨none,msgrcvTry_turn (by rw [at_]; rfl) (by rw [at_]; rfl) ran⟩
    | _ =>
      rw [at_] at ready
      cases ready
  | copy t stop =>
    cases mine
    dsimp only [perform] at ran
    dsimp only [Ready] at ready
    cases at_ : w.threads t with
    | sndType a h =>
      rw [at_] at ran
      dsimp only at ran
      unfold msgsndTyped at ran
      split at ran
      · exact ⟨_,msgsndFail_turn (by rw [at_]; rfl) ran⟩
      split at ran
      · exact ⟨_,(msgsndFail_turn (by rw [put_threads,at_]; rfl) ran).before rfl⟩
      obtain ⟨b,turn⟩ := msgsndText_turn (by rw [put_threads,at_]; rfl) (by rw [put_threads,at_]; rfl) ran
      exact ⟨b,turn.before rfl⟩
    | sndText a h rest next =>
      rw [at_] at ran
      unfold msgsndCopied at ran
      dsimp only at ran
      split at ran
      · exact ⟨_,(msgsndFail_turn (by rw [put_threads,at_]; rfl) ran).before rfl⟩
      obtain ⟨b,turn⟩ := msgsndText_turn (by rw [put_threads,at_]; rfl) (by rw [put_threads,at_]; rfl) ran
      exact ⟨b,turn.before rfl⟩
    | rcvType a h msgsz =>
      rw [at_] at ran
      dsimp only at ran
      unfold msgrcvTyped at ran
      split at ran
      · exact ⟨_,msgrcvFinish_turn (by rw [at_]; rfl) (by rw [at_]; rfl) (fun is => by cases is) ran⟩
      · exact msgrcvText_turn (by rw [at_]; rfl) (by rw [at_]; rfl) ran
    | rcvText a h msgsz len got next =>
      rw [at_] at ran
      dsimp only at ran
      unfold msgrcvCopied at ran
      split at ran
      · exact ⟨_,msgrcvFinish_turn (by rw [at_]; rfl) (by rw [at_]; rfl) (fun is => by cases is) ran⟩
      · exact msgrcvText_turn (by rw [at_]; rfl) (by rw [at_]; rfl) ran
    | _ =>
      rw [at_] at ready
      cases ready

def Event.creates (c : Msginfo) (w : World) : Event → Option Nat
  | .msgget _ key creat _ =>
    if (key = 0 ∨ creat = true) ∧ (if key = 0 then none else (List.range c.msgmni).find? fun ix => (w.msgs.msqs ix).msgQbytes ≠ 0 ∧ (w.msgs.msqs ix).key = key) = none then
      (List.range c.msgmni).find? fun ix => (w.msgs.msqs ix).msgQbytes = 0 ∧ (w.msgs.msqs ix).locked = false
    else none
  | _ => none

theorem perform_global (none_ : event.thread = none) (step : Step c w event r w') : r ≠ .sent ∧ (w' = w ∨
    (∃ ix q,event.creates c w = some ix ∧ w' = w.put (w.msgs.setQueue ix q) ∧ (w.msgs.msqs ix).msgQbytes = 0 ∧ (w.msgs.msqs ix).locked = false ∧ q.locked = false ∧ q.msgQbytes = c.msgmnb) ∨
    (∃ ix s,w' = (w.put s).broadcast ix ∧ (w.msgs.msqs ix).msgQbytes ≠ 0 ∧ (s.msqs ix).msgQbytes = 0 ∧ (∀ j,j ≠ ix → (s.msqs j).msgQbytes = (w.msgs.msqs j).msgQbytes) ∧
      (∀ j,(s.msqs j).seq = (w.msgs.msqs j).seq ∧ (s.msqs j).locked = (w.msgs.msqs j).locked) ∧ ∀ j,j ≠ ix → (s.msqs j).msgCbytes = (w.msgs.msqs j).msgCbytes) ∨
    ∃ granted msqid size super ix qbytes,event = .msgctl granted msqid (.set size super) ∧ w' = w.put (w.msgs.setQueue ix { w.msgs.msqs ix with msgQbytes := qbytes }) ∧
      (w.msgs.msqs ix).msgQbytes ≠ 0) := by
  obtain ⟨-,ran⟩ := step
  cases event with
  | msgget granted key creat excl =>
    have ran := some.inj ran
    unfold sysMsgget at ran
    dsimp only at ran
    split at ran
    · split at ran
      · cases ran
        exact ⟨nofun,.inl rfl⟩
      split at ran
      · cases ran
        exact ⟨nofun,.inl rfl⟩
      cases ran
      exact ⟨nofun,.inl rfl⟩
    next mine =>
    split at ran
    · next make =>
      split at ran
      · cases ran
        exact ⟨nofun,.inl rfl⟩
      next ix found =>
      cases ran
      have free : (w.msgs.msqs ix).msgQbytes = 0 ∧ (w.msgs.msqs ix).locked = false := by simpa using List.find?_some found
      refine ⟨nofun,.inr (.inl ⟨ix,_,?_,rfl,free.1,free.2,rfl,rfl⟩)⟩
      exact (if_pos ⟨make,mine⟩).trans found
    cases ran
    exact ⟨nofun,.inl rfl⟩
  | msgctl granted msqid cmd =>
    dsimp only [perform] at ran
    unfold msgctl1 at ran
    dsimp only at ran
    split at ran
    · cases ran
      exact ⟨nofun,.inl rfl⟩
    split at ran
    · cases ran
      exact ⟨nofun,.inl rfl⟩
    next lives =>
    split at ran
    · cases ran
      exact ⟨nofun,.inl rfl⟩
    split at ran
    · cases ran
      exact ⟨nofun,.inl rfl⟩
    cases cmd with
    | rmid =>
      dsimp only at ran
      split at ran
      · cases ran
      next s loop =>
      split at ran
      · cases ran
        obtain ⟨same,locked⟩ := rmidLoop_frame _ loop
        refine ⟨nofun,.inr (.inr (.inl ⟨_,_,rfl,lives,by rw [setQueue_at],fun j ne => ?_,fun j => ?_,fun j ne => ?_⟩))⟩
        · rw [setQueue_else ne]
          exact same.qbytes j
        · by_cases here : j = ipcidToIx msqid
          · subst here
            rw [setQueue_at]
            exact ⟨same.seq _,locked⟩
          rw [setQueue_else here]
          exact ⟨same.seq j,same.locked j fun is => here (some.inj is).symm⟩
        rw [setQueue_else ne]
        exact same.cbytes j fun is => ne (some.inj is).symm
      · cases ran
    | set size super =>
      dsimp only at ran
      obtain ⟨qbytes,is⟩ : ∃ qbytes,qbytes = if c.msgmnb < size then c.msgmnb else size := ⟨_,rfl⟩
      rw [← is] at ran
      split at ran
      · cases ran
        exact ⟨nofun,.inl rfl⟩
      split at ran
      · cases ran
        exact ⟨nofun,.inl rfl⟩
      cases ran
      exact ⟨nofun,.inr (.inr (.inr ⟨granted,msqid,size,super,_,_,rfl,rfl,lives⟩))⟩
  | msgsnd granted t a => cases none_
  | msgrcv granted t a => cases none_
  | resume t signal => cases none_
  | copy t stop => cases none_
end NetbsdAvr32.Sysvmsg
