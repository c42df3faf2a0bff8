import NetbsdAvr32.MsgTurn

-- A message comes into the queue that its sender named, unless a slot is set up
-- again before the senders that slept on the removed queue have gone.
namespace NetbsdAvr32.Sysvmsg
open Function Linked Sysvsem Option
variable {c : Msginfo} {w w' w₁ : World} {t ix : Nat} {a : Send} {r : Reply} {event : Event} {trace later : List (Event × Reply)} {allowed : World → Event → Prop}

inductive Runs (c : Msginfo) (allowed : World → Event → Prop) : World → List (Event × Reply) → World → Prop where
  | nil (w : World) : Runs c allowed w [] w
  | step {w w₁ w' : World} {event : Event} {r : Reply} {trace : List (Event × Reply)} (step : Step c w event r w₁) (ok : allowed w event) (rest : Runs c allowed w₁ trace w') :
      Runs c allowed w ((event,r) :: trace) w'

theorem Runs.append {w₂ : World} (one : Runs c allowed w trace w₁) (two : Runs c allowed w₁ later w₂) : Runs c allowed w (trace ++ later) w₂ := by
  induction one with
  | nil => exact two
  | step step ok _ ih => exact .step step ok (ih two)

theorem Runs.whole (run : Runs c allowed w trace w') (whole : Whole c w) : Whole c w' := by
  induction run with
  | nil => exact whole
  | step step ok rest ih =>
    obtain ⟨w₁,r,ran,whole₁,-⟩ := perform_ends whole step.1
    rw [step.2] at ran
    cases ran
    exact ih whole₁

theorem Runs.keep {p : World → Prop} (run : Runs c allowed w trace w') (whole : Whole c w) (start : p w)
    (kept : ∀ w event r w',Whole c w → p w → Step c w event r w' → allowed w event → p w') : p w' := by
  induction run with
  | nil => exact start
  | step step ok rest ih => exact ih ((Runs.step step ok (.nil _)).whole whole) (kept _ _ _ _ whole start step ok)

-- No slot is set up again on which a sender has still to find its queue gone.
def Spares (c : Msginfo) (w : World) (event : Event) : Prop :=
  ∀ ix,event.creates c w = some ix → ∀ t a weOwnIt woken,w.threads t = .sndWait a weOwnIt woken → ipcidToIx a.msqidr ≠ ix

def Aimed (w : World) : Prop := ∀ t a,(w.threads t).sender = some a → (w.msgs.msqs (ipcidToIx a.msqidr)).seq = ipcidToSeq a.msqidr

theorem Spares.safe (spares : Spares c w event) (whole : Whole c w) (creates : event.creates c w = some ix) (free : (w.msgs.msqs ix).locked = false)
    (mine : (w.threads t).sender = some a) : ipcidToIx a.msqidr ≠ ix := by
  obtain ⟨hdrs,segs,inv⟩ := whole
  have owner (owns : (w.threads t).owns = some (ipcidToIx a.msqidr)) : ipcidToIx a.msqidr ≠ ix := by
    rintro rfl
    rw [((inv.locks _).2 t owns).1] at free
    cases free
  cases at_ : w.threads t with
  | sndWait a' own woken =>
    rw [at_] at mine
    cases mine
    exact spares ix creates t _ own woken at_
  | sndType a' h | sndText a' h rest next =>
    rw [at_] at mine
    cases mine
    exact owner (by rw [at_]; rfl)
  | _ =>
    rw [at_] at mine
    cases mine

@[simp] theorem heard_sender (call : Call) (b : Option Nat) : (call.heard b).sender = call.sender := by
  cases b with
  | none => rfl
  | some ix => exact wake_sender ix call

theorem Aimed.step (aimed : Aimed w) (whole : Whole c w) (step : Step c w event r w') (spares : Spares c w event) : Aimed w' := by
  cases mine : event.thread with
  | some t =>
    obtain ⟨b,turn⟩ := perform_turn mine step
    intro u a is
    rw [turn.seq]
    by_cases same : u = t
    · subst same
      exact (turn.enters a is).elim (aimed u a) id
    rw [turn.others u same,heard_sender] at is
    exact aimed u a is
  | none =>
    intro u a is
    rcases (perform_global mine step).2 with rfl | ⟨ix,q,creates,rfl,_,free,_⟩ | ⟨ix,s,rfl,_,_,_,same,_⟩ | ⟨_,_,_,_,ix,qbytes,_,rfl,_⟩
    · exact aimed u a is
    · have far := spares.safe whole creates free is
      rw [put_msgs,setQueue_else far]
      exact aimed u a is
    · have is : (w.threads u).sender = some a := by
        rw [← wake_sender ix]
        exact is
      exact ((same _).1).trans (aimed u a is)
    by_cases here : ipcidToIx a.msqidr = ix
    · rw [put_msgs,← here,setQueue_at]
      exact aimed u a is
    rw [put_msgs,setQueue_else here]
    exact aimed u a is

def Doomed (t : Nat) (a : Send) (w : World) : Prop := (w.threads t).sender = some a ∧ (w.msgs.msqs (ipcidToIx a.msqidr)).msgQbytes = 0

theorem Doomed.step (doomed : Doomed t a w) (whole : Whole c w) (step : Step c w event r w') (spares : Spares c w event) :
    Doomed t a w' ∧ (event.thread = some t → r = .goesOn) ∨ event.thread = some t ∧ ∃ e,r = .fails e := by
  obtain ⟨sender,gone⟩ := doomed
  cases mine : event.thread with
  | some u =>
    obtain ⟨b,turn⟩ := perform_turn mine step
    by_cases same : u = t
    · subst same
      rcases turn.answers a sender with ⟨goesOn,still⟩ | fails | ⟨_,lives⟩
      · exact .inl ⟨⟨still,(turn.qbytes _).trans gone⟩,fun _ => goesOn⟩
      · exact .inr ⟨rfl,fails⟩
      · exact absurd gone lives
    refine .inl ⟨⟨?_,(turn.qbytes _).trans gone⟩,fun is => absurd (some.inj is) same⟩
    rw [turn.others t (Ne.symm same),heard_sender]
    exact sender
  | none =>
    refine .inl ⟨?_,nofun⟩
    rcases (perform_global mine step).2 with rfl | ⟨ix,q,creates,rfl,_,free,_⟩ | ⟨ix,s,rfl,lives,_,others,_⟩ | ⟨_,_,_,_,ix,qbytes,_,rfl,lives⟩
    · exact ⟨sender,gone⟩
    · have far := spares.safe whole creates free sender
      refine ⟨sender,?_⟩
      rw [put_msgs,setQueue_else far]
      exact gone
    · have far : ipcidToIx a.msqidr ≠ ix := by
        rintro rfl
        exact lives gone
      exact ⟨(wake_sender ix _).trans sender,(others _ far).trans gone⟩
    have far : ipcidToIx a.msqidr ≠ ix := by
      rintro rfl
      exact lives gone
    refine ⟨sender,?_⟩
    rw [put_msgs,setQueue_else far]
    exact gone

def answer (t : Nat) : List (Event × Reply) → Option Reply
  | [] => none
  | (event,r) :: rest => if event.thread = some t ∧ r ≠ .goesOn then some r else answer t rest

theorem Doomed.run (doomed : Doomed t a w) (whole : Whole c w) (run : Runs c (Spares c) w trace w') : answer t trace = none ∨ ∃ e,answer t trace = some (.fails e) := by
  induction run with
  | nil => exact .inl rfl
  | step step ok rest ih =>
    have whole₁ := (Runs.step step ok (.nil _)).whole whole
    unfold answer
    rcases doomed.step whole step ok with ⟨still,goesOn⟩ | ⟨mine,e,fails⟩
    · rw [if_neg fun both => both.2 (goesOn both.1)]
      exact ih still whole₁
    rw [if_pos ⟨mine,by rw [fails]; exact nofun⟩]
    exact .inr ⟨e,congrArg some fails⟩

theorem Receives.unsent {a : Recv} (receives : Receives c w t a w' r) : r ≠ .sent := by
  rcases receives with ⟨_,rfl | ⟨e,rfl⟩⟩ | ⟨rfl,_⟩ <;> exact nofun

theorem Hands.unsent {a : Recv} (hands : Hands c w t a w' r) : r ≠ .sent := by
  rcases hands with ⟨rfl,_⟩ | ⟨e,rfl,_⟩ | ⟨letter,_,rfl,_⟩ <;> exact nofun

theorem Sends.sent (sends : Sends c w a w' .sent) : mail c w' = (mail c w).post (ipcidToIx a.msqidr) ⟨a.msgType,a.text⟩ := by
  unfold Sends at sends
  rwa [if_pos rfl] at sends

theorem Served.sent (served : Served c w event w' .sent) (mine : event.thread = some t) (sender : (w.threads t).sender = some a) :
    mail c w' = (mail c w).post (ipcidToIx a.msqidr) ⟨a.msgType,a.text⟩ := by
  cases event with
  | msgget granted key creat excl => cases mine
  | msgctl granted msqid cmd => cases mine
  | msgsnd granted u a' => exact absurd rfl served.2
  | msgrcv granted u a' => exact absurd rfl (Receives.unsent served)
  | resume u signal =>
    cases mine
    have served : Wakes c w t (w.threads t) w' .sent := served
    cases at_ : w.threads t with
    | rcvWait a' woken =>
      rw [at_] at served
      exact absurd rfl (Receives.unsent served)
    | _ =>
      rw [at_] at served
      exact absurd rfl served.2
  | copy u stop =>
    cases mine
    have served : Copies c w t (w.threads t) w' .sent := served
    cases at_ : w.threads t with
    | sndType a' h | sndText a' h rest next =>
      rw [at_] at served sender
      cases sender
      exact Sends.sent served
    | rcvType a' h msgsz | rcvText a' h msgsz len got next =>
      rw [at_] at served
      exact absurd rfl (Hands.unsent served)
    | _ =>
      rw [at_] at served
      exact served.elim

def follow (c : Msginfo) : World → List Event → Option World
  | w, [] => some w
  | w, event :: rest =>
    if Ready w event then
      match perform c w event with
      | none => none
      | some (w',_) => follow c w' rest
    else none

theorem follow_runs (events : List Event) {w : World} (ran : follow c w events = some w') (all : ∀ event,event ∈ events → ∀ w,allowed w event) :
    ∃ trace,trace.length = events.length ∧ Runs c allowed w trace w' := by
  induction events generalizing w with
  | nil =>
    cases ran
    exact ⟨[],rfl,.nil _⟩
  | cons event rest ih =>
    unfold follow at ran
    split at ran
    · next ready =>
      split at ran
      · cases ran
      next w₁ r performed =>
      obtain ⟨trace,length,run⟩ := ih ran fun event mem => all event (List.mem_cons_of_mem _ mem)
      exact ⟨(event,r) :: trace,congrArg (· + 1) length,.step ⟨ready,performed⟩ (all event (List.mem_cons_self ..) w) run⟩
    · cases ran

-- A sender waits for another one to copy its message when the queue is removed.
-- The other one gives the lock back, a new queue is made in the slot, and only
-- then does the sender run.
def late : List Event :=
  [.msgget true 0 true false,.msgsnd true 1 ⟨65536,1,[],false⟩,.msgsnd true 0 ⟨65536,1,[7],false⟩,.msgctl true 65536 .rmid,.copy 1 none,.msgget true 0 true false,.resume 0 false,
    .copy 0 none]

-- A sender that sleeps and has not been woken still lacks something, unless
-- what it lacked came free through another queue.
variable {w₀ w₂ : World} {u : Nat} {own woken : Bool} {b : Option Nat}

def Event.plain : Event → Bool
  | .msgctl _ _ (.set _ _) => false
  | .resume _ true => false
  | _ => true

structure Calm (c : Msginfo) (w : World) : Prop where
  sizes : ∀ j,(w.msgs.msqs j).msgQbytes = 0 ∨ (w.msgs.msqs j).msgQbytes = c.msgmnb
  waits : ∀ t a own woken,w.threads t = .sndWait a own woken → a.nowait = false ∧ a.text.length ≤ c.msgmnb
  live : ∀ t a own,w.threads t = .sndWait a own false → (w.msgs.msqs (ipcidToIx a.msqidr)).msgQbytes ≠ 0
  blocked : ∀ t a own,w.threads t = .sndWait a own false → (w.msgs.msqs (ipcidToIx a.msqidr)).locked = true

theorem wake_waits {call : Call} (is : call.wake ix = .sndWait a own woken) : ∃ was,call = .sndWait a own was ∧ woken = (was || decide (ipcidToIx a.msqidr = ix)) := by
  cases call with
  | sndWait a' own' woken' =>
    obtain ⟨rfl,rfl,rfl⟩ := is
    exact ⟨woken',rfl,rfl⟩
  | _ => cases is

theorem heard_waits {call : Call} (is : call.heard b = .sndWait a own woken) : ∃ was,call = .sndWait a own was := by
  cases b with
  | none => exact ⟨woken,is⟩
  | some ix =>
    obtain ⟨was,same,_⟩ := wake_waits is
    exact ⟨was,same⟩

theorem wake_asleep {call : Call} (is : call.wake ix = .sndWait a own false) : call = .sndWait a own false ∧ ipcidToIx a.msqidr ≠ ix := by
  obtain ⟨was,same,quiet⟩ := wake_waits is
  have := (Bool.or_eq_false_iff.mp quiet.symm)
  exact ⟨this.1 ▸ same,of_decide_eq_false this.2⟩

theorem heard_asleep {call : Call} (is : call.heard b = .sndWait a own false) : call = .sndWait a own false ∧ b ≠ some (ipcidToIx a.msqidr) := by
  cases b with
  | none => exact ⟨is,nofun⟩
  | some ix =>
    obtain ⟨same,far⟩ := wake_asleep is
    exact ⟨same,fun eq => far (some.inj eq).symm⟩

theorem Calm.kept (calm : Calm c w) (plain : event.plain = true) (lives : (w.msgs.msqs ix).msgQbytes ≠ 0) : ¬Quits w event u ix := by
  rintro ⟨a,woken,at_,rfl,rfl | gone | big | nowait⟩
  · cases plain
  · exact lives gone
  · have full := (calm.sizes _).resolve_left lives
    have := (calm.waits u a true woken at_).2
    omega
  rw [(calm.waits u a true woken at_).1] at nowait
  cases nowait

theorem Calm.step (calm : Calm c w) (step : Step c w event r w') (plain : event.plain = true) : Calm c w' := by
  cases mine : event.thread with
  | some u =>
    obtain ⟨b,turn⟩ := perform_turn mine step
    refine ⟨fun j => ?_,fun t a own woken is => ?_,fun t a own is => ?_,fun t a own is => ?_⟩
    · rw [turn.qbytes]
      exact calm.sizes j
    · by_cases same : t = u
      · subst same
        obtain ⟨_,nowait,fits,lives,_⟩ := turn.sleeps a own woken is
        have full := (calm.sizes _).resolve_left lives
        exact ⟨nowait,full ▸ fits⟩
      rw [turn.others t same] at is
      obtain ⟨was,is⟩ := heard_waits is
      exact calm.waits t a own was is
    · rw [turn.qbytes]
      by_cases same : t = u
      · subst same
        exact (turn.sleeps a own false is).2.2.2.1
      rw [turn.others t same] at is
      exact calm.live t a own (heard_asleep is).1
    by_cases same : t = u
    · subst same
      exact (turn.sleeps a own false is).2.2.2.2.1
    rw [turn.others t same] at is
    obtain ⟨is,silent⟩ := heard_asleep is
    exact (turn.locked _ (calm.blocked t a own is) silent).resolve_right (calm.kept plain (calm.live t a own is))
  | none =>
    rcases (perform_global mine step).2 with rfl | ⟨ix,q,_,rfl,gone,_,_,size⟩ | ⟨ix,s,rfl,_,none_,sizes,same,_⟩ | ⟨_,_,_,_,_,_,rfl,_⟩
    · exact calm
    · have far (t : Nat) (a : Send) (own : Bool) (is : w.threads t = .sndWait a own false) : ipcidToIx a.msqidr ≠ ix := by
        rintro rfl
        exact calm.live t a own is gone
      refine ⟨fun j => ?_,calm.waits,fun t a own is => ?_,fun t a own is => ?_⟩
      · by_cases here : j = ix
        · subst here
          rw [put_msgs,setQueue_at]
          exact .inr size
        rw [put_msgs,setQueue_else here]
        exact calm.sizes j
      · rw [put_msgs,setQueue_else (far t a own is)]
        exact calm.live t a own is
      rw [put_msgs,setQueue_else (far t a own is)]
      exact calm.blocked t a own is
    · refine ⟨fun j => ?_,fun t a own woken is => ?_,fun t a own is => ?_,fun t a own is => ?_⟩
      · by_cases here : j = ix
        · exact .inl (here ▸ none_)
        have same := sizes j here
        exact (calm.sizes j).imp same.trans same.trans
      · obtain ⟨was,is,_⟩ := wake_waits (show (w.threads t).wake ix = _ from is)
        exact calm.waits t a own was is
      · obtain ⟨is,far⟩ := wake_asleep (show (w.threads t).wake ix = _ from is)
        exact fun gone => calm.live t a own is ((sizes _ far).symm.trans gone)
      obtain ⟨is,far⟩ := wake_asleep (show (w.threads t).wake ix = _ from is)
      exact ((same _).2).trans (calm.blocked t a own is)
    · cases plain

def Lacks (c : Msginfo) (w : World) (a : Send) : Prop := w.msgs.nfreeMsgmaps < segsNeeded c a.text.length ∨ w.msgs.freeMsghdrs = none
def Frees (w w' : World) : Prop := w.msgs.nfreeMsgmaps < w'.msgs.nfreeMsgmaps ∨ w.msgs.freeMsghdrs = none ∧ w'.msgs.freeMsghdrs ≠ none

-- The sender `t` sleeps on, and nothing it lacks comes free: what is freed through
-- its own queue would wake it.
inductive Spell (c : Msginfo) (t : Nat) (a : Send) (own : Bool) : World → World → Prop where
  | here {w : World} (asleep : w.threads t = .sndWait a own false) : Spell c t a own w w
  | step {w w₁ w₂ : World} {event : Event} {r : Reply} (spell : Spell c t a own w w₁) (step : Step c w₁ event r w₂) (plain : event.plain = true)
      (asleep : w₂.threads t = .sndWait a own false) (kept : ¬(Lacks c w₁ a ∧ Frees w₁ w₂)) : Spell c t a own w w₂

theorem Spell.asleep (spell : Spell c t a own w w') : w'.threads t = .sndWait a own false := by
  cases spell with
  | here asleep => exact asleep
  | step _ _ _ asleep _ => exact asleep

theorem Lacks.stay (lacks : Lacks c w a) (kept : ¬(Lacks c w a ∧ Frees w w')) : Lacks c w' a := by
  have same : ¬Frees w w' := fun frees => kept ⟨lacks,frees⟩
  unfold Frees at same
  rw [not_or,not_and,not_not] at same
  rcases lacks with few | none_
  · exact .inl (by omega)
  · exact .inr (same.2 none_)

def Waits (c : Msginfo) (w : World) (a : Send) : Prop :=
  shortOf c w.msgs (ipcidToIx a.msqidr) a.text.length ∨ ∃ u,(w.threads u).taking = some (ipcidToIx a.msqidr)

theorem shortOf_iff : shortOf c w.msgs (ipcidToIx a.msqidr) a.text.length ↔
    ((w.msgs.msqs (ipcidToIx a.msqidr)).msgQbytes : Int) < a.text.length + (w.msgs.msqs (ipcidToIx a.msqidr)).msgCbytes ∨ Lacks c w a := Iff.rfl

theorem Waits.step (waits : Waits c w a) (calm : Calm c w) (asleep : w.threads t = .sndWait a own false) (step : Step c w event r w') (plain : event.plain = true)
    (still : w'.threads t = .sndWait a own false) (kept : ¬(Lacks c w a ∧ Frees w w')) : Waits c w' a := by
  have lives := calm.live t a own asleep
  cases mine : event.thread with
  | some u =>
    obtain ⟨b,turn⟩ := perform_turn mine step
    have ne : t ≠ u := by
      rintro rfl
      cases event with
      | msgsnd granted v a' | msgrcv granted v a' =>
        cases mine
        have := of_decide_eq_true step.1
        rw [asleep] at this
        cases this
      | resume v signal =>
        cases mine
        have ready := step.1
        dsimp only [Ready] at ready
        rw [asleep] at ready
        cases signal with
        | true => cases plain
        | false => cases ready
      | copy v stop =>
        cases mine
        have ready := step.1
        dsimp only [Ready] at ready
        rw [asleep] at ready
        cases ready
      | _ => cases mine
    have silent : b ≠ some (ipcidToIx a.msqidr) := by
      rw [turn.others t ne] at still
      exact (heard_asleep still).2
    rcases waits with short | ⟨v,takes⟩
    · rcases shortOf_iff.mp short with full | lacks
      · by_cases takes : (w'.threads u).taking = some (ipcidToIx a.msqidr)
        · exact .inr ⟨u,takes⟩
        refine .inl (shortOf_iff.mpr (.inl ?_))
        rw [turn.qbytes,turn.cbytes _ silent takes]
        exact full
      · exact .inl (shortOf_iff.mpr (.inr (lacks.stay kept)))
    by_cases same : v = u
    · subst same
      exact .inr ⟨v,(turn.taking _ takes).resolve_left silent⟩
    refine .inr ⟨v,?_⟩
    rw [turn.others v same]
    cases b with
    | none => exact takes
    | some ix => exact (wake_taking ix _).trans takes
  | none =>
    rcases (perform_global mine step).2 with rfl | ⟨ix,q,_,rfl,gone,_,_,size⟩ | ⟨ix,s,rfl,_,_,sizes,_,cbytes⟩ | ⟨_,_,_,_,_,_,rfl,_⟩
    · exact waits
    · have far : ipcidToIx a.msqidr ≠ ix := by
        rintro rfl
        exact lives gone
      rcases waits with short | takes
      · rcases shortOf_iff.mp short with full | lacks
        · refine .inl (shortOf_iff.mpr (.inl ?_))
          rw [put_msgs,setQueue_else far]
          exact full
        · exact .inl (shortOf_iff.mpr (.inr (lacks.stay kept)))
      · exact .inr takes
    · obtain ⟨_,far⟩ := wake_asleep (show (w.threads t).wake ix = _ from still)
      rcases waits with short | ⟨v,takes⟩
      · rcases shortOf_iff.mp short with full | lacks
        · refine .inl (shortOf_iff.mpr (.inl ?_))
          change ((s.msqs (ipcidToIx a.msqidr)).msgQbytes : Int) < a.text.length + (s.msqs (ipcidToIx a.msqidr)).msgCbytes
          rw [sizes _ far,cbytes _ far]
          exact full
        · exact .inl (shortOf_iff.mpr (.inr (lacks.stay kept)))
      · exact .inr ⟨v,(wake_taking ix _).trans takes⟩
    · cases plain

theorem boot_calm (c : Msginfo) : Calm c (boot c) :=
  ⟨fun _ => .inl rfl,fun _ _ _ _ is => (by cases is),fun _ _ _ is => (by cases is),fun _ _ _ is => (by cases is)⟩

section
variable (spell : Spell c t a own w w')
include spell

theorem Spell.calm (calm : Calm c w) : Calm c w' := by
  induction spell with
  | here => exact calm
  | step _ step plain _ _ ih => exact ih.step step plain

theorem Spell.whole (whole : Whole c w) : Whole c w' := by
  induction spell with
  | here => exact whole
  | step _ step _ _ _ ih => exact (Runs.step step trivial (.nil _) : Runs c (fun _ _ => True) _ _ _).whole ih

theorem Spell.waits (calm : Calm c w) (waits : Waits c w a) : Waits c w' a := by
  induction spell with
  | here => exact waits
  | step spell step plain asleep kept ih => exact ih.step (spell.calm calm) spell.asleep step plain asleep kept

theorem Spell.starts : w.threads t = .sndWait a own false := by
  induction spell with
  | here asleep => exact asleep
  | step _ _ _ _ _ ih => exact ih
end

theorem sleeper_waits (run : Runs c (fun _ event => event.plain = true) (boot c) trace w₀) (sleep : Step c w₀ event r w₁) (plain : event.plain = true) (mine : event.thread = some t)
    (spell : Spell c t a own w₁ w) :
    (∃ u,u ≠ t ∧ (w.threads u).owns = some (ipcidToIx a.msqidr)) ∨
      ((w.msgs.msqs (ipcidToIx a.msqidr)).msgQbytes : Int) < a.text.length + (w.msgs.msqs (ipcidToIx a.msqidr)).msgCbytes ∨
      w.msgs.nfreeMsgmaps < segsNeeded c a.text.length ∨ w.msgs.freeMsghdrs = none ∨ ∃ u,(w.threads u).taking = some (ipcidToIx a.msqidr) := by
  have calm₀ : Calm c w₀ := run.keep (boot_inv c) (boot_calm c) fun _ _ _ _ _ calm step plain => calm.step step plain
  have calm₁ := calm₀.step sleep plain
  have whole₁ : Whole c w₁ := (run.append (.step sleep plain (.nil _))).whole (boot_inv c)
  have calm := spell.calm calm₁
  have asleep := spell.asleep
  cases own with
  | false =>
    obtain ⟨_,_,inv⟩ := spell.whole whole₁
    obtain ⟨u,owns⟩ := (inv.locks _).1 (calm.blocked t a false asleep)
    refine .inl ⟨u,?_,owns⟩
    rintro rfl
    rw [asleep] at owns
    cases owns
  | true =>
    obtain ⟨b,turn⟩ := perform_turn mine sleep
    have short := (turn.sleeps a true false spell.starts).2.2.2.2.2 rfl
    rcases spell.waits calm₁ (.inl short) with short | takes
    · rcases shortOf_iff.mp short with full | few | none_
      · exact .inr (.inl full)
      · exact .inr (.inr (.inl few))
      · exact .inr (.inr (.inr (.inl none_)))
    · exact .inr (.inr (.inr (.inr takes)))

-- The message of a sleeping sender that is not woken, and whether it owns the lock.
def asleepAt (w : World) (t : Nat) : Option (Send × Bool) :=
  match w.threads t with
  | .sndWait a own false => some (a,own)
  | _ => none

theorem asleepAt_threads (is : asleepAt w t = some (a,own)) : w.threads t = .sndWait a own false := by
  unfold asleepAt at is
  split at is
  · next at_ =>
    cases is
    exact at_
  · cases is

theorem sleeper_waits_pair : ∃ trace w₀ event r w₁,event.thread = some 1 ∧ trace.length = 2 ∧ Runs msginfo (fun _ event => event.plain = true) (boot msginfo) trace w₀ ∧
    Step msginfo w₀ event r w₁ ∧ Spell msginfo 1 ⟨65536,1,[7],false⟩ false w₁ w₁ ∧
    ((∃ u,u ≠ 1 ∧ (w₁.threads u).owns = some 0) ∨ ((w₁.msgs.msqs 0).msgQbytes : Int) < 1 + (w₁.msgs.msqs 0).msgCbytes ∨
      w₁.msgs.nfreeMsgmaps < segsNeeded msginfo 1 ∨ w₁.msgs.freeMsghdrs = none ∨ ∃ u,(w₁.threads u).taking = some 0) := by
  let pair : List Event := [.msgget true 0 true false,.msgsnd true 0 ⟨65536,1,[],false⟩]
  let third : Event := .msgsnd true 1 ⟨65536,1,[7],false⟩
  have facts : (follow msginfo (boot msginfo) pair).map (fun w => (Ready w third,(perform msginfo w third).map fun p => asleepAt p.1 1)) =
      some (true,some (some (⟨65536,1,[7],false⟩,false))) := by decide
  have plain : ∀ event,event ∈ pair → event.plain = true := by decide
  cases ran : follow msginfo (boot msginfo) pair with
  | none =>
    rw [ran] at facts
    cases facts
  | some w₀ =>
    rw [ran] at facts
    simp only [map_some,some.injEq,Prod.mk.injEq] at facts
    obtain ⟨ready,slept⟩ := facts
    obtain ⟨⟨w₁,r⟩,performed,asleep⟩ := map_eq_some_iff.mp slept
    obtain ⟨trace,length,run⟩ := follow_runs pair ran fun event mem _ => plain event mem
    have sleep : Step msginfo w₀ third r w₁ := ⟨ready,performed⟩
    have spell : Spell msginfo 1 ⟨65536,1,[7],false⟩ false w₁ w₁ := .here (asleepAt_threads asleep)
    exact ⟨trace,w₀,third,r,w₁,rfl,length,run,sleep,spell,sleeper_waits run sleep rfl rfl spell⟩

-- Every header is in the second queue when a sender goes to sleep on the first. A
-- receiver frees one of them then, and its broadcast is for the second queue.
def crowded : List Event :=
  [.msgget true 0 true false,.msgget true 0 true false] ++ (List.replicate 40 [.msgsnd true 0 ⟨65537,1,[],false⟩,.copy 0 none]).flatten ++
    [.msgsnd true 1 ⟨65536,1,[],false⟩,.msgrcv true 0 ⟨65537,0,0,false,false,by decide⟩,.copy 0 none]

theorem crowded_sleeps : ¬∀ trace w,Runs msginfo (fun _ event => event.plain = true) (boot msginfo) trace w → ∀ t a own,asleepAt w t = some (a,own) →
    (∃ u,u ≠ t ∧ (w.threads u).owns = some (ipcidToIx a.msqidr)) ∨
      ((w.msgs.msqs (ipcidToIx a.msqidr)).msgQbytes : Int) < a.text.length + (w.msgs.msqs (ipcidToIx a.msqidr)).msgCbytes ∨
      w.msgs.nfreeMsgmaps < segsNeeded msginfo a.text.length ∨ w.msgs.freeMsghdrs = none := by
  intro claim
  have facts : (follow msginfo (boot msginfo) crowded).map (fun w => ((asleepAt w 1,(w.threads 1).owns),((w.msgs.msqs 0).msgQbytes,(w.msgs.msqs 0).msgCbytes),w.msgs.nfreeMsgmaps,
      w.msgs.freeMsghdrs)) = some ((some (⟨65536,1,[],false⟩,true),some 0),(2048,0),2048,some 0) := by decide +kernel
  have plain : ∀ event,event ∈ crowded → event.plain = true := by decide
  cases ran : follow msginfo (boot msginfo) crowded with
  | none =>
    rw [ran] at facts
    cases facts
  | some w =>
    rw [ran] at facts
    simp only [map_some,some.injEq,Prod.mk.injEq] at facts
    obtain ⟨⟨asleep,owns⟩,⟨qbytes,cbytes⟩,maps,free⟩ := facts
    obtain ⟨trace,_,run⟩ := follow_runs crowded ran fun event mem _ => plain event mem
    have named : ipcidToIx 65536 = 0 := by decide
    obtain ⟨_,_,inv⟩ := run.whole (boot_inv msginfo)
    rcases claim trace w run 1 _ _ asleep with ⟨u,other,owns'⟩ | full | few | none_
    · exact other (((inv.locks 0).2 1 owns).2 u owns')
    · rw [named,qbytes,cbytes] at full
      simp at full
    · rw [maps] at few
      revert few
      decide
    · rw [free] at none_
      cases none_
end NetbsdAvr32.Sysvmsg
