import NetbsdAvr32.CalloutExact

-- Callouts on several CPUs, and the threads that wait for one in callout_halt.
namespace NetbsdAvr32.Callout
open Wrapped Function

-- A call of callout_halt: `expired` is what it returns, `relock` is set once the
-- interlock is released.
structure Frame where
  c : Nat
  expired : Bool
  interlock : Bool
  relock : Bool
  deriving DecidableEq

-- Where a thread is: about to take the callout's lock again, on the sleep queue of a
-- CPU, about to take the interlock again, or back from the last call.
inductive Thread where
  | out
  | looking (f : Frame)
  | asleep (f : Frame) (k : Nat)
  | relocking (f : Frame)
  | returned (f : Frame)
  deriving DecidableEq

def Thread.target : Thread → Option Nat
  | .out => none
  | .looking f => some f.c
  | .asleep f _ => some f.c
  | .relocking f => some f.c
  | .returned f => some f.c

def Thread.free : Thread → Bool
  | .out => true
  | .returned _ => true
  | _ => false

def Thread.past : Thread → Bool
  | .relocking _ => true
  | .returned _ => true
  | _ => false

-- `calm` is no part of the program: no thread has scheduled the callout since this
-- thread called callout_halt for it.
structure World where
  sys : System
  thread : Nat → Thread
  calm : Nat → Bool

-- The loop of callout_halt from its test on, with the lock held.
def haltLook (sys : System) (l : Nat) (f : Frame) : System × Thread :=
  let k := (sys.callout f.c).cCpu
  let cc := sys.cpu k
  if cc.ccActive ≠ some f.c ∨ cc.ccLwp = some l then (sys,if f.relock then .relocking f else .returned f)
  else if f.interlock then (sys,.looking {f with interlock := false,relock := true})
  else (setCpu sys k {cc with ccNwait := cc.ccNwait + 1},.asleep f k)

-- callout_halt up to where it gives up the lock, called by the thread l.
def calloutHalt (sys : System) (l c : Nat) (interlock : Bool) : System × Thread :=
  haltLook (cancel sys c) l ⟨c,(sys.callout c).fired,interlock,false⟩

def Thread.woken (k : Nat) : Thread → Thread
  | .asleep f j => if j = k then .looking f else .asleep f j
  | t => t

-- The sections under a lock. A turn of the softclock is a section of its own here, so
-- that others may come between two turns, as while sleepq_wake has dropped the lock.
inductive Act where
  | reset (cur : Nat) (tryenter : Bool) (c : Nat) (toTicks : Int) (func arg : Nat)
  | schedule (cur : Nat) (tryenter : Bool) (c : Nat) (toTicks : Int)
  | stop (c : Nat)
  | halt (l c : Nat) (interlock : Bool)
  | look (l : Nat)
  | relock (l : Nat)
  | hardclock (k : Nat)
  | softclock (k lwp : Nat)
  | turn (k : Nat)
  | funcReturn (k : Nat)

def World.scheduled (w : World) (c : Nat) (sys : System) : World :=
  {w with sys := sys,calm := fun l => w.calm l && decide ((w.thread l).target ≠ some c)}

def World.goes (w : World) (l : Nat) (r : System × Thread) : World :=
  {w with sys := r.1,thread := update w.thread l r.2}

def step (w : World) : Act → Option World
  | .reset cur tryenter c toTicks func arg => (calloutReset w.sys cur tryenter c toTicks func arg).toOption.map (w.scheduled c)
  | .schedule cur tryenter c toTicks => (calloutSchedule w.sys cur tryenter c toTicks).toOption.map (w.scheduled c)
  | .stop c => some {w with sys := (calloutStop w.sys c).2}
  | .halt l c interlock =>
    if (w.thread l).free then some {w.goes l (calloutHalt w.sys l c interlock) with calm := update w.calm l true} else none
  | .look l =>
    match w.thread l with
    | .looking f => some (w.goes l (haltLook w.sys l f))
    | _ => none
  | .relock l =>
    match w.thread l with
    | .relocking f => some (w.goes l (w.sys,.returned f))
    | _ => none
  | .hardclock k => some {w with sys := setCpu w.sys k (calloutHardclock (w.sys.cpu k))}
  | .softclock k lwp =>
    if (w.sys.cpu k).ccLwp = none ∧ (w.sys.cpu k).softint then some {w with sys := setCpu w.sys k (softclockEnter (w.sys.cpu k) lwp)} else none
  | .turn k =>
    if (w.sys.cpu k).ccLwp ≠ none ∧ (w.sys.cpu k).ccActive = none then
      (softclockTurn w.sys k).toOption.map fun r => {w with sys := r.1}
    else none
  | .funcReturn k =>
    if (w.sys.cpu k).ccActive ≠ none then
      some {w with sys := setCpu w.sys k (softclockReturn (w.sys.cpu k)),thread := fun l => (w.thread l).woken k}
    else none

-- callout_schedule_locked moves the callout to the CPU `cur` while its function runs.
def Leaves (sys : System) (cur : Nat) (tryenter : Bool) (c : Nat) : Prop :=
  (sys.callout c).pending = false ∧ (sys.callout c).bound = false ∧ cur ≠ (sys.callout c).cCpu ∧ tryenter = true ∧
    (sys.cpu (sys.callout c).cCpu).ccActive = some c

def Stays (w : World) : Act → Prop
  | .reset cur tryenter c _ _ _ => ¬Leaves w.sys cur tryenter c
  | .schedule cur tryenter c _ => ¬Leaves w.sys cur tryenter c
  | _ => True

inductive Interleaving (met : World → Act → Prop) (start : World) : World → Prop
  | start : Interleaving met start start
  | next {w w' : World} {a : Act} (run : Interleaving met start w) (met_ : met w a) (ran : step w a = some w') : Interleaving met start w'

structure AllIdle (w : World) : Prop where
  lwp : ∀ k, (w.sys.cpu k).ccLwp = none
  active : ∀ k, (w.sys.cpu k).ccActive = none
  empty : ∀ k c, OnNone (w.sys.cpu k) c
  callout : ∀ c, (w.sys.callout c).pending = false
  thread : ∀ l, w.thread l = .out

structure Placed (sys : System) (c : Nat) : Prop where
  here : (sys.callout c).pending = true → ∃ q, OnlyOn (sys.cpu (sys.callout c).cCpu) c q
  off : ∀ k, (sys.callout c).pending = true → k ≠ (sys.callout c).cCpu → OnNone (sys.cpu k) c
  away : (sys.callout c).pending = false → ∀ k, OnNone (sys.cpu k) c
  armed : (sys.callout c).pending = true → (sys.callout c).cFunc ≠ none ∧ (sys.callout c).fired = false

structure Settled (sys : System) : Prop where
  placed : ∀ c, Placed sys c
  home : ∀ k c, (sys.cpu k).ccActive = some c → (sys.callout c).cCpu = k
  busy : ∀ k, (sys.cpu k).ccActive ≠ none → (sys.cpu k).ccLwp ≠ none

-- What callout_halt has seen to, as long as no thread schedules the callout.
structure Halts (w : World) : Prop where
  stopped : ∀ l c, w.calm l = true → (w.thread l).target = some c → (w.sys.callout c).pending = false
  past : ∀ l c, w.calm l = true → (w.thread l).target = some c → (w.thread l).past = true → ∀ k, (w.sys.cpu k).ccActive = some c →
    (w.sys.cpu k).ccLwp = some l

variable {sys sys' : System} {w w' start : World} {c d cur k l : Nat} {q : Option Nat} {cc cc' : CalloutCpu} {co : CalloutImpl}
variable {toTicks : Int} {tryenter interlock : Bool} {f : Frame} {a : Act}

structure Keeps (cc cc' : CalloutCpu) (d : Nat) : Prop where
  only : ∀ q, OnlyOn cc d q → ∃ q', OnlyOn cc' d q'
  none_ : OnNone cc d → OnNone cc' d

theorem keeps_queues (same : ∀ q, queue cc' q = queue cc q) (d : Nat) : Keeps cc cc' d :=
  ⟨fun q only => ⟨q,only.congr same⟩,fun absent => absent.congr same⟩

theorem keeps_remove (cc : CalloutCpu) (other : d ≠ c) : Keeps cc (circqRemove cc c) d :=
  ⟨fun q only => ⟨q,only.remove_other other⟩,fun absent => absent.remove c⟩

theorem keeps_insert (inserted : Inserted cc c q cc') (other : d ≠ c) : Keeps cc cc' d :=
  ⟨fun q only => ⟨q,only.insert_other other inserted⟩,fun absent => absent.insert_other other inserted⟩

theorem Keeps.trans {cc'' : CalloutCpu} (first : Keeps cc cc' d) (second : Keeps cc' cc'' d) : Keeps cc cc'' d where
  only := fun q only => by
    obtain ⟨q',only'⟩ := first.only q only
    exact second.only q' only'
  none_ := fun absent => second.none_ (first.none_ absent)

theorem keeps_hardclock (cc : CalloutCpu) (n d : Nat) : Keeps cc (hardclockAt cc n) d where
  only := fun _ only => ⟨_,(only.moveAll _).congr (hardclock_queue cc n)⟩
  none_ := fun absent => (absent.moveAll _).congr (hardclock_queue cc n)

variable {j : Nat}

theorem keeps_setCpu (sys : System) (keeps : Keeps (sys.cpu j) cc d) (k : Nat) : Keeps (sys.cpu k) ((setCpu sys j cc).cpu k) d := by
  by_cases here : k = j
  · subst here
    rw [setCpu_same]
    exact keeps
  rw [show (setCpu sys j cc).cpu k = sys.cpu k from update_of_ne here _ _]
  exact keeps_queues (fun _ => rfl) d

theorem Placed.kept (placed : Placed sys d) (same : sys'.callout d = sys.callout d) (keeps : ∀ k, Keeps (sys.cpu k) (sys'.cpu k) d) : Placed sys' d where
  here := fun pending => by
    rw [same] at pending ⊢
    obtain ⟨q,only⟩ := placed.here pending
    exact (keeps _).only q only
  off := fun k pending other => by
    rw [same] at pending other
    exact (keeps k).none_ (placed.off k pending other)
  away := fun pending k => by
    rw [same] at pending
    exact (keeps k).none_ (placed.away pending k)
  armed := by
    rw [same]
    exact placed.armed

theorem Placed.removed (placed : Placed sys c) (pending : (sys.callout c).pending = true) (k : Nat) :
    OnNone ((setCpu sys (sys.callout c).cCpu (circqRemove (sys.cpu (sys.callout c).cCpu) c)).cpu k) c := by
  obtain ⟨q,only⟩ := placed.here pending
  by_cases mine : k = (sys.callout c).cCpu
  · rw [mine,setCpu_same]
    exact only.removed
  rw [show (setCpu sys _ _).cpu k = sys.cpu k from update_of_ne mine _ _]
  exact placed.off k pending mine

def SameRunning (sys sys' : System) : Prop :=
  ∀ k, (sys'.cpu k).ccActive = (sys.cpu k).ccActive ∧ (sys'.cpu k).ccLwp = (sys.cpu k).ccLwp

theorem sameRunning_setCpu (sys : System) (active : cc.ccActive = (sys.cpu j).ccActive) (lwp : cc.ccLwp = (sys.cpu j).ccLwp) :
    SameRunning sys (setCpu sys j cc) := by
  intro k
  by_cases here : k = j
  · subst here
    rw [setCpu_same]
    exact ⟨active,lwp⟩
  rw [show (setCpu sys j cc).cpu k = sys.cpu k from update_of_ne here _ _]
  exact ⟨rfl,rfl⟩

structure Edits (sys : System) (c : Nat) (sys' : System) : Prop where
  others : ∀ d, d ≠ c → sys'.callout d = sys.callout d
  keeps : ∀ d, d ≠ c → ∀ k, Keeps (sys.cpu k) (sys'.cpu k) d
  placed : Placed sys' c
  running : SameRunning sys sys'

theorem Edits.settled (edits : Edits sys c sys') (settled : Settled sys)
    (home : ∀ k, (sys.cpu k).ccActive = some c → (sys'.callout c).cCpu = k) : Settled sys' where
  placed := fun d => by
    by_cases mine : d = c
    · rw [mine]
      exact edits.placed
    · exact (settled.placed d).kept (edits.others d mine) (edits.keeps d mine)
  home := fun k d active => by
    rw [(edits.running k).1] at active
    by_cases mine : d = c
    · subst mine
      exact home k active
    rw [edits.others d mine]
    exact settled.home k d active
  busy := fun k => by
    rw [(edits.running k).1,(edits.running k).2]
    exact settled.busy k

section
variable (settled : Settled sys)
include settled

theorem edits_callout (cpu : co.cCpu = (sys.callout c).cCpu) (pending : co.pending = (sys.callout c).pending)
    (armed : co.pending = true → co.cFunc ≠ none ∧ co.fired = false) : Edits sys c (setCallout sys c co) where
  others := fun d other => setCallout_other sys co other
  keeps := fun d _ k => keeps_queues (fun _ => rfl) d
  placed := by
    have placed := settled.placed c
    refine ⟨?_,?_,?_,?_⟩
    · rw [setCallout_same,setCallout_cpu,pending,cpu]
      exact placed.here
    · rw [setCallout_same,setCallout_cpu,pending,cpu]
      exact placed.off
    · rw [setCallout_same,setCallout_cpu,pending]
      exact placed.away
    rw [setCallout_same]
    exact armed
  running := fun _ => ⟨rfl,rfl⟩

theorem edits_insert (idle : (sys.callout c).pending = false) (cpu : co.cCpu = j)
    (pending : co.pending = true) (armed : co.cFunc ≠ none ∧ co.fired = false) :
    Edits sys c (setCpu (setCallout sys c co) j (insertTodo (sys.cpu j) c)) where
  others := fun d other => setCallout_other sys co other
  keeps := fun d other k => keeps_setCpu (setCallout sys c co) (keeps_insert (inserted_todo (sys.cpu j) c) other) k
  placed := by
    have away := (settled.placed c).away idle
    refine ⟨?_,?_,?_,?_⟩
    · rw [setCpu_callout,setCallout_same,cpu,setCpu_same]
      exact fun _ => ⟨none,(away j).insert (inserted_todo _ _)⟩
    · rw [setCpu_callout,setCallout_same,cpu]
      intro k _ other
      rw [show (setCpu (setCallout sys c co) j (insertTodo (sys.cpu j) c)).cpu k = sys.cpu k from update_of_ne other _ _]
      exact away k
    · rw [setCpu_callout,setCallout_same,pending]
      intro never
      cases never
    rw [setCpu_callout,setCallout_same]
    exact fun _ => armed
  running := sameRunning_setCpu (setCallout sys c co) rfl rfl

theorem edits_requeue (waits : (sys.callout c).pending = true) (cpu : co.cCpu = (sys.callout c).cCpu)
    (pending : co.pending = true) (armed : co.cFunc ≠ none ∧ co.fired = false) :
    Edits sys c (setCpu (setCallout sys c co) (sys.callout c).cCpu (insertTodo (circqRemove (sys.cpu (sys.callout c).cCpu) c) c)) where
  others := fun d other => setCallout_other sys co other
  keeps := fun d other k => keeps_setCpu (setCallout sys c co)
    ((keeps_remove _ other).trans (keeps_insert (inserted_todo _ c) other)) k
  placed := by
    have placed := settled.placed c
    obtain ⟨q,only⟩ := placed.here waits
    refine ⟨?_,?_,?_,?_⟩
    · rw [setCpu_callout,setCallout_same,cpu,setCpu_same]
      exact fun _ => ⟨none,only.removed.insert (inserted_todo _ _)⟩
    · rw [setCpu_callout,setCallout_same,cpu]
      intro k _ other
      rw [show (setCpu (setCallout sys c co) (sys.callout c).cCpu _).cpu k = sys.cpu k from update_of_ne other _ _]
      exact placed.off k waits other
    · rw [setCpu_callout,setCallout_same,pending]
      intro never
      cases never
    rw [setCpu_callout,setCallout_same]
    exact fun _ => armed
  running := sameRunning_setCpu (setCallout sys c co) rfl rfl

theorem schedule_edits (ran : calloutScheduleLocked sys cur tryenter c toTicks = .ok sys') :
    Edits sys c sys' ∧ ((sys'.callout c).cCpu = (sys.callout c).cCpu ∨
      (sys.callout c).pending = false ∧ (sys.callout c).bound = false ∧ cur ≠ (sys.callout c).cCpu ∧ tryenter = true) := by
  unfold calloutScheduleLocked at ran
  dsimp only at ran
  split at ran
  · cases ran
  split at ran
  · cases ran
  next func =>
  have func : (sys.callout c).cFunc ≠ none := by simpa using func
  split at ran
  · next waits =>
    split at ran
    · cases ran
      exact ⟨edits_requeue settled waits rfl waits ⟨func,rfl⟩,.inl (by rw [setCpu_callout,setCallout_same])⟩
    cases ran
    exact ⟨edits_callout settled rfl rfl fun _ => ⟨func,rfl⟩,.inl (by rw [setCallout_same])⟩
  next idle =>
  have idle : (sys.callout c).pending = false := by simpa using idle
  split at ran
  · cases ran
    exact ⟨edits_insert settled idle rfl rfl ⟨func,rfl⟩,.inl (by rw [setCpu_callout,setCallout_same])⟩
  next moves =>
  cases ran
  refine ⟨edits_insert settled idle rfl rfl ⟨func,rfl⟩,.inr ⟨idle,?_⟩⟩
  simpa using moves

theorem schedule_settled (stays : ¬Leaves sys cur tryenter c)
    (ran : calloutScheduleLocked sys cur tryenter c toTicks = .ok sys') : Settled sys' := by
  obtain ⟨edits,place⟩ := schedule_edits settled ran
  refine edits.settled settled fun k active => ?_
  have home := settled.home k c active
  rcases place with same | ⟨idle,free,away,entered⟩
  · exact same.trans home
  · exact absurd ⟨idle,free,away,entered,by rw [home]; exact active⟩ stays

theorem cancel_edits (c : Nat) : Edits sys c (cancel sys c) ∧
    (∀ k, OnNone ((cancel sys c).cpu k) c) ∧ ((cancel sys c).callout c).pending = false ∧
    ((cancel sys c).callout c).cCpu = (sys.callout c).cCpu := by
  have placed := settled.placed c
  unfold cancel
  dsimp only
  split
  · next waits =>
    have gone := placed.removed waits
    refine ⟨⟨?_,?_,?_,?_⟩,gone,?_,?_⟩
    · exact fun d other => setCallout_other sys _ other
    · exact fun d other k => keeps_setCpu (setCallout sys c _) (keeps_remove _ other) k
    · refine ⟨fun pending => ?_,fun k pending => ?_,fun _ => gone,fun pending => ?_⟩
      all_goals
        rw [setCpu_callout,setCallout_same] at pending
        cases pending
    · exact sameRunning_setCpu (setCallout sys c _) rfl rfl
    · rw [setCpu_callout,setCallout_same]
    · rw [setCpu_callout,setCallout_same]
  next idle =>
  have idle : (sys.callout c).pending = false := by simpa using idle
  refine ⟨edits_callout settled rfl idle.symm (by simp),placed.away idle,?_,?_⟩
  · rw [setCallout_same]
  · rw [setCallout_same]

theorem cancel_settled (c : Nat) : Settled (cancel sys c) := by
  obtain ⟨edits,_,_,cpu⟩ := cancel_edits settled c
  exact edits.settled settled fun k active => cpu.trans (settled.home k c active)

theorem cpu_settled (keeps : ∀ d, Keeps (sys.cpu j) cc d)
    (active : ∀ d, cc.ccActive = some d → (sys.callout d).cCpu = j) (busy : cc.ccActive ≠ none → cc.ccLwp ≠ none) : Settled (setCpu sys j cc) where
  placed := fun d => (settled.placed d).kept rfl fun k => keeps_setCpu _ (keeps d) k
  home := fun k d active' => by
    by_cases here : k = j
    · subst here
      rw [setCpu_same] at active'
      exact active d active'
    rw [show (setCpu sys j cc).cpu k = sys.cpu k from update_of_ne here _ _] at active'
    exact settled.home k d active'
  busy := fun k => by
    by_cases here : k = j
    · subst here
      rw [setCpu_same]
      exact busy
    rw [show (setCpu sys j cc).cpu k = sys.cpu k from update_of_ne here _ _]
    exact settled.busy k

theorem stop_settled (c : Nat) : Settled (calloutStop sys c).2 := by
  have cancelled := cancel_settled settled c
  unfold calloutStop
  dsimp only
  split
  · exact cpu_settled cancelled (keeps_queues fun q => by cases q <;> rfl) (cancelled.home _) (cancelled.busy _)
  · exact cancelled
end

theorem moveAll_running (bs : List Nat) (cc : CalloutCpu) :
    (bs.foldl moveBucket cc).ccActive = cc.ccActive ∧ (bs.foldl moveBucket cc).ccLwp = cc.ccLwp := by
  induction bs generalizing cc with
  | nil => exact ⟨rfl,rfl⟩
  | cons b bs ih => exact ih (moveBucket cc b)

theorem askSoftint_running (cc : CalloutCpu) : (askSoftint cc).ccActive = cc.ccActive ∧ (askSoftint cc).ccLwp = cc.ccLwp := by
  unfold askSoftint
  split
  · exact ⟨rfl,rfl⟩
  · exact ⟨rfl,rfl⟩

theorem hardclock_running (cc : CalloutCpu) (n : Nat) : (hardclockAt cc n).ccActive = cc.ccActive ∧ (hardclockAt cc n).ccLwp = cc.ccLwp := by
  rw [hardclock_moves]
  generalize moves (int n) = bs
  obtain ⟨active,lwp⟩ := askSoftint_running (bs.foldl moveBucket {cc with ccTicks := n})
  obtain ⟨active',lwp'⟩ := moveAll_running bs {cc with ccTicks := n}
  exact ⟨active.trans active',lwp.trans lwp'⟩

theorem hardclock_settled (settled : Settled sys) (k n : Nat) : Settled (setCpu sys k (hardclockAt (sys.cpu k) n)) := by
  obtain ⟨active,lwp⟩ := hardclock_running (sys.cpu k) n
  refine cpu_settled settled (keeps_hardclock _ _) ?_ ?_
  · rw [active]
    exact settled.home k
  rw [active,lwp]
  exact settled.busy k

-- A turn of the softclock: no KASSERT fails, and a function is only called for a
-- pending callout of this CPU.
theorem turn_settled (settled : Settled sys) (busy : (sys.cpu k).ccLwp ≠ none) (idle : (sys.cpu k).ccActive = none) : ∃ sys' soft, softclockTurn sys k = .ok (sys',soft) ∧
    Settled sys' ∧ (∀ d, (sys.callout d).pending = false → (sys'.callout d).pending = false) ∧
    ∀ j d, (sys.callout d).pending = false → (sys'.cpu j).ccActive = some d → (sys.cpu j).ccActive = some d ∧ (sys'.cpu j).ccLwp = (sys.cpu j).ccLwp := by
  cases todo : (sys.cpu k).ccTodo with
  | nil =>
    refine ⟨_,_,softclockTurn_nil todo,?_,fun d idle => idle,fun j d _ active => ?_⟩
    · refine cpu_settled settled (keeps_queues fun q => by cases q <;> rfl) (settled.home k) fun busy => absurd idle busy
    by_cases here : j = k
    · subst here
      rw [setCpu_same] at active
      rw [idle] at active
      cases active
    rw [show (setCpu sys k _).cpu j = sys.cpu j from update_of_ne here _ _] at active ⊢
    exact ⟨active,rfl⟩
  | cons c rest =>
    have placed := settled.placed c
    have here : c ∈ queue (sys.cpu k) none := by
      rw [show queue (sys.cpu k) none = (sys.cpu k).ccTodo from rfl,todo]
      exact List.mem_cons_self
    have pending : (sys.callout c).pending = true := by
      by_contra off
      exact placed.away (by simpa using off) k none here
    have home : (sys.callout c).cCpu = k := by
      by_contra other
      exact placed.off k pending (Ne.symm other) none here
    obtain ⟨func,fired⟩ := placed.armed pending
    obtain ⟨func,found⟩ := Option.ne_none_iff_exists'.mp func
    obtain ⟨q,only⟩ := placed.here pending
    rw [home] at only
    have ran := softclockTurn_cons todo found home pending fired _ rfl
    split at ran
    · -- It is due later, and goes to a bucket.
      refine ⟨_,_,ran,?_,fun d idle => idle,fun j d _ active => ?_⟩
      · have edits : Edits sys c (setCpu sys k (insertBucket (circqRemove (sys.cpu k) c) c
            (bucket (int ((sys.callout c).cTime - int (sys.cpu k).ccTicks)) (sys.callout c).cTime))) := by
          refine ⟨fun _ _ => rfl,fun d other => keeps_setCpu _ ((keeps_remove _ other).trans (keeps_insert (inserted_bucket _ c _) other)),?_,
            sameRunning_setCpu _ rfl rfl⟩
          refine ⟨fun _ => ?_,fun j waits other => ?_,fun off => absurd pending (by rw [show (sys.callout c).pending = false from off]; exact Bool.false_ne_true),fun _ => placed.armed pending⟩
          · rw [setCpu_callout,home,setCpu_same]
            exact ⟨_,only.removed.insert (inserted_bucket _ c _)⟩
          rw [setCpu_callout,home] at other
          rw [show (setCpu sys k _).cpu j = sys.cpu j from update_of_ne other _ _]
          exact placed.off j pending (by rw [home]; exact other)
        exact edits.settled settled fun j active => settled.home j c active
      have running : SameRunning sys (setCpu sys k (insertBucket (circqRemove (sys.cpu k) c) c
          (bucket (int ((sys.callout c).cTime - int (sys.cpu k).ccTicks)) (sys.callout c).cTime))) := sameRunning_setCpu sys rfl rfl
      rw [(running j).1] at active
      exact ⟨active,(running j).2⟩
    -- Its function is called.
    refine ⟨_,_,ran,⟨fun d => ?_,fun j d active => ?_,fun j => ?_⟩,fun d idle => ?_,fun j d quiet active => ?_⟩
    · by_cases mine : d = c
      · subst mine
        refine ⟨fun waits => ?_,fun j waits => ?_,fun _ j => ?_,fun waits => ?_⟩
        · rw [setCpu_callout,setCallout_same] at waits
          cases waits
        · rw [setCpu_callout,setCallout_same] at waits
          cases waits
        · by_cases here : j = k
          · rw [here,setCpu_same]
            exact only.removed.congr fun q => by cases q <;> rfl
          rw [show (setCpu (setCallout sys d _) k _).cpu j = sys.cpu j from update_of_ne here _ _]
          exact placed.off j pending (by rw [home]; exact here)
        rw [setCpu_callout,setCallout_same] at waits
        cases waits
      refine (settled.placed d).kept (setCallout_other sys _ mine) ?_
      exact keeps_setCpu (setCallout sys c _) ((keeps_remove _ mine).trans (keeps_queues (fun q => by cases q <;> rfl) d))
    · have place : ((setCallout sys c {sys.callout c with pending := false,fired := true,invoking := true}).callout d).cCpu = (sys.callout d).cCpu := by
        by_cases mine : d = c
        · rw [mine,setCallout_same]
        · rw [setCallout_other _ _ mine]
      refine place.trans ?_
      by_cases here : j = k
      · subst here
        rw [setCpu_same] at active
        cases active
        exact home
      rw [show (setCpu (setCallout sys c _) k _).cpu j = sys.cpu j from update_of_ne here _ _] at active
      exact settled.home j d active
    · by_cases here : j = k
      · subst here
        rw [setCpu_same]
        exact fun _ => busy
      rw [show (setCpu (setCallout sys c _) k _).cpu j = sys.cpu j from update_of_ne here _ _]
      exact settled.busy j
    · by_cases mine : d = c
      · rw [mine,setCpu_callout,setCallout_same]
      rw [setCpu_callout,setCallout_other _ _ mine]
      exact idle
    by_cases here : j = k
    · subst here
      rw [setCpu_same] at active
      cases active
      rw [pending] at quiet
      cases quiet
    rw [show (setCpu (setCallout sys c _) k _).cpu j = sys.cpu j from update_of_ne here _ _] at active ⊢
    exact ⟨active,rfl⟩

theorem haltLook_spec (settled : Settled sys) (l : Nat) (f : Frame) : Settled (haltLook sys l f).1 ∧
    (haltLook sys l f).1.callout = sys.callout ∧ SameRunning sys (haltLook sys l f).1 ∧ (haltLook sys l f).2.target = some f.c ∧
    ((haltLook sys l f).2.past = true → ∀ k, (sys.cpu k).ccActive = some f.c → (sys.cpu k).ccLwp = some l) := by
  have same : SameRunning sys sys := fun _ => ⟨rfl,rfl⟩
  unfold haltLook
  dsimp only
  split
  · next done_ =>
    refine ⟨settled,rfl,same,by split <;> rfl,fun _ k active => ?_⟩
    have home := settled.home k f.c active
    rw [home] at done_
    exact done_.resolve_left fun other => other active
  split
  · exact ⟨settled,rfl,same,rfl,nofun⟩
  refine ⟨?_,rfl,sameRunning_setCpu _ rfl rfl,rfl,nofun⟩
  exact cpu_settled settled (keeps_queues fun q => by cases q <;> rfl) (settled.home _) (settled.busy _)

def Gentle (sys sys' : System) (d : Nat) : Prop := (sys.callout d).pending = false →
  (sys'.callout d).pending = false ∧ ∀ j, (sys'.cpu j).ccActive = some d → (sys.cpu j).ccActive = some d ∧ (sys'.cpu j).ccLwp = (sys.cpu j).ccLwp

theorem gentle_running (same : (sys.callout d).pending = false → (sys'.callout d).pending = false) (running : SameRunning sys sys') : Gentle sys sys' d :=
  fun idle => ⟨same idle,fun j active => ⟨(running j).1 ▸ active,(running j).2⟩⟩

structure Goes (w w' : World) (l d : Nat) : Prop where
  calm : w.calm l = true
  target : (w.thread l).target = some d
  past : (w'.thread l).past = true → (w.thread l).past = true
  gentle : Gentle w.sys w'.sys d

theorem Halts.change (halts : Halts w) (goes : ∀ l d, w'.calm l = true → (w'.thread l).target = some d → Goes w w' l d ∨
    (w'.sys.callout d).pending = false ∧ ((w'.thread l).past = true → ∀ k, (w'.sys.cpu k).ccActive = some d → (w'.sys.cpu k).ccLwp = some l)) :
    Halts w' where
  stopped := fun l d calm target => by
    rcases goes l d calm target with goes | fresh
    · exact (goes.gentle (halts.stopped l d goes.calm goes.target)).1
    · exact fresh.1
  past := fun l d calm target past k active => by
    rcases goes l d calm target with goes | fresh
    · obtain ⟨active',same⟩ := (goes.gentle (halts.stopped l d goes.calm goes.target)).2 k active
      exact same.trans (halts.past l d goes.calm goes.target (goes.past past) k active')
    · exact fresh.2 past k active

theorem scheduled_halts (halts : Halts w) (settled : Settled w.sys) (stays : ¬Leaves w.sys cur tryenter c)
    (ran : calloutScheduleLocked w.sys cur tryenter c toTicks = .ok sys') : Settled sys' ∧ Halts (w.scheduled c sys') := by
  have settled' := schedule_settled settled stays ran
  obtain ⟨edits,_⟩ := schedule_edits settled ran
  refine ⟨settled',halts.change fun l d calm target => .inl ?_⟩
  obtain ⟨before,other⟩ := (Bool.and_eq_true _ _).mp calm
  have other : (w.thread l).target ≠ some c := of_decide_eq_true other
  have ne : d ≠ c := fun same => other (same ▸ target)
  exact ⟨before,target,fun past => past,gentle_running (fun idle => by rw [show (w.scheduled c sys').sys = sys' from rfl,edits.others d ne]; exact idle) edits.running⟩

theorem reset_halts {func arg : Nat} (halts : Halts w) (settled : Settled w.sys) (stays : ¬Leaves w.sys cur tryenter c)
    (ran : calloutReset w.sys cur tryenter c toTicks func arg = .ok sys') : Settled sys' ∧ Halts (w.scheduled c sys') := by
  let w₁ : World := {w with sys := setCallout w.sys c {w.sys.callout c with cFunc := some func,cArg := arg}}
  have edits : Edits w.sys c w₁.sys := edits_callout settled rfl rfl fun waits => ⟨by simp,((settled.placed c).armed waits).2⟩
  have fields : ∀ d, (w₁.sys.callout d).pending = (w.sys.callout d).pending ∧ (w₁.sys.callout d).cCpu = (w.sys.callout d).cCpu ∧
      (w₁.sys.callout d).bound = (w.sys.callout d).bound := by
    intro d
    by_cases mine : d = c
    · subst mine
      rw [show w₁.sys.callout d = _ from setCallout_same _ _ _]
      exact ⟨rfl,rfl,rfl⟩
    rw [edits.others d mine]
    exact ⟨rfl,rfl,rfl⟩
  have settled₁ : Settled w₁.sys := edits.settled settled fun k active => (fields c).2.1.trans (settled.home k c active)
  have halts₁ : Halts w₁ := halts.change fun l d calm target =>
    .inl ⟨calm,target,fun past => past,gentle_running (fun idle => (fields d).1.trans idle) fun _ => ⟨rfl,rfl⟩⟩
  have stays₁ : ¬Leaves w₁.sys cur tryenter c := by
    unfold Leaves
    rw [(fields c).1,(fields c).2.1,(fields c).2.2]
    exact stays
  have after := scheduled_halts halts₁ settled₁ stays₁ ran
  exact after

theorem halt_inv (settled : Settled w.sys) (halts : Halts w) (l c : Nat) (interlock : Bool) :
    Settled (w.goes l (calloutHalt w.sys l c interlock)).sys ∧ Halts {w.goes l (calloutHalt w.sys l c interlock) with calm := update w.calm l true} := by
  obtain ⟨edits,_,idle,_⟩ := cancel_edits settled c
  obtain ⟨settled',same,running,target,past⟩ := haltLook_spec (cancel_settled settled c) l ⟨c,(w.sys.callout c).fired,interlock,false⟩
  refine ⟨settled',halts.change fun l' d calm' target' => ?_⟩
  have pending : (w.sys.callout d).pending = false → ((calloutHalt w.sys l c interlock).1.callout d).pending = false := by
    intro quiet
    rw [show (calloutHalt w.sys l c interlock).1.callout = (cancel w.sys c).callout from same]
    by_cases mine : d = c
    · rw [mine]
      exact idle
    rw [edits.others d mine]
    exact quiet
  by_cases me : l' = l
  · subst me
    dsimp only [World.goes] at target' ⊢
    rw [update_self] at target' ⊢
    have here : d = c := Option.some.inj (target'.symm.trans target)
    subst here
    refine .inr ⟨?_,fun passed k active => ?_⟩
    · rw [show (calloutHalt w.sys l' d interlock).1.callout = (cancel w.sys d).callout from same]
      exact idle
    rw [show ((calloutHalt w.sys l' d interlock).1.cpu k).ccLwp = _ from (running k).2]
    exact past passed k ((running k).1 ▸ active)
  dsimp only [World.goes] at target' calm' ⊢
  rw [update_of_ne me] at target' calm'
  refine .inl ⟨calm',target',?_,gentle_running pending fun k => ?_⟩
  · dsimp only [World.goes]
    rw [update_of_ne me]
    exact id
  · exact ⟨(running k).1.trans (edits.running k).1,(running k).2.trans (edits.running k).2⟩

theorem look_inv (settled : Settled w.sys) (halts : Halts w) (at_ : w.thread l = .looking f) :
    Settled (w.goes l (haltLook w.sys l f)).sys ∧ Halts (w.goes l (haltLook w.sys l f)) := by
  obtain ⟨settled',same,running,target,past⟩ := haltLook_spec settled l f
  refine ⟨settled',halts.change fun l' d calm' target' => ?_⟩
  by_cases me : l' = l
  · subst me
    dsimp only [World.goes] at target' calm' ⊢
    rw [update_self] at target' ⊢
    have here : d = f.c := Option.some.inj (target'.symm.trans target)
    subst here
    have was : (w.thread l').target = some f.c := by rw [at_]; rfl
    refine .inr ⟨?_,fun passed k active => ?_⟩
    · rw [same]
      exact halts.stopped l' f.c calm' was
    rw [(running k).2]
    exact past passed k ((running k).1 ▸ active)
  dsimp only [World.goes] at target' calm' ⊢
  rw [update_of_ne me] at target'
  refine .inl ⟨calm',target',?_,gentle_running (fun quiet => by dsimp only; rw [same]; exact quiet) running⟩
  dsimp only [World.goes]
  rw [update_of_ne me]
  exact id

theorem sys_inv (halts : Halts w) (settled : Settled sys') (gentle : ∀ d, Gentle w.sys sys' d) : Settled sys' ∧ Halts {w with sys := sys'} :=
  ⟨settled,halts.change fun _ d calm target => .inl ⟨calm,target,id,gentle d⟩⟩

theorem stop_gentle (settled : Settled sys) (c d : Nat) : Gentle sys (calloutStop sys c).2 d := by
  obtain ⟨edits,_,idle,_⟩ := cancel_edits settled c
  have pending : (sys.callout d).pending = false → ((cancel sys c).callout d).pending = false := by
    intro quiet
    by_cases mine : d = c
    · rw [mine]
      exact idle
    rw [edits.others d mine]
    exact quiet
  unfold calloutStop
  dsimp only
  split
  · refine gentle_running pending fun k => ?_
    have marked : SameRunning (cancel sys c) (setCpu (cancel sys c) ((cancel sys c).callout c).cCpu
        {(cancel sys c).cpu ((cancel sys c).callout c).cCpu with ccCancel := some c}) := sameRunning_setCpu _ rfl rfl
    exact ⟨(marked k).1.trans (edits.running k).1,(marked k).2.trans (edits.running k).2⟩
  · exact gentle_running pending edits.running

theorem relock_inv (settled : Settled w.sys) (halts : Halts w) (at_ : w.thread l = .relocking f) :
    Settled (w.goes l (w.sys,.returned f)).sys ∧ Halts (w.goes l (w.sys,.returned f)) := by
  refine ⟨settled,halts.change fun l' d calm' target' => .inl ⟨calm',?_,?_,gentle_running id fun _ => ⟨rfl,rfl⟩⟩⟩
  · by_cases me : l' = l
    · subst me
      dsimp only [World.goes] at target'
      rw [update_self] at target'
      rw [at_]
      exact target'
    dsimp only [World.goes] at target'
    rwa [update_of_ne me] at target'
  dsimp only [World.goes]
  by_cases me : l' = l
  · subst me
    rw [at_]
    exact fun _ => rfl
  rw [update_of_ne me]
  exact id

theorem return_settled (settled : Settled sys) (k : Nat) : Settled (setCpu sys k (softclockReturn (sys.cpu k))) :=
  cpu_settled settled (keeps_queues fun q => by cases q <;> rfl) nofun fun never => absurd rfl never

theorem return_gentle (sys : System) (k d : Nat) : Gentle sys (setCpu sys k (softclockReturn (sys.cpu k))) d := by
  refine fun idle => ⟨idle,fun j active => ?_⟩
  by_cases here : j = k
  · subst here
    rw [setCpu_same] at active
    cases active
  rw [show (setCpu sys k _).cpu j = sys.cpu j from update_of_ne here _ _] at active ⊢
  exact ⟨active,rfl⟩

theorem woken_same (k : Nat) (t : Thread) : (t.woken k).target = t.target ∧ (t.woken k).past = t.past := by
  cases t with
  | asleep f j =>
    unfold Thread.woken
    dsimp only
    split <;> exact ⟨rfl,rfl⟩
  | _ => exact ⟨rfl,rfl⟩

theorem enter_settled (settled : Settled sys) (free : (sys.cpu k).ccLwp = none) (lwp : Nat) :
    Settled (setCpu sys k (softclockEnter (sys.cpu k) lwp)) ∧ ∀ d, Gentle sys (setCpu sys k (softclockEnter (sys.cpu k) lwp)) d := by
  have idle : (sys.cpu k).ccActive = none := by
    by_contra busy
    exact settled.busy k busy free
  refine ⟨cpu_settled settled (keeps_queues fun q => by cases q <;> rfl) (settled.home k) fun _ => by simp [softclockEnter],
    fun d quiet => ⟨quiet,fun j active => ?_⟩⟩
  by_cases here : j = k
  · subst here
    rw [setCpu_same] at active
    rw [show (softclockEnter (sys.cpu j) lwp).ccActive = none from idle] at active
    cases active
  rw [show (setCpu sys k _).cpu j = sys.cpu j from update_of_ne here _ _] at active ⊢
  exact ⟨active,rfl⟩

theorem map_some {α β : Type} {f : α → β} {r : Except Halt α} {y : β} (ran : r.toOption.map f = some y) : ∃ x, r = .ok x ∧ f x = y := by
  cases r with
  | error e => cases ran
  | ok x => exact ⟨x,rfl,Option.some.inj ran⟩

theorem step_inv (settled : Settled w.sys) (halts : Halts w) (met : Stays w a) (ran : step w a = some w') : Settled w'.sys ∧ Halts w' := by
  cases a with
  | reset cur tryenter c toTicks func arg =>
    obtain ⟨sys',result,rfl⟩ := map_some ran
    exact reset_halts halts settled met result
  | schedule cur tryenter c toTicks =>
    obtain ⟨sys',result,rfl⟩ := map_some ran
    exact scheduled_halts halts settled met result
  | stop c =>
    cases ran
    exact sys_inv halts (stop_settled settled c) (stop_gentle settled c)
  | halt l c interlock =>
    simp only [step] at ran
    split at ran
    · cases ran
      exact halt_inv settled halts l c interlock
    · cases ran
  | look l =>
    simp only [step] at ran
    split at ran
    · next at_ =>
      cases ran
      exact look_inv settled halts at_
    · cases ran
  | relock l =>
    simp only [step] at ran
    split at ran
    · next at_ =>
      cases ran
      exact relock_inv settled halts at_
    · cases ran
  | hardclock k =>
    cases ran
    refine sys_inv halts (hardclock_settled settled k _) fun d => gentle_running id ?_
    exact sameRunning_setCpu _ (hardclock_running _ _).1 (hardclock_running _ _).2
  | softclock k lwp =>
    simp only [step] at ran
    split at ran
    · next guard =>
      cases ran
      obtain ⟨settled',gentle⟩ := enter_settled settled guard.1 lwp
      exact sys_inv halts settled' gentle
    · cases ran
  | turn k =>
    simp only [step] at ran
    split at ran
    · next guard =>
      obtain ⟨r,result,rfl⟩ := map_some ran
      obtain ⟨sys',soft,result',settled',idle,active⟩ := turn_settled settled guard.1 guard.2
      obtain rfl : r = (sys',soft) := Except.ok.inj (result.symm.trans result')
      exact sys_inv halts settled' fun d quiet => ⟨idle d quiet,fun j => active j d quiet⟩
    · cases ran
  | funcReturn k =>
    simp only [step] at ran
    split at ran
    · cases ran
      refine ⟨return_settled settled k,halts.change fun l d calm target => .inl ⟨calm,?_,?_,return_gentle _ k d⟩⟩
      · exact (woken_same k (w.thread l)).1.symm.trans target
      · exact fun past => (woken_same k (w.thread l)).2.symm.trans past
    · cases ran

theorem run_inv (idle : AllIdle start) (run : Interleaving Stays start w) : Settled w.sys ∧ Halts w := by
  induction run with
  | start =>
    refine ⟨⟨fun c => ?_,fun k c active => ?_,fun k busy => absurd (idle.active k) busy⟩,⟨fun l c _ target => ?_,fun l c _ target => ?_⟩⟩
    · have off := idle.callout c
      have never : ¬(start.sys.callout c).pending = true := by simp [off]
      exact ⟨fun on_ => absurd on_ never,fun k on_ => absurd on_ never,fun _ k => idle.empty k c,fun on_ => absurd on_ never⟩
    · rw [idle.active k] at active
      cases active
    · rw [idle.thread l] at target
      cases target
    rw [idle.thread l] at target
    cases target
  | next _ met ran ih => exact step_inv ih.1 ih.2 met ran

def Foreign (w : World) (l c : Nat) : Prop := ¬∃ k, (w.sys.cpu k).ccActive = some c ∧ (w.sys.cpu k).ccLwp = some l
def Quiet (w : World) (c : Nat) : Prop := (w.sys.callout c).pending = false ∧ ∀ k, (w.sys.cpu k).ccActive ≠ some c

theorem callout_halt_exact (idle : AllIdle start) (run : Interleaving Stays start w) (returned : w.thread l = .returned f)
    (calm : w.calm l = true) (foreign : Foreign w l f.c) : Quiet w f.c := by
  obtain ⟨_,halts⟩ := run_inv idle run
  have target : (w.thread l).target = some f.c := by rw [returned]; rfl
  refine ⟨halts.stopped l f.c calm target,fun k active => ?_⟩
  exact foreign ⟨k,active,halts.past l f.c calm target (by rw [returned]; rfl) k active⟩

def idleWorld : World := ⟨idle,fun _ => .out,fun _ => false⟩

theorem idleWorld_idle : AllIdle idleWorld where
  lwp := fun _ => rfl
  active := fun _ => rfl
  empty := fun _ c q => by cases q <;> exact List.not_mem_nil
  callout := fun _ => rfl
  thread := fun _ => rfl

def after (w : World) (a : Act) : World := (step w a).getD w

theorem lwp_setCpu (sys : System) (same : cc.ccLwp = (sys.cpu j).ccLwp) (k : Nat) : ((setCpu sys j cc).cpu k).ccLwp = (sys.cpu k).ccLwp := by
  by_cases here : k = j
  · subst here
    rw [setCpu_same]
    exact same
  · rw [show (setCpu sys j cc).cpu k = sys.cpu k from update_of_ne here _ _]

theorem schedule_lwp (ran : calloutScheduleLocked sys cur tryenter c toTicks = .ok sys') (k : Nat) : (sys'.cpu k).ccLwp = (sys.cpu k).ccLwp := by
  unfold calloutScheduleLocked at ran
  dsimp only at ran
  split at ran
  · cases ran
  split at ran
  · cases ran
  split at ran
  · split at ran
    · cases ran
      exact lwp_setCpu (setCallout sys c _) (by rfl) k
    cases ran
    rfl
  split at ran
  · cases ran
    exact lwp_setCpu (setCallout sys c _) (by rfl) k
  cases ran
  exact lwp_setCpu (setCallout sys c _) (by rfl) k

theorem cancel_lwp (sys : System) (c k : Nat) : ((cancel sys c).cpu k).ccLwp = (sys.cpu k).ccLwp := by
  unfold cancel
  dsimp only
  split
  · exact lwp_setCpu (setCallout sys c _) (by rfl) k
  · rfl

theorem haltLook_lwp (sys : System) (l : Nat) (f : Frame) (k : Nat) : ((haltLook sys l f).1.cpu k).ccLwp = (sys.cpu k).ccLwp := by
  unfold haltLook
  dsimp only
  split
  · rfl
  split
  · rfl
  · exact lwp_setCpu _ (by rfl) k

theorem turn_lwp (soft : Soft) (ran : softclockTurn sys j = .ok (sys',soft)) (k : Nat) :
    (sys'.cpu k).ccLwp = (sys.cpu k).ccLwp ∨ (sys'.cpu k).ccLwp = none := by
  unfold softclockTurn at ran
  dsimp only at ran
  split at ran
  · cases ran
    by_cases here : k = j
    · subst here
      rw [setCpu_same]
      exact .inr rfl
    rw [show (setCpu sys j _).cpu k = sys.cpu k from update_of_ne here _ _]
    exact .inl rfl
  split at ran
  · cases ran
  split at ran
  · cases ran
  split at ran
  · cases ran
  split at ran
  · cases ran
  split at ran
  · cases ran
    exact .inl (lwp_setCpu _ (by rfl) k)
  cases ran
  exact .inl (lwp_setCpu (setCallout sys _ _) (by rfl) k)

def NoSoftint (l : Nat) (_ : World) (a : Act) : Prop := ∀ k, a ≠ .softclock k l

theorem step_lwp (away : ∀ k, (w.sys.cpu k).ccLwp ≠ some l) (met : NoSoftint l w a) (ran : step w a = some w') (k : Nat) :
    (w'.sys.cpu k).ccLwp ≠ some l := by
  cases a with
  | reset cur tryenter c toTicks func arg | schedule cur tryenter c toTicks =>
    obtain ⟨sys',result,rfl⟩ := map_some ran
    rw [show ((w.scheduled c sys').sys.cpu k).ccLwp = _ from schedule_lwp result k]
    exact away k
  | stop c =>
    cases ran
    have same : ((calloutStop w.sys c).2.cpu k).ccLwp = (w.sys.cpu k).ccLwp := by
      unfold calloutStop
      dsimp only
      split
      · exact (lwp_setCpu _ (by rfl) k).trans (cancel_lwp w.sys c k)
      · exact cancel_lwp w.sys c k
    rw [same]
    exact away k
  | halt l c interlock =>
    simp only [step] at ran
    split at ran
    · cases ran
      rw [show ((w.goes l (calloutHalt w.sys l c interlock)).sys.cpu k).ccLwp = _ from (haltLook_lwp _ _ _ k).trans (cancel_lwp w.sys c k)]
      exact away k
    · cases ran
  | look l =>
    simp only [step] at ran
    split at ran
    · cases ran
      rw [show ((w.goes l (haltLook w.sys l _)).sys.cpu k).ccLwp = _ from haltLook_lwp _ _ _ k]
      exact away k
    · cases ran
  | relock l =>
    simp only [step] at ran
    split at ran
    · cases ran
      exact away k
    · cases ran
  | hardclock j =>
    cases ran
    have same : ((setCpu w.sys j (calloutHardclock (w.sys.cpu j))).cpu k).ccLwp = (w.sys.cpu k).ccLwp := lwp_setCpu _ (hardclock_running _ _).2 k
    rw [same]
    exact away k
  | softclock j lwp =>
    simp only [step] at ran
    split at ran
    · cases ran
      by_cases here : k = j
      · subst here
        rw [setCpu_same]
        exact fun same => met k (congrArg (Act.softclock k) (Option.some.inj same))
      rw [show (setCpu w.sys j _).cpu k = w.sys.cpu k from update_of_ne here _ _]
      exact away k
    · cases ran
  | turn j =>
    simp only [step] at ran
    split at ran
    · obtain ⟨r,result,rfl⟩ := map_some ran
      rcases turn_lwp r.2 result k with same | none_
      · rw [same]
        exact away k
      rw [none_]
      exact nofun
    · cases ran
  | funcReturn j =>
    simp only [step] at ran
    split at ran
    · cases ran
      rw [show ((setCpu w.sys j _).cpu k).ccLwp = _ from lwp_setCpu _ (by rfl) k]
      exact away k
    · cases ran

theorem foreign_run (idle : AllIdle start) (run : Interleaving (NoSoftint l) start w) (c : Nat) : Foreign w l c := by
  have away : ∀ k, (w.sys.cpu k).ccLwp ≠ some l := by
    induction run with
    | start =>
      intro k
      rw [idle.lwp k]
      exact nofun
    | next _ met ran ih => exact step_lwp ih met ran
  exact fun ⟨k,_,lwp⟩ => away k lwp

theorem Interleaving.mono {met met' : World → Act → Prop} (run : Interleaving met start w) (weaker : ∀ w a, met w a → met' w a) : Interleaving met' start w := by
  induction run with
  | start => exact .start
  | next _ met_ ran ih => exact .next ih (weaker _ _ met_) ran

theorem callout_halt_exact_pending : ∃ w, Interleaving Stays idleWorld w ∧ Quiet w 3 := by
  have reset : Interleaving (fun w a => Stays w a ∧ NoSoftint 7 w a) idleWorld (after idleWorld (.reset 0 true 3 5 7 5)) :=
    .next (a := .reset 0 true 3 5 7 5) .start ⟨fun leaves => leaves.2.2.1 rfl,nofun⟩ rfl
  have halt : Interleaving (fun w a => Stays w a ∧ NoSoftint 7 w a) idleWorld (after (after idleWorld (.reset 0 true 3 5 7 5)) (.halt 7 3 false)) :=
    .next (a := .halt 7 3 false) reset ⟨trivial,nofun⟩ rfl
  have returned : (after (after idleWorld (.reset 0 true 3 5 7 5)) (.halt 7 3 false)).thread 7 = .returned ⟨3,false,false,false⟩ := by decide +kernel
  have run : Interleaving Stays idleWorld _ := halt.mono fun _ _ both => both.1
  have softless : Interleaving (NoSoftint 7) idleWorld _ := halt.mono fun _ _ both => both.2
  have calm : (after (after idleWorld (.reset 0 true 3 5 7 5)) (.halt 7 3 false)).calm 7 = true := by decide +kernel
  have foreign := foreign_run idleWorld_idle softless 3
  generalize after (after idleWorld (.reset 0 true 3 5 7 5)) (.halt 7 3 false) = w at *
  exact ⟨w,run,callout_halt_exact idleWorld_idle run returned calm foreign⟩

-- The function of callout 3 runs on CPU 0 while a thread schedules the callout on CPU 1,
-- and halts it.
def passedWorld : World :=
  let w := after idleWorld (.reset 0 true 3 0 7 5)
  let w := after w (.hardclock 0)
  let w := after w (.softclock 0 100)
  let w := after w (.turn 0)
  let w := after w (.schedule 1 true 3 5)
  after w (.halt 7 3 false)

theorem passed_run : Interleaving (NoSoftint 7) idleWorld passedWorld := by
  have reset : Interleaving (NoSoftint 7) idleWorld (after idleWorld (.reset 0 true 3 0 7 5)) :=
    .next (a := .reset 0 true 3 0 7 5) .start nofun rfl
  have tick := Interleaving.next (a := .hardclock 0) reset nofun rfl
  have enter := Interleaving.next (a := .softclock 0 100) tick (fun k => by simp) rfl
  have invoke := Interleaving.next (a := .turn 0) enter nofun rfl
  have moved := Interleaving.next (a := .schedule 1 true 3 5) invoke nofun rfl
  exact .next (a := .halt 7 3 false) moved nofun rfl

theorem callout_halt_passes : Interleaving (fun _ _ => True) idleWorld passedWorld ∧ passedWorld.thread 7 = .returned ⟨3,false,false,false⟩ ∧
    passedWorld.calm 7 = true ∧ Foreign passedWorld 7 3 ∧ ¬Quiet passedWorld 3 := by
  have active : (passedWorld.sys.cpu 0).ccActive = some 3 := by decide +kernel
  exact ⟨passed_run.mono fun _ _ _ => trivial,by decide +kernel,by decide +kernel,foreign_run idleWorld_idle passed_run 3,fun quiet => quiet.2 0 active⟩
end NetbsdAvr32.Callout
