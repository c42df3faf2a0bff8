import NetbsdAvr32.Callout

-- One CPU: each callout is invoked at the tick it was scheduled for.
namespace NetbsdAvr32.Callout
open Wrapped Function

-- When a callout was scheduled last, for how many ticks, and whether no soft interrupt
-- was scheduled or running then.
structure Sched where
  since : Nat
  delay : Nat
  quiet : Bool

def Sched.due (s : Sched) : Nat := if s.delay = 0 ∧ s.quiet = true then s.since + 1 else s.since + s.delay

structure Call where
  c : Nat
  func : Nat
  arg : Nat
  tick : Nat
  sched : Option Sched

def quiet (sys : System) : Bool := !(sys.cpu 0).softint && (sys.cpu 0).ccLwp.isNone
def Looping (sys : System) : Prop := (sys.cpu 0).ccLwp ≠ none ∧ (sys.cpu 0).ccActive = none

structure Fresh (sys : System) : Prop where
  ticks : (sys.cpu 0).ccTicks < 4294967296
  quiet : quiet sys = true
  active : (sys.cpu 0).ccActive = none
  empty : ∀ c, OnNone (sys.cpu 0) c
  callout : ∀ c, (sys.callout c).cCpu = 0 ∧ (sys.callout c).pending = false

-- The runs of one CPU. A tick comes once the softclock is done. `now` counts the ticks
-- without wrapping.
inductive Run (start : System) : System → Nat → (Nat → Option Sched) → List Call → Prop
  | start : Run start start (start.cpu 0).ccTicks (fun _ => none) []
  | reset (run : Run start sys now sched log) (unlocked : ¬Looping sys) (low : 0 ≤ toTicks) (high : toTicks < 2147483647)
      (ran : calloutReset sys 0 tryenter c toTicks func arg = .ok sys') :
      Run start sys' now (update sched c (some ⟨now,toTicks.toNat,quiet sys⟩)) log
  | schedule (run : Run start sys now sched log) (unlocked : ¬Looping sys) (low : 0 ≤ toTicks) (high : toTicks < 2147483647)
      (ran : calloutSchedule sys 0 tryenter c toTicks = .ok sys') :
      Run start sys' now (update sched c (some ⟨now,toTicks.toNat,quiet sys⟩)) log
  | stop (run : Run start sys now sched log) (unlocked : ¬Looping sys) (ran : calloutStop sys c = (expired,sys')) :
      Run start sys' now (update sched c none) log
  | tick (run : Run start sys now sched log) (done : quiet sys = true) :
      Run start (setCpu sys 0 (calloutHardclock (sys.cpu 0))) (now + 1) sched log
  | enter (run : Run start sys now sched log) (asked : (sys.cpu 0).softint = true) :
      Run start (setCpu sys 0 (softclockEnter (sys.cpu 0) lwp)) now sched log
  | turn (run : Run start sys now sched log) (looping : Looping sys) (ran : softclockTurn sys 0 = .ok (sys',.again)) :
      Run start sys' now sched log
  | invoke (run : Run start sys now sched log) (looping : Looping sys) (ran : softclockTurn sys 0 = .ok (sys',.invoke c func arg)) :
      Run start sys' now (update sched c none) (⟨c,func,arg,now,sched c⟩ :: log)
  | returned (run : Run start sys now sched log) (active : (sys.cpu 0).ccActive ≠ none) :
      Run start (setCpu sys 0 (softclockReturn (sys.cpu 0))) now sched log
  | finish (run : Run start sys now sched log) (looping : Looping sys) (ran : softclockTurn sys 0 = .ok (sys',.finished)) :
      Run start sys' now sched log

def Waits (still : Bool) (now : Nat) (s : Sched) : Option Nat → Prop
  | none => still = true → s.since = now ∧ s.quiet = true
  | some b => b < 1024 ∧ ∃ t : Int, now < t ∧ t ≤ s.since + s.delay ∧ b ∈ moves (int t)

structure Timed (co : CalloutImpl) (cc : CalloutCpu) (still : Bool) (now c : Nat) (s : Sched) : Prop where
  pending : co.pending = true
  fired : co.fired = false
  func : co.cFunc ≠ none
  time : co.cTime = int (s.since + s.delay)
  delay : s.delay < 2147483647
  since : s.since ≤ now
  due : now ≤ s.due
  passed : still = false → s.quiet = true → s.since < now
  place : ∃ q, OnlyOn cc c q ∧ Waits still now s q

structure Inv (sys : System) (now : Nat) (sched : Nat → Option Sched) : Prop where
  ticks : (sys.cpu 0).ccTicks = now % 4294967296
  cpu : ∀ c, (sys.callout c).cCpu = 0
  timed : ∀ c s, sched c = some s → Timed (sys.callout c) (sys.cpu 0) (quiet sys) now c s
  away : ∀ c, sched c = none → (sys.callout c).pending = false ∧ OnNone (sys.cpu 0) c

variable {start sys sys' : System} {now c d : Nat} {sched : Nat → Option Sched} {log : List Call} {s : Sched} {cc cc' : CalloutCpu}
variable {co : CalloutImpl} {still : Bool} {toTicks : Int} {tryenter : Bool}

theorem Sched.due_bounds (s : Sched) : s.since + s.delay ≤ s.due ∧ s.due ≤ s.since + s.delay + 1 := by
  unfold Sched.due
  split
  · omega
  · omega

theorem Timed.moved (timed : Timed co cc still now d s) (only : ∀ q, OnlyOn cc d q → OnlyOn cc' d q) : Timed co cc' still now d s := by
  obtain ⟨q,here,waits⟩ := timed.place
  exact {timed with place := ⟨q,only q here,waits⟩}

theorem int_ticks (n : Nat) : int ((n % 4294967296 : Nat) : Int) = int n := by
  have := int_add_mod 0 n
  rwa [Int.zero_add,Int.zero_add] at this

theorem Fresh.inv (fresh : Fresh sys) : Inv sys (sys.cpu 0).ccTicks fun _ => none where
  ticks := (Nat.mod_eq_of_lt fresh.ticks).symm
  cpu := fun c => (fresh.callout c).1
  timed := fun _ _ none_ => by cases none_
  away := fun c _ => ⟨(fresh.callout c).2,fresh.empty c⟩

theorem timed_new (pending : co.pending = true) (fired : co.fired = false) (func : co.cFunc ≠ none) (time : co.cTime = int (toTicks + now))
    (low : 0 ≤ toTicks) (high : toTicks < 2147483647) (place : OnlyOn cc c q) (waits : Waits still now ⟨now,toTicks.toNat,still⟩ q) :
    Timed co cc still now c ⟨now,toTicks.toNat,still⟩ where
  pending := pending
  fired := fired
  func := func
  time := by
    rw [time]
    congr 1
    dsimp only
    omega
  delay := by
    dsimp only
    omega
  since := Nat.le_refl now
  due := by
    have := (Sched.due_bounds ⟨now,toTicks.toNat,still⟩).1
    dsimp only at this
    omega
  passed := fun busy quiet => by
    rw [busy] at quiet
    cases quiet
  place := ⟨q,place,waits⟩

theorem waits_new (still : Bool) (now delay : Nat) : Waits still now ⟨now,delay,still⟩ none := fun _ => ⟨rfl,by assumption⟩

theorem Inv.one (inv : Inv sys now sched) (new : Option Sched) (ticks : (sys'.cpu 0).ccTicks = (sys.cpu 0).ccTicks)
    (same : quiet sys' = quiet sys) (callouts : ∀ d, d ≠ c → sys'.callout d = sys.callout d) (cpu : (sys'.callout c).cCpu = 0)
    (others : ∀ d, d ≠ c → ∀ q, OnlyOn (sys.cpu 0) d q → OnlyOn (sys'.cpu 0) d q)
    (absent : ∀ d, d ≠ c → OnNone (sys.cpu 0) d → OnNone (sys'.cpu 0) d)
    (timed : ∀ s, new = some s → Timed (sys'.callout c) (sys'.cpu 0) (quiet sys) now c s)
    (away : new = none → (sys'.callout c).pending = false ∧ OnNone (sys'.cpu 0) c) : Inv sys' now (update sched c new) where
  ticks := ticks.trans inv.ticks
  cpu := fun d => by
    by_cases this : d = c
    · rw [this]
      exact cpu
    rw [callouts d this]
    exact inv.cpu d
  timed := fun d s is => by
    by_cases this : d = c
    · subst this
      rw [update_self] at is
      rw [same]
      exact timed s is
    rw [update_of_ne this] at is
    rw [callouts d this,same]
    exact (inv.timed d s is).moved (others d this)
  away := fun d is => by
    by_cases this : d = c
    · subst this
      rw [update_self] at is
      exact away is
    rw [update_of_ne this] at is
    rw [callouts d this]
    exact ⟨(inv.away d is).1,absent d this (inv.away d is).2⟩

@[simp] theorem setCpu_same (sys : System) (k : Nat) (cc : CalloutCpu) : (setCpu sys k cc).cpu k = cc := update_self _ _ _
@[simp] theorem setCpu_callout (sys : System) (k : Nat) (cc : CalloutCpu) : (setCpu sys k cc).callout = sys.callout := rfl
@[simp] theorem setCallout_same (sys : System) (c : Nat) (co : CalloutImpl) : (setCallout sys c co).callout c = co := update_self _ _ _
@[simp] theorem setCallout_cpu (sys : System) (c : Nat) (co : CalloutImpl) : (setCallout sys c co).cpu = sys.cpu := rfl

theorem setCallout_other (sys : System) (co : CalloutImpl) (other : d ≠ c) : (setCallout sys c co).callout d = sys.callout d :=
  update_of_ne other _ _

theorem todo_others (d : Nat) (other : d ≠ c) (q : Option Nat) (only : OnlyOn cc d q) : OnlyOn (insertTodo cc c) d q :=
  only.insert_other other (inserted_todo cc c)

section
variable (inv : Inv sys now sched)
include inv

theorem scheduled (low : 0 ≤ toTicks) (high : toTicks < 2147483647)
    (ran : calloutScheduleLocked sys 0 tryenter c toTicks = .ok sys') :
    Inv sys' now (update sched c (some ⟨now,toTicks.toNat,quiet sys⟩)) := by
  have home := inv.cpu c
  unfold calloutScheduleLocked at ran
  dsimp only at ran
  rw [if_neg (by omega)] at ran
  split at ran
  · cases ran
  next func =>
  have func : (sys.callout c).cFunc ≠ none := by simpa using func
  rw [home,inv.ticks,int_add_mod] at ran
  cases known : sched c with
  | none =>
    obtain ⟨idle,none_⟩ := inv.away c known
    rw [idle,if_neg (by simp),if_pos (.inr (.inl rfl))] at ran
    cases ran
    refine inv.one _ (by simp [insertTodo]) (by simp [quiet,insertTodo]) (fun d other => ?_) (by simpa using home) ?_ ?_ ?_ (by simp)
    · rw [setCpu_callout,setCallout_other _ _ other]
    · intro d other q only
      exact todo_others d other q only
    · intro d other absent
      exact absent.insert_other other (inserted_todo _ _)
    rintro s' is
    cases is
    rw [setCpu_same,setCpu_callout,setCallout_same]
    exact timed_new rfl rfl func rfl low high (none_.insert (inserted_todo _ _)) (waits_new _ _ _)
  | some s =>
    have timed := inv.timed c s known
    have bounds := s.due_bounds
    have due := timed.due
    have since := timed.since
    have delay := timed.delay
    obtain ⟨q,only,waits⟩ := timed.place
    have difference : int (int (toTicks + now) - int (s.since + s.delay)) = (toTicks + now) - (s.since + s.delay) := by
      rw [int_sub]
      exact int_small (by omega) (by omega)
    rw [timed.pending,if_pos rfl,timed.time,difference] at ran
    split at ran
    · -- The callout is due earlier than before.
      cases ran
      refine inv.one _ (by simp [insertTodo,circqRemove]) (by simp [quiet,insertTodo,circqRemove]) (fun d other => ?_)
        (by simp) ?_ ?_ ?_ (by simp)
      · rw [setCpu_callout,setCallout_other _ _ other]
      · intro d other q' only'
        exact todo_others d other q' (only'.remove_other other)
      · intro d other absent
        exact (absent.remove c).insert_other other (inserted_todo _ _)
      rintro s' is
      cases is
      rw [setCpu_same,setCpu_callout,setCallout_same]
      exact timed_new rfl rfl func rfl low high (only.removed.insert (inserted_todo _ _)) (waits_new _ _ _)
    next later =>
    cases ran
    refine inv.one _ (by simp) (by simp [quiet]) (fun d other => setCallout_other _ _ other) (by simp)
      (fun _ _ _ only' => only') (fun _ _ absent => absent) ?_ (by simp)
    rintro s' is
    cases is
    rw [setCallout_same]
    refine timed_new rfl rfl func rfl low high only ?_
    cases q with
    | none => exact waits_new _ _ _
    | some b =>
      obtain ⟨bound,t,after,before,moved⟩ := waits
      refine ⟨bound,t,after,?_,moved⟩
      dsimp only
      omega

theorem Inv.func (c func arg : Nat) :
    Inv (setCallout sys c {sys.callout c with cFunc := some func,cArg := arg}) now sched where
  ticks := inv.ticks
  cpu := fun d => by
    by_cases this : d = c
    · rw [this,setCallout_same]
      exact inv.cpu c
    rw [setCallout_other _ _ this]
    exact inv.cpu d
  timed := fun d s is => by
    have timed := inv.timed d s is
    by_cases this : d = c
    · subst this
      rw [setCallout_same]
      exact ⟨timed.pending,timed.fired,by simp,timed.time,timed.delay,timed.since,timed.due,timed.passed,timed.place⟩
    rw [setCallout_other _ _ this]
    exact timed
  away := fun d is => by
    by_cases this : d = c
    · subst this
      rw [setCallout_same]
      exact inv.away d is
    rw [setCallout_other _ _ this]
    exact inv.away d is

theorem Inv.cpuOnly (cc : CalloutCpu) (ticks : cc.ccTicks = (sys.cpu 0).ccTicks)
    (same : ∀ q, queue cc q = queue (sys.cpu 0) q) (still : quiet (setCpu sys 0 cc) = quiet sys) : Inv (setCpu sys 0 cc) now sched where
  ticks := by
    rw [setCpu_same,ticks,inv.ticks]
  cpu := inv.cpu
  timed := fun d s is => by
    rw [still,setCpu_same]
    exact (inv.timed d s is).moved fun q only => only.congr same
  away := fun d is => by
    exact ⟨(inv.away d is).1,(inv.away d is).2.congr same⟩

theorem stopped (ran : calloutStop sys c = (expired,sys')) : Inv sys' now (update sched c none) := by
  have home := inv.cpu c
  have cancelled : Inv (cancel sys c) now (update sched c none) ∧ ((cancel sys c).callout c).cCpu = 0 := by
    unfold cancel
    dsimp only
    cases known : sched c with
    | none =>
      obtain ⟨idle,none_⟩ := inv.away c known
      rw [idle,if_neg (by simp)]
      refine ⟨inv.one none rfl rfl (fun d other => setCallout_other _ _ other) (by simpa using home) (fun _ _ _ only => only)
        (fun _ _ absent => absent) (by simp) fun _ => ?_,by simpa using home⟩
      rw [setCallout_same]
      exact ⟨rfl,none_⟩
    | some s =>
      have timed := inv.timed c s known
      obtain ⟨q,only,_⟩ := timed.place
      rw [timed.pending,if_pos rfl,home]
      refine ⟨inv.one none (by simp [circqRemove]) (by simp [quiet,circqRemove]) (fun d other => ?_) (by simp) ?_ ?_ (by simp) fun _ => ?_,by simp⟩
      · rw [setCpu_callout,setCallout_other _ _ other]
      · intro d other q' only'
        exact only'.remove_other other
      · intro d other absent
        exact absent.remove c
      rw [setCpu_same,setCpu_callout,setCallout_same]
      exact ⟨rfl,only.removed⟩
  unfold calloutStop at ran
  dsimp only at ran
  rw [cancelled.2] at ran
  split at ran
  · cases ran
    have inv' := cancelled.1
    exact inv'.cpuOnly _ rfl (fun q => by cases q <;> rfl) (by simp [quiet])
  cases ran
  exact cancelled.1
end

theorem moveAll_count (bs : List Nat) (cc : CalloutCpu) : (bs.foldl moveBucket cc).ccTicks = cc.ccTicks := by
  induction bs generalizing cc with
  | nil => rfl
  | cons b bs ih => exact ih (moveBucket cc b)

theorem askSoftint_fields (cc : CalloutCpu) : (askSoftint cc).ccTicks = cc.ccTicks ∧ ((askSoftint cc).ccTodo ≠ [] → (askSoftint cc).softint = true) := by
  unfold askSoftint
  split
  · next empty => exact ⟨rfl,fun more => absurd (List.isEmpty_iff.mp empty) more⟩
  · exact ⟨rfl,fun _ => rfl⟩

theorem hardclock_fields (cc : CalloutCpu) (n : Nat) : (hardclockAt cc n).ccTicks = n ∧
    ((hardclockAt cc n).ccTodo ≠ [] → (hardclockAt cc n).softint = true) := by
  rw [hardclock_moves]
  generalize moves (int n) = bs
  obtain ⟨ticks,asked⟩ := askSoftint_fields (bs.foldl moveBucket {cc with ccTicks := n})
  exact ⟨ticks.trans (moveAll_count bs _),asked⟩

theorem clock_next (now : Nat) : (now % 4294967296 + 1) % 4294967296 = (now + 1) % 4294967296 := by omega

theorem Timed.tick {bs : List Nat} (timed : Timed co cc true now c s) (next : Nat) (step : next = now + 1)
    (queues : ∀ q, queue cc' q = queue (bs.foldl moveBucket cc) q) (due : ∀ b t, b ∈ moves (int t) → t = next → b ∈ bs)
    (work : cc'.ccTodo ≠ [] → still = false) : Timed co cc' still next c s := by
  obtain ⟨q,only,waits⟩ := timed.place
  have bounds := s.due_bounds
  have since := timed.since
  have moved := (only.moveAll bs).congr queues
  have reached : ∀ q', OnlyOn cc' c q' → next ≤ s.due → Waits still next s q' → Timed co cc' still next c s := fun q' here due waits =>
    ⟨timed.pending,timed.fired,timed.func,timed.time,timed.delay,by omega,due,fun _ _ => by omega,q',here,waits⟩
  have listed : OnlyOn cc' c none → next ≤ s.due → Timed co cc' still next c s := fun here due => reached none here due fun idle => by
    rw [work (List.ne_nil_of_mem here.mem)] at idle
    cases idle
  cases q with
  | none =>
    rw [if_neg (by simp)] at moved
    obtain ⟨new,calm⟩ := waits rfl
    refine listed moved ?_
    unfold Sched.due
    split
    · omega
    next more =>
    have : s.delay ≠ 0 := fun zero => more ⟨zero,calm⟩
    omega
  | some b =>
    obtain ⟨bound,t,after,before,turn⟩ := waits
    by_cases here : b ∈ bs
    · rw [if_pos ⟨b,here,rfl⟩] at moved
      exact listed moved (by omega)
    rw [if_neg (by rintro ⟨_,mem,is⟩; cases is; exact here mem)] at moved
    have later : t ≠ next := fun is => here (due b t turn is)
    exact reached _ moved (by omega) ⟨bound,t,by omega,before,turn⟩

theorem ticked_at (inv : Inv sys now sched) (done : quiet sys = true) (n : Nat) (count : n = (now + 1) % 4294967296)
    (clock : int n = int (now + 1 : Nat)) : Inv (setCpu sys 0 (hardclockAt (sys.cpu 0) n)) (now + 1) sched := by
  obtain ⟨ticks,asked⟩ := hardclock_fields (sys.cpu 0) n
  have queues := fun q => hardclock_queue (sys.cpu 0) n q
  have due : ∀ b t, b ∈ moves (int t) → t = (now + 1 : Nat) → b ∈ moves (int n) := fun b t mem is => by
    rw [clock,← is]
    exact mem
  generalize hardclockAt (sys.cpu 0) n = cc' at ticks asked queues
  generalize moves (int n) = bs at queues due
  refine ⟨?_,inv.cpu,fun c s known => ?_,fun c known => ?_⟩
  · rw [setCpu_same,ticks,count]
  · have timed := inv.timed c s known
    rw [done] at timed
    rw [setCpu_same,setCpu_callout]
    refine timed.tick (now + 1) rfl queues due fun more => ?_
    rw [quiet,setCpu_same,asked more]
    rfl
  obtain ⟨idle,none_⟩ := inv.away c known
  rw [setCpu_same]
  exact ⟨idle,(none_.moveAll _).congr queues⟩

theorem ticked (inv : Inv sys now sched) (done : quiet sys = true) : Inv (setCpu sys 0 (calloutHardclock (sys.cpu 0))) (now + 1) sched := by
  rw [calloutHardclock,inv.ticks,clock_next]
  exact ticked_at inv done _ rfl (int_ticks (now + 1))

theorem Inv.first {rest : List Nat} (inv : Inv sys now sched) (todo : (sys.cpu 0).ccTodo = c :: rest) : ∃ s, sched c = some s := by
  cases known : sched c with
  | none =>
    have here : c ∈ (sys.cpu 0).ccTodo := by
      rw [todo]
      exact List.mem_cons_self
    exact absurd here ((inv.away c known).2 none)
  | some s => exact ⟨s,rfl⟩

theorem Timed.delta (timed : Timed co cc still now c s) (ticks : cc.ccTicks = now % 4294967296) :
    int (co.cTime - int cc.ccTicks) = s.since + s.delay - now := by
  have bounds := s.due_bounds
  have delay := timed.delay
  have since := timed.since
  have due := timed.due
  rw [timed.time,ticks,int_ticks,int_sub]
  exact int_small (by omega) (by omega)

theorem Timed.reached (timed : Timed co cc false now c s) (reached : s.since + s.delay ≤ now) : now = s.due := by
  have passed := timed.passed rfl
  have due := timed.due
  unfold Sched.due at due ⊢
  split
  · next calm =>
    rw [if_pos calm] at due
    have := passed calm.2
    omega
  next more =>
  rw [if_neg more] at due
  omega

def later (sys : System) (now c : Nat) (s : Sched) : System :=
  setCpu sys 0 (insertBucket (circqRemove (sys.cpu 0) c) c (bucket (s.since + s.delay - now) (int (s.since + s.delay))))

def invoked (sys : System) (c : Nat) : System :=
  setCpu (setCallout sys c {sys.callout c with pending := false,fired := true,invoking := true}) 0
    {circqRemove (sys.cpu 0) c with ccActive := some c}

def drained (sys : System) : System := setCpu sys 0 {sys.cpu 0 with ccLwp := none}

theorem softclockTurn_nil {k : Nat} (todo : (sys.cpu k).ccTodo = []) :
    softclockTurn sys k = .ok (setCpu sys k {sys.cpu k with ccLwp := none},.finished) := by
  unfold softclockTurn
  dsimp only
  split
  · rfl
  next more =>
  rw [todo] at more
  cases more

theorem softclockTurn_cons {k func : Nat} {rest : List Nat} (todo : (sys.cpu k).ccTodo = c :: rest)
    (found : (sys.callout c).cFunc = some func) (home : (sys.callout c).cCpu = k) (pending : (sys.callout c).pending = true)
    (fired : (sys.callout c).fired = false) (delta : Int) (is : int ((sys.callout c).cTime - int (sys.cpu k).ccTicks) = delta) :
    softclockTurn sys k =
      if delta > 0 then .ok (setCpu sys k (insertBucket (circqRemove (sys.cpu k) c) c (bucket delta (sys.callout c).cTime)),.again)
      else .ok (setCpu (setCallout sys c {sys.callout c with pending := false,fired := true,invoking := true}) k
        {circqRemove (sys.cpu k) c with ccActive := some c},.invoke c func (sys.callout c).cArg) := by
  unfold softclockTurn
  dsimp only
  split
  · next empty =>
    rw [todo] at empty
    cases empty
  next d _ first =>
  rw [todo] at first
  cases first
  split
  · next none_ =>
    rw [found] at none_
    cases none_
  next func' some_ =>
  rw [found] at some_
  cases some_
  have same : (circqRemove (sys.cpu k) c).ccTicks = (sys.cpu k).ccTicks := rfl
  rw [if_neg (by simp [home]),if_neg (by simp [pending]),if_neg (by simp [fired]),same,is]

theorem Looping.busy (looping : Looping sys) : quiet sys = false := by
  obtain ⟨lwp,is⟩ := Option.ne_none_iff_exists'.mp looping.1
  simp [quiet,is]

section
variable (inv : Inv sys now sched)
include inv

theorem turn_cases (looping : Looping sys) :
    ((sys.cpu 0).ccTodo = [] ∧ softclockTurn sys 0 = .ok (drained sys,.finished)) ∨
    ∃ c rest s, (sys.cpu 0).ccTodo = c :: rest ∧ sched c = some s ∧
      ((now < s.since + s.delay ∧ softclockTurn sys 0 = .ok (later sys now c s,.again)) ∨
      (now = s.due ∧ ∃ func, (sys.callout c).cFunc = some func ∧
        softclockTurn sys 0 = .ok (invoked sys c,.invoke c func (sys.callout c).cArg))) := by
  cases todo : (sys.cpu 0).ccTodo with
  | nil =>
    left
    exact ⟨rfl,softclockTurn_nil todo⟩
  | cons c rest =>
    right
    obtain ⟨s,known⟩ := inv.first todo
    have timed := inv.timed c s known
    rw [looping.busy] at timed
    obtain ⟨func,func_is⟩ := Option.ne_none_iff_exists'.mp timed.func
    have delta := timed.delta inv.ticks
    have home := inv.cpu c
    refine ⟨c,rest,s,rfl,known,?_⟩
    have turn := softclockTurn_cons todo func_is home timed.pending timed.fired _ delta
    by_cases future : now < s.since + s.delay
    · left
      rw [turn,if_pos (by omega),timed.time]
      exact ⟨future,rfl⟩
    right
    rw [turn,if_neg (by omega)]
    exact ⟨timed.reached (by omega),func,func_is,rfl⟩

theorem later_inv {rest : List Nat} (known : sched c = some s) (todo : (sys.cpu 0).ccTodo = c :: rest)
    (future : now < s.since + s.delay) : Inv (later sys now c s) now sched := by
  have timed := inv.timed c s known
  obtain ⟨q,only,_⟩ := timed.place
  have same : update sched c (some s) = sched := by
    rw [← known]
    exact update_eq_self c sched
  rw [← same]
  refine inv.one _ (by simp [later,insertBucket,circqRemove]) (by simp [quiet,later,insertBucket,circqRemove]) (fun _ _ => rfl) (inv.cpu c)
    ?_ ?_ ?_ (by simp)
  · intro d other q' only'
    exact (only'.remove_other other).insert_other other (inserted_bucket _ _ _)
  · intro d other absent
    exact (absent.remove c).insert_other other (inserted_bucket _ _ _)
  rintro s' is
  cases is
  have place := only.removed.insert (inserted_bucket (circqRemove (sys.cpu 0) c) c (bucket (s.since + s.delay - now) (int (s.since + s.delay))))
  obtain ⟨t,after,before,moved⟩ := bucket_moves (show (now : Int) < s.since + s.delay by omega)
  exact {timed with place := ⟨_,place,bucket_bound _ _,t,after,before,moved⟩}

theorem invoked_inv (known : sched c = some s) : Inv (invoked sys c) now (update sched c none) := by
  obtain ⟨q,only,_⟩ := (inv.timed c s known).place
  refine inv.one _ (by simp [invoked,circqRemove]) (by simp [quiet,invoked,circqRemove]) (fun d other => ?_) ?_ ?_ ?_ (by simp) fun _ => ?_
  · rw [invoked,setCpu_callout,setCallout_other _ _ other]
  · rw [invoked,setCpu_callout,setCallout_same]
    exact inv.cpu c
  · intro d other q' only'
    exact (only'.remove_other other).congr fun q => by cases q <;> rfl
  · intro d other absent
    exact (absent.remove c).congr fun q => by cases q <;> rfl
  rw [invoked,setCpu_same,setCpu_callout,setCallout_same]
  exact ⟨rfl,only.removed.congr fun q => by cases q <;> rfl⟩

theorem drained_inv (todo : (sys.cpu 0).ccTodo = []) (busy : quiet sys = false) : Inv (drained sys) now sched where
  ticks := by
    exact inv.ticks
  cpu := inv.cpu
  timed := fun c s known => by
    have timed := inv.timed c s known
    rw [busy] at timed
    obtain ⟨q,only,waits⟩ := timed.place
    refine {timed with passed := fun _ => timed.passed rfl,place := ⟨q,only.congr fun q => by cases q <;> rfl,?_⟩}
    cases q with
    | none =>
      have here : c ∈ (sys.cpu 0).ccTodo := only.mem
      rw [todo] at here
      cases here
    | some b => exact waits
  away := fun c known => by
    exact ⟨(inv.away c known).1,(inv.away c known).2.congr fun q => by cases q <;> rfl⟩

theorem enter_inv (asked : (sys.cpu 0).softint = true) (lwp : Nat) :
    Inv (setCpu sys 0 (softclockEnter (sys.cpu 0) lwp)) now sched :=
  inv.cpuOnly _ rfl (fun q => by cases q <;> rfl) (by simp [quiet,softclockEnter,asked])

theorem return_inv : Inv (setCpu sys 0 (softclockReturn (sys.cpu 0))) now sched :=
  inv.cpuOnly _ rfl (fun q => by cases q <;> rfl) (by simp [quiet,softclockReturn])
end

theorem Run.inv (fresh : Fresh start) (run : Run start sys now sched log) : Inv sys now sched := by
  induction run with
  | start => exact fresh.inv
  | reset _ _ low high ran ih =>
    have := scheduled (ih.func _ _ _) low high ran
    exact this
  | schedule _ _ low high ran ih => exact scheduled ih low high ran
  | stop _ _ ran ih => exact stopped ih ran
  | tick _ done ih => exact ticked ih done
  | enter _ asked ih => exact enter_inv ih asked _
  | turn _ looping ran ih =>
    rcases turn_cases ih looping with ⟨_,same⟩ | ⟨c,_,s,todo,known,⟨future,same⟩ | ⟨_,_,_,same⟩⟩
    · rw [ran] at same
      cases same
    · rw [ran] at same
      cases same
      exact later_inv ih known todo future
    rw [ran] at same
    cases same
  | invoke _ looping ran ih =>
    rcases turn_cases ih looping with ⟨_,same⟩ | ⟨c,_,s,todo,known,⟨_,same⟩ | ⟨_,_,_,same⟩⟩
    · rw [ran] at same
      cases same
    · rw [ran] at same
      cases same
    rw [ran] at same
    cases same
    exact invoked_inv ih known
  | returned _ _ ih => exact return_inv ih
  | finish _ looping ran ih =>
    rcases turn_cases ih looping with ⟨todo,same⟩ | ⟨c,_,s,_,_,⟨_,same⟩ | ⟨_,_,_,same⟩⟩
    · rw [ran] at same
      cases same
      exact drained_inv ih todo looping.busy
    · rw [ran] at same
      cases same
    rw [ran] at same
    cases same

theorem Run.calls (fresh : Fresh start) (run : Run start sys now sched log) : ∀ call ∈ log, ∃ s, call.sched = some s ∧ call.tick = s.due := by
  induction run with
  | start =>
    intro call mem
    cases mem
  | reset _ _ _ _ _ ih => exact ih
  | schedule _ _ _ _ _ ih => exact ih
  | stop _ _ _ ih => exact ih
  | tick _ _ ih => exact ih
  | enter _ _ ih => exact ih
  | turn _ _ _ ih => exact ih
  | invoke run looping ran ih =>
    intro call mem
    rcases List.mem_cons.mp mem with rfl | old
    · rcases turn_cases (run.inv fresh) looping with ⟨_,same⟩ | ⟨c,_,s,_,known,⟨_,same⟩ | ⟨due,_,_,same⟩⟩
      · rw [ran] at same
        cases same
      · rw [ran] at same
        cases same
      rw [ran] at same
      cases same
      exact ⟨s,known,due⟩
    · exact ih call old
  | returned _ _ ih => exact ih
  | finish _ _ _ ih => exact ih

theorem Timed.later (timed : Timed co cc true now c s) : now < s.due := by
  obtain ⟨q,_,waits⟩ := timed.place
  have bounds := s.due_bounds
  cases q with
  | none =>
    obtain ⟨new,calm⟩ := waits rfl
    unfold Sched.due
    split
    · omega
    next more =>
    have : s.delay ≠ 0 := fun zero => more ⟨zero,calm⟩
    omega
  | some b =>
    obtain ⟨_,t,after,before,_⟩ := waits
    omega

theorem turn_progress (inv : Inv sys now sched) (looping : Looping sys) : ∃ sys' soft, softclockTurn sys 0 = .ok (sys',soft) ∧
    (soft ≠ .finished → (sys'.cpu 0).ccTodo.length < (sys.cpu 0).ccTodo.length) := by
  rcases turn_cases inv looping with ⟨_,same⟩ | ⟨c,rest,s,todo,_,⟨_,same⟩ | ⟨_,_,_,same⟩⟩
  · exact ⟨_,_,same,fun more => absurd rfl more⟩
  · refine ⟨_,_,same,fun _ => ?_⟩
    simp [later,insertBucket,circqRemove,todo]
  refine ⟨_,_,same,fun _ => ?_⟩
  simp [invoked,circqRemove,todo]

-- Each callout that is scheduled is on one queue, and it is invoked at its tick.
theorem callout_wheel (fresh : Fresh start) (run : Run start sys now sched log) :
    (∀ c s, sched c = some s → (sys.callout c).pending = true ∧ (sys.callout c).cTime = int (s.since + s.delay) ∧
      ∃ q, OnlyOn (sys.cpu 0) c q ∧ ∀ b, q = some b → b < 1024) ∧
    (∀ c, sched c = none → (sys.callout c).pending = false ∧ OnNone (sys.cpu 0) c) ∧
    (∀ call ∈ log, ∃ s, call.sched = some s ∧ call.tick = s.due) ∧
    (∀ c s, sched c = some s → now ≤ s.due ∧ (quiet sys = true → now < s.due)) ∧
    (Looping sys → ∃ sys' soft, softclockTurn sys 0 = .ok (sys',soft) ∧
      (soft ≠ .finished → (sys'.cpu 0).ccTodo.length < (sys.cpu 0).ccTodo.length)) := by
  have inv := run.inv fresh
  refine ⟨fun c s known => ?_,inv.away,run.calls fresh,fun c s known => ?_,turn_progress inv⟩
  · have timed := inv.timed c s known
    obtain ⟨q,only,waits⟩ := timed.place
    refine ⟨timed.pending,timed.time,q,only,?_⟩
    rintro b rfl
    exact waits.1
  have timed := inv.timed c s known
  refine ⟨timed.due,fun still => ?_⟩
  rw [still] at timed
  exact timed.later

def idle : System where
  cpu := fun _ => ⟨0,0,none,none,none,[],fun _ => [],false⟩
  callout := fun _ => ⟨none,0,0,0,false,false,false,false⟩

theorem idle_fresh : Fresh idle where
  ticks := by decide
  quiet := rfl
  active := rfl
  empty := fun c q => by cases q <;> exact List.not_mem_nil
  callout := fun _ => ⟨rfl,rfl⟩

theorem callout_wheel_tick : ∃ sys sched, Run idle sys 1 sched [⟨3,7,5,1,some ⟨0,0,true⟩⟩] ∧
    (sys.callout 3).pending = false ∧ OnNone (sys.cpu 0) 3 := by
  have reset := Run.reset (.start : Run idle _ _ _ _) (fun looping => looping.1 rfl) (by decide) (by decide)
    (show calloutReset idle 0 true 3 0 7 5 = .ok _ from rfl)
  have entered : Run idle (setCpu _ 0 (softclockEnter _ 1)) 1 _ [] := (reset.tick rfl).enter rfl
  have run := entered.invoke ⟨nofun,rfl⟩ rfl
  exact ⟨_,_,run,(callout_wheel idle_fresh run).2.1 3 rfl⟩
end NetbsdAvr32.Callout
