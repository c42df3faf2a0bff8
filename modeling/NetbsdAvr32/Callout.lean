import NetbsdAvr32.Outcome
import NetbsdAvr32.Wrapped

-- sys/kern/kern_timeout.c: callouts on a timing wheel for each CPU.
namespace NetbsdAvr32.Callout
open Wrapped Function List

-- callout_impl_t. A function is known by its address.
structure CalloutImpl where
  cFunc : Option Nat
  cArg : Nat
  cTime : Int
  cCpu : Nat
  bound : Bool
  pending : Bool
  fired : Bool
  invoking : Bool

-- struct callout_cpu, the queues from their first element on. `softint` is set while
-- the soft interrupt is scheduled.
structure CalloutCpu where
  ccNwait : Nat
  ccTicks : Nat
  ccLwp : Option Nat
  ccActive : Option Nat
  ccCancel : Option Nat
  ccTodo : List Nat
  ccWheel : Nat → List Nat
  softint : Bool

structure System where
  cpu : Nat → CalloutCpu
  callout : Nat → CalloutImpl

def wheelsize : Nat := 256
def wheelbits : Nat := 8
def maskWheel (wheel : Nat) (time : Int) : Nat := ((time >>> (wheel * wheelbits)) % (wheelsize : Int)).toNat

-- BUCKET, as an index of cc_wheel.
def bucket (rel abs : Int) : Nat :=
  if rel ≤ 1 <<< (2 * wheelbits) then
    if rel ≤ 1 <<< wheelbits then maskWheel 0 abs else maskWheel 1 abs + wheelsize
  else if rel ≤ 1 <<< (3 * wheelbits) then maskWheel 2 abs + 2 * wheelsize
  else maskWheel 3 abs + 3 * wheelsize

-- MOVEBUCKET of the bucket with the index b.
def moveBucket (cc : CalloutCpu) (b : Nat) : CalloutCpu :=
  {cc with ccTodo := cc.ccTodo ++ cc.ccWheel b,ccWheel := update cc.ccWheel b []}

-- CIRCQ_REMOVE takes the callout off the queue that it is on.
def circqRemove (cc : CalloutCpu) (c : Nat) : CalloutCpu :=
  {cc with ccTodo := cc.ccTodo.erase c,ccWheel := fun b => (cc.ccWheel b).erase c}

def insertTodo (cc : CalloutCpu) (c : Nat) : CalloutCpu := {cc with ccTodo := cc.ccTodo ++ [c]}
def insertBucket (cc : CalloutCpu) (c b : Nat) : CalloutCpu := {cc with ccWheel := update cc.ccWheel b (cc.ccWheel b ++ [c])}
def setCpu (sys : System) (k : Nat) (cc : CalloutCpu) : System := {sys with cpu := update sys.cpu k cc}
def setCallout (sys : System) (c : Nat) (co : CalloutImpl) : System := {sys with callout := update sys.callout c co}

-- callout_schedule_locked, called on the CPU `cur`. `tryenter` is what mutex_tryenter
-- answers for the lock of that CPU.
def calloutScheduleLocked (sys : System) (cur : Nat) (tryenter : Bool) (c : Nat) (toTicks : Int) : Except Halt System :=
  let co := sys.callout c
  let occ := co.cCpu
  if toTicks < 0 then .error (.panic "to_ticks >= 0")
  else if co.cFunc.isNone then .error (.panic "c->c_func != NULL")
  else
    let co := {co with fired := false,invoking := false}
    if co.pending then
      let cTime := int (toTicks + (sys.cpu occ).ccTicks)
      let sys' := setCallout sys c {co with cTime := cTime}
      if int (cTime - co.cTime) < 0 then .ok (setCpu sys' occ (insertTodo (circqRemove (sys.cpu occ) c) c))
      else .ok sys'
    else if co.bound ∨ cur = occ ∨ tryenter = false then
      let sys' := setCallout sys c {co with cTime := int (toTicks + (sys.cpu occ).ccTicks),pending := true}
      .ok (setCpu sys' occ (insertTodo (sys.cpu occ) c))
    else
      let sys' := setCallout sys c {co with cCpu := cur,cTime := int (toTicks + (sys.cpu cur).ccTicks),pending := true}
      .ok (setCpu sys' cur (insertTodo (sys.cpu cur) c))

def calloutReset (sys : System) (cur : Nat) (tryenter : Bool) (c : Nat) (toTicks : Int) (func arg : Nat) : Except Halt System :=
  calloutScheduleLocked (setCallout sys c {sys.callout c with cFunc := some func,cArg := arg}) cur tryenter c toTicks

def calloutSchedule (sys : System) (cur : Nat) (tryenter : Bool) (c : Nat) (toTicks : Int) : Except Halt System :=
  calloutScheduleLocked sys cur tryenter c toTicks

def cancel (sys : System) (c : Nat) : System :=
  let co := sys.callout c
  let sys' := setCallout sys c {co with pending := false,fired := false}
  if co.pending then setCpu sys' co.cCpu (circqRemove (sys.cpu co.cCpu) c) else sys'

-- Returns whether the callout had fired, as callout_stop does.
def calloutStop (sys : System) (c : Nat) : Bool × System :=
  let expired := (sys.callout c).fired
  let sys := cancel sys c
  let k := (sys.callout c).cCpu
  if (sys.cpu k).ccActive = some c then (expired,setCpu sys k {sys.cpu k with ccCancel := some c}) else (expired,sys)

-- The buckets that callout_hardclock moves: one of each wheel whose lower wheels roll over.
def moveDue (cc : CalloutCpu) (ticks : Int) : CalloutCpu :=
  let cc := moveBucket cc (maskWheel 0 ticks + 0 * wheelsize)
  if maskWheel 0 ticks = 0 then
    let cc := moveBucket cc (maskWheel 1 ticks + 1 * wheelsize)
    if maskWheel 1 ticks = 0 then
      let cc := moveBucket cc (maskWheel 2 ticks + 2 * wheelsize)
      if maskWheel 2 ticks = 0 then moveBucket cc (maskWheel 3 ticks + 3 * wheelsize) else cc
    else cc
  else cc

def askSoftint (cc : CalloutCpu) : CalloutCpu := if cc.ccTodo.isEmpty then cc else {cc with softint := true}

-- callout_hardclock once cc_ticks is raised.
def hardclockAt (cc : CalloutCpu) (ticks : Nat) : CalloutCpu := askSoftint (moveDue {cc with ccTicks := ticks} (int ticks))
def calloutHardclock (cc : CalloutCpu) : CalloutCpu := hardclockAt cc ((cc.ccTicks + 1) % 4294967296)

-- What a turn of the loop of callout_softclock ends with.
inductive Soft where
  | again
  | invoke (c func arg : Nat)
  | finished

def softclockEnter (cc : CalloutCpu) (lwp : Nat) : CalloutCpu := {cc with ccLwp := some lwp,softint := false}

def softclockTurn (sys : System) (k : Nat) : Except Halt (System × Soft) :=
  let cc := sys.cpu k
  match cc.ccTodo with
  | [] => .ok (setCpu sys k {cc with ccLwp := none},.finished)
  | c :: _ =>
    let co := sys.callout c
    match co.cFunc with
    | none => .error (.panic "c->c_func != NULL")
    | some func =>
      if co.cCpu ≠ k then .error (.panic "c->c_cpu == cc")
      else if co.pending = false then .error (.panic "(c->c_flags & CALLOUT_PENDING) != 0")
      else if co.fired then .error (.panic "(c->c_flags & CALLOUT_FIRED) == 0")
      else
        let cc := circqRemove cc c
        let delta := int (co.cTime - int cc.ccTicks)
        if delta > 0 then .ok (setCpu sys k (insertBucket cc c (bucket delta co.cTime)),.again)
        else
          let sys' := setCallout sys c {co with pending := false,fired := true,invoking := true}
          .ok (setCpu sys' k {cc with ccActive := some c},.invoke c func co.cArg)

-- What follows the call. The threads that wait for it are woken.
def softclockReturn (cc : CalloutCpu) : CalloutCpu := {cc with ccActive := none,ccNwait := 0}

-- The queue of the worklist is none, the others go by their index in cc_wheel.
def queue (cc : CalloutCpu) : Option Nat → List Nat
  | none => cc.ccTodo
  | some b => cc.ccWheel b

structure OnlyOn (cc : CalloutCpu) (c : Nat) (q : Option Nat) : Prop where
  once : (queue cc q).count c = 1
  other : ∀ q', q' ≠ q → c ∉ queue cc q'

def OnNone (cc : CalloutCpu) (c : Nat) : Prop := ∀ q, c ∉ queue cc q

def moves (ticks : Int) : List Nat :=
  maskWheel 0 ticks :: (if maskWheel 0 ticks = 0 then (maskWheel 1 ticks + 256) :: (if maskWheel 1 ticks = 0 then
    (maskWheel 2 ticks + 512) :: (if maskWheel 2 ticks = 0 then [maskWheel 3 ticks + 768] else []) else []) else [])

variable {cc cc' : CalloutCpu} {c d b : Nat} {q : Option Nat} {x now : Int}

theorem maskWheel_eq (w : Nat) (x : Int) : maskWheel w x = (x / (2 ^ (w * 8) : Nat) % 256).toNat := by
  rw [maskWheel,Int.shiftRight_eq_div_pow]
  rfl

theorem maskWheel_zero (x : Int) : maskWheel 0 (int x) = (x % 256).toNat := by
  obtain ⟨k,eq⟩ := int_eq x
  have power : ((2 ^ (0 * 8) : Nat) : Int) = 1 := rfl
  rw [maskWheel_eq,eq,power]
  omega

theorem maskWheel_one (x : Int) : maskWheel 1 (int x) = (x / 256 % 256).toNat := by
  obtain ⟨k,eq⟩ := int_eq x
  have power : ((2 ^ (1 * 8) : Nat) : Int) = 256 := rfl
  rw [maskWheel_eq,eq,power]
  omega

theorem maskWheel_two (x : Int) : maskWheel 2 (int x) = (x / 65536 % 256).toNat := by
  obtain ⟨k,eq⟩ := int_eq x
  have power : ((2 ^ (2 * 8) : Nat) : Int) = 65536 := rfl
  rw [maskWheel_eq,eq,power]
  omega

theorem maskWheel_three (x : Int) : maskWheel 3 (int x) = (x / 16777216 % 256).toNat := by
  obtain ⟨k,eq⟩ := int_eq x
  have power : ((2 ^ (3 * 8) : Nat) : Int) = 16777216 := rfl
  rw [maskWheel_eq,eq,power]
  omega

theorem bucket_eq (rel abs : Int) : bucket rel abs =
    if rel ≤ 65536 then (if rel ≤ 256 then maskWheel 0 abs else maskWheel 1 abs + 256)
    else if rel ≤ 16777216 then maskWheel 2 abs + 512 else maskWheel 3 abs + 768 := rfl

-- The bucket of a time to come is moved at that time, or earlier: where the digits
-- below its wheel are 0.
theorem bucket_moves (future : now < x) : ∃ t, now < t ∧ t ≤ x ∧ bucket (x - now) (int x) ∈ moves (int t) := by
  rw [bucket_eq]
  unfold moves
  simp only [maskWheel_zero,maskWheel_one,maskWheel_two,maskWheel_three]
  split
  · split
    · exact ⟨x,future,Int.le_refl x,mem_cons_self⟩
    refine ⟨x / 256 * 256,by omega,by omega,mem_cons_of_mem _ ?_⟩
    have same : x / 256 * 256 / 256 = x / 256 := by omega
    rw [if_pos (by omega),same]
    exact mem_cons_self
  split
  · refine ⟨x / 65536 * 65536,by omega,by omega,mem_cons_of_mem _ ?_⟩
    have same : x / 65536 * 65536 / 65536 = x / 65536 := by omega
    rw [if_pos (by omega),if_pos (by omega),same]
    exact mem_cons_of_mem _ mem_cons_self
  refine ⟨x / 16777216 * 16777216,by omega,by omega,mem_cons_of_mem _ ?_⟩
  have same : x / 16777216 * 16777216 / 16777216 = x / 16777216 := by omega
  rw [if_pos (by omega),if_pos (by omega),if_pos (by omega),same]
  exact mem_cons_of_mem _ (mem_cons_of_mem _ mem_cons_self)

theorem bucket_bound (rel abs : Int) : bucket rel abs < 1024 := by
  have bound : ∀ w, maskWheel w abs < 256 := fun w => by
    rw [maskWheel_eq]
    omega
  have zero := bound 0
  have one := bound 1
  have two := bound 2
  have three := bound 3
  rw [bucket_eq]
  split
  · split
    · omega
    · omega
  split
  · omega
  · omega

theorem queue_remove (cc : CalloutCpu) (c : Nat) (q : Option Nat) : queue (circqRemove cc c) q = (queue cc q).erase c := by
  cases q with
  | none => rfl
  | some b => rfl

def Inserted (cc : CalloutCpu) (c : Nat) (q : Option Nat) (cc' : CalloutCpu) : Prop :=
  ∀ q', queue cc' q' = if q' = q then queue cc q' ++ [c] else queue cc q'

theorem inserted_todo (cc : CalloutCpu) (c : Nat) : Inserted cc c none (insertTodo cc c) := fun q' => by
  cases q' with
  | none => rfl
  | some b => rfl

theorem inserted_bucket (cc : CalloutCpu) (c b : Nat) : Inserted cc c (some b) (insertBucket cc c b) := fun q' => by
  cases q' with
  | none => rfl
  | some b' =>
    by_cases same : b' = b
    · subst same
      rw [if_pos rfl]
      exact update_self _ _ _
    rw [if_neg (by simpa using same)]
    exact update_of_ne same _ _

theorem queue_moveBucket (cc : CalloutCpu) (b : Nat) (q : Option Nat) : queue (moveBucket cc b) q =
    if q = none then queue cc q ++ queue cc (some b) else if q = some b then [] else queue cc q := by
  cases q with
  | none => rfl
  | some b' =>
    rw [if_neg (by simp)]
    by_cases same : b' = b
    · subst same
      rw [if_pos rfl]
      exact update_self _ _ _
    rw [if_neg (by simpa using same)]
    exact update_of_ne same _ _

theorem OnlyOn.mem (only : OnlyOn cc c q) : c ∈ queue cc q := count_pos_iff.mp (by rw [only.once]; exact Nat.one_pos)

theorem OnlyOn.unique (only : OnlyOn cc c q) (here : c ∈ queue cc q') : q' = q := by
  by_contra other
  exact only.other q' other here

theorem OnlyOn.removed (only : OnlyOn cc c q) : OnNone (circqRemove cc c) c := by
  intro q' here
  rw [queue_remove] at here
  have same := only.unique (mem_of_mem_erase here)
  subst same
  have once := only.once
  have gone := count_pos_iff.mpr here
  rw [count_erase_self] at gone
  omega

theorem OnlyOn.remove_other (only : OnlyOn cc d q) (other : d ≠ c) : OnlyOn (circqRemove cc c) d q where
  once := by
    rw [queue_remove,count_erase_of_ne other]
    exact only.once
  other := fun q' ne here => by
    rw [queue_remove] at here
    exact only.other q' ne (mem_of_mem_erase here)

theorem OnNone.remove (none_ : OnNone cc d) (c : Nat) : OnNone (circqRemove cc c) d := fun q here => by
  rw [queue_remove] at here
  exact none_ q (mem_of_mem_erase here)

theorem OnNone.insert (none_ : OnNone cc c) (inserted : Inserted cc c q cc') : OnlyOn cc' c q where
  once := by
    rw [inserted,if_pos rfl,count_append,count_eq_zero.mpr (none_ q)]
    simp
  other := fun q' ne here => by
    rw [inserted,if_neg ne] at here
    exact none_ q' here

theorem OnNone.insert_other (none_ : OnNone cc d) (other : d ≠ c) (inserted : Inserted cc c q cc') : OnNone cc' d := fun q' here => by
  rw [inserted] at here
  split at here
  · exact none_ q' (by simpa [other] using here)
  · exact none_ q' here

theorem OnlyOn.insert_other (only : OnlyOn cc d q) (other : d ≠ c) (inserted : Inserted cc c q₁ cc') : OnlyOn cc' d q where
  once := by
    rw [inserted]
    split
    · rw [count_append,only.once,count_singleton]
      simp [Ne.symm other]
    · exact only.once
  other := fun q' ne here => by
    rw [inserted] at here
    split at here
    · exact only.other q' ne (by simpa [other] using here)
    · exact only.other q' ne here

theorem OnNone.move (none_ : OnNone cc c) (b : Nat) : OnNone (moveBucket cc b) c := fun q here => by
  rw [queue_moveBucket] at here
  split at here
  · rcases mem_append.mp here with here | here
    · exact none_ q here
    · exact none_ (some b) here
  split at here
  · cases here
  · exact none_ q here

theorem OnlyOn.move (only : OnlyOn cc c q) (b : Nat) : OnlyOn (moveBucket cc b) c (if q = some b then none else q) := by
  by_cases moved : q = some b
  · subst moved
    rw [if_pos rfl]
    refine ⟨?_,fun q' ne here => ?_⟩
    · rw [queue_moveBucket,if_pos rfl,count_append,only.once,count_eq_zero.mpr (only.other none (by simp))]
    rw [queue_moveBucket,if_neg ne] at here
    split at here
    · cases here
    · next ne' => exact only.other q' ne' here
  rw [if_neg moved]
  have away := only.other (some b) (Ne.symm moved)
  refine ⟨?_,fun q' ne here => ?_⟩
  · rw [queue_moveBucket]
    split
    · rw [count_append,only.once,count_eq_zero.mpr away]
    · exact only.once
  rw [queue_moveBucket] at here
  split at here
  · rcases mem_append.mp here with here | here
    · exact only.other q' ne here
    · exact away here
  split at here
  · cases here
  · exact only.other q' ne here

theorem OnNone.moveAll (none_ : OnNone cc c) (bs : List Nat) : OnNone (bs.foldl moveBucket cc) c := by
  induction bs generalizing cc with
  | nil => exact none_
  | cons b bs ih => exact ih (none_.move b)

theorem OnlyOn.moveAll (only : OnlyOn cc c q) (bs : List Nat) :
    OnlyOn (bs.foldl moveBucket cc) c (if ∃ b ∈ bs, q = some b then none else q) := by
  induction bs generalizing cc q with
  | nil =>
    exact only
  | cons b bs ih =>
    have rest := ih (only.move b)
    split at rest
    · next moved =>
      rw [if_neg (by simp)] at rest
      rwa [if_pos ⟨b,mem_cons_self,moved⟩]
    next moved =>
    have same : (∃ x ∈ b :: bs, q = some x) ↔ ∃ x ∈ bs, q = some x := by simp [moved]
    simp only [same]
    exact rest

theorem OnlyOn.congr (only : OnlyOn cc c q) (same : ∀ q, queue cc' q = queue cc q) : OnlyOn cc' c q :=
  ⟨by rw [same,only.once],fun q' ne => by rw [same]; exact only.other q' ne⟩

theorem OnNone.congr (none_ : OnNone cc c) (same : ∀ q, queue cc' q = queue cc q) : OnNone cc' c := fun q => by
  rw [same]
  exact none_ q

theorem moveDue_moves (cc : CalloutCpu) (ticks : Int) : moveDue cc ticks = (moves ticks).foldl moveBucket cc := by
  unfold moveDue moves
  split
  · split
    · split
      · rfl
      · rfl
    · rfl
  · rfl

theorem moveAll_ticks (bs : List Nat) (cc : CalloutCpu) (n : Nat) (q : Option Nat) :
    queue (bs.foldl moveBucket {cc with ccTicks := n}) q = queue (bs.foldl moveBucket cc) q := by
  induction bs generalizing cc with
  | nil => cases q <;> rfl
  | cons b bs ih => exact ih (moveBucket cc b)

theorem queue_softint (cc : CalloutCpu) (q : Option Nat) : queue (askSoftint cc) q = queue cc q := by
  unfold askSoftint
  split
  · rfl
  · cases q <;> rfl

theorem hardclock_moves (cc : CalloutCpu) (n : Nat) :
    hardclockAt cc n = askSoftint ((moves (int n)).foldl moveBucket {cc with ccTicks := n}) := by
  rw [hardclockAt,moveDue_moves]

theorem hardclock_queue (cc : CalloutCpu) (n : Nat) (q : Option Nat) :
    queue (hardclockAt cc n) q = queue ((moves (int n)).foldl moveBucket cc) q := by
  rw [hardclock_moves,queue_softint,moveAll_ticks]
end NetbsdAvr32.Callout
