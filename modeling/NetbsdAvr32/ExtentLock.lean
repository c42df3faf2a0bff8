import NetbsdAvr32.ExtentSub

-- What a call that may wait does with ex_lock, over the wake-ups it gets.
namespace NetbsdAvr32.Extent

inductive LockOp where
  | mutexEnter
  | mutexExit
  | cvWait
  | freeDescriptor
  deriving DecidableEq, Repr

-- Whether the thread holds ex_lock afterwards, and `none` where it may not do
-- this. cv_wait and cv_wait_sig return with the lock held.
def LockOp.act (held : Bool) : LockOp → Option Bool
  | .mutexEnter => if held then none else some true
  | .mutexExit => if held then some false else none
  | .cvWait => if held then some true else none
  | .freeDescriptor => if held then some true else none

def track (held : Bool) (ops : List LockOp) : Option Bool := ops.foldlM LockOp.act held

-- The answer of cv_wait_sig, and the extent as the thread finds it.
structure Wakeup where
  error : Option Errno
  extent : State

-- cv_wait has no answer.
def waitError (catching : Bool) (w : Wakeup) : Option Errno := if catching then w.error else none

-- What extent_alloc_region_descriptor meets: its flags, the answers while it
-- waits with whether the freelist has a descriptor then, and pool_get's answer.
structure Supply where
  kmemIsRunning : Bool
  mallocok : Bool
  waitok : Bool
  fixed : Bool
  spare : Bool
  later : List (Option Errno × Bool)
  poolGet : Bool

def descriptorLoop (mallocok waitok catching poolGet : Bool) : Bool → List (Option Errno × Bool) → List LockOp × Option Bool
  | true, _ => ([.mutexExit],some true)
  | false, [] =>
    if mallocok then ([.mutexExit],some poolGet)
    else if waitok = false then ([.mutexExit],some false)
    else ([.cvWait],none)
  | false, (error,spare) :: later =>
    if mallocok then ([.mutexExit],some poolGet)
    else if waitok = false then ([.mutexExit],some false)
    else if catching ∧ error ≠ none then ([.cvWait,.mutexExit],some false)
    else
      let (ops,got) := descriptorLoop mallocok waitok catching poolGet spare later
      (.cvWait :: ops,got)

-- The answer is whether there is a descriptor, and `none` for a thread that
-- still waits.
def extentAllocRegionDescriptor (x : Supply) (catching : Bool) : List LockOp × Option Bool :=
  if x.fixed then
    let (ops,got) := descriptorLoop (x.mallocok && x.kmemIsRunning) x.waitok catching x.poolGet x.spare x.later
    ([.mutexEnter,.mutexExit,.mutexEnter] ++ ops,got)
  else ([.mutexEnter,.mutexExit],some x.poolGet)

-- How often extent_insert_and_optimize calls extent_free_region_descriptor.
def insertFrees (noCoalesce : Bool) (start size : Nat) : List Region → List Region → Nat
  | [], [] => 0
  | [], first :: _ => if noCoalesce = false ∧ word (start + size) = first.erStart then 1 else 0
  | after :: _, behind =>
    if noCoalesce then 0
    else
      let appended := decide (word (after.erEnd + 1) = start)
      match behind with
      | next :: _ =>
        if word (start + size) = next.erStart then bif appended then 2 else 1
        else bif appended then 1 else 0
      | [] => bif appended then 1 else 0

def insertOps (s : State) (start size : Nat) (c : Cursor) : List LockOp :=
  List.replicate (insertFrees s.exNoCoalesce start size c.1 c.2) .freeDescriptor ++ [.mutexExit]

-- extent_alloc_region from `alloc_start` on, over the wake-ups.
def regionLoop (start size : Nat) (flags : Flags) (s : State) (wakeups : List Wakeup) : List LockOp × Reply :=
  match findPlace start (word (start + less size 1)) [] s.exRegions with
  | some place => (insertOps s start size place,.returned none)
  | none =>
    if flags.waitspace then
      match wakeups with
      | [] => ([.cvWait],.asleep)
      | w :: rest =>
        match waitError flags.catching w with
        | some error => ([.cvWait,.mutexExit,.freeDescriptor],.returned (some error))
        | none =>
          let (ops,reply) := regionLoop start size flags w.extent rest
          (.cvWait :: ops,reply)
    else ([.mutexExit,.freeDescriptor],.returned (some .eagain))

def regionLocks (diagnostic : Bool) (start size : Nat) (flags : Flags) (x : Supply) (s : State) (wakeups : List Wakeup) : List LockOp × Reply :=
  let fin := word (start + less size 1)
  if diagnostic ∧ size < 1 then ([],.panic "extent_alloc_region: bad size")
  else if diagnostic ∧ fin < start then ([],.panic "extent_alloc_region: overflow")
  else if start < s.exStart ∨ fin > s.exEnd then
    if diagnostic then ([],.panic "extent_alloc_region: region lies outside extent")
    else ([],.returned (some .einval))
  else match extentAllocRegionDescriptor x flags.catching with
    | (ops,none) => (ops,.asleep)
    | (ops,some false) => (ops,.returned (some .enomem))
    | (ops,some true) =>
      let (more,reply) := regionLoop start size flags s wakeups
      (ops ++ .mutexEnter :: more,reply)

-- extent_alloc_subregion1 from `alloc_start` on, which is in front of its
-- mutex_enter.
def subregionLoop (diagnostic catching : Bool) (a : Sub) (s : State) (wakeups : List Wakeup) : List LockOp × Reply :=
  if EXTENT_ALIGN a.substart a.alignment a.skew < s.exStart then
    if diagnostic then ([.mutexEnter,.mutexExit],.panic "extent_alloc_subregion: overflow after alignment")
    else ([.mutexEnter,.freeDescriptor,.mutexExit],.returned (some .einval))
  else match findGap s a (EXTENT_ALIGN a.substart a.alignment a.skew) with
    | some (start,place) => (.mutexEnter :: insertOps s start a.size place,.returned none)
    | none =>
      if a.flags.waitspace then
        match wakeups with
        | [] => ([.mutexEnter,.cvWait],.asleep)
        | w :: rest =>
          match waitError catching w with
          | some error => ([.mutexEnter,.cvWait,.mutexExit,.freeDescriptor],.returned (some error))
          | none =>
            let (ops,reply) := subregionLoop diagnostic catching a w.extent rest
            (.mutexEnter :: .cvWait :: ops,reply)
      else ([.mutexEnter,.mutexExit,.freeDescriptor],.returned (some .eagain))

def subregionLocks (diagnostic catching : Bool) (a : Sub) (x : Supply) (s : State) (wakeups : List Wakeup) : List LockOp × Reply :=
  match if diagnostic then checkArguments s a else none with
  | some text => ([],.panic text)
  | none =>
    match extentAllocRegionDescriptor x catching with
    | (ops,none) => (ops,.asleep)
    | (ops,some false) => (ops,.returned (some .enomem))
    | (ops,some true) =>
      let (more,reply) := subregionLoop diagnostic catching a s wakeups
      (ops ++ more,reply)

variable {s : State} {a : Sub} {start size : Nat} {flags : Flags} {x : Supply} {held diagnostic catching : Bool} {w : Wakeup} {rest wakeups : List Wakeup}
  {op : LockOp} {ops : List LockOp} {run : List LockOp × Reply} {reply : Reply}

@[simp] theorem track_nil : track held [] = some held := rfl
@[simp] theorem track_cons : track held (op :: ops) = (op.act held).bind fun now => track now ops := rfl

theorem track_append (first : List LockOp) : track held (first ++ ops) = (track held first).bind fun now => track now ops := by
  unfold track
  rw [List.foldlM_append]
  rfl

def Kept (held : Bool) (run : List LockOp × Reply) : Prop :=
  ∃ now, track held run.1 = some now ∧ ∀ error, run.2 = .returned error → now = false

def Disciplined (run : List LockOp × Reply) : Prop := Kept false run

theorem Kept.cons {now : Bool} (acts : op.act held = some now) : Kept held (op :: ops,reply) ↔ Kept now (ops,reply) := by
  unfold Kept
  rw [track_cons,acts]
  rfl

theorem Kept.append {first : List LockOp} {now : Bool} (acts : track held first = some now) : Kept held (first ++ ops,reply) ↔ Kept now (ops,reply) := by
  unfold Kept
  rw [track_append,acts]
  rfl

theorem not_kept_late (before : List LockOp) (acts : track held before = some true) : ¬Kept held (before ++ [.mutexExit,.freeDescriptor],reply) := by
  rw [Kept.append acts]
  rintro ⟨now,fails,-⟩
  cases fails

theorem insertOps_track (s : State) (start size : Nat) (c : Cursor) : track true (insertOps s start size c) = some false := by
  unfold insertOps
  generalize insertFrees s.exNoCoalesce start size c.1 c.2 = n
  induction n with
  | zero => rfl
  | succ n ih => exact ih

theorem descriptorLoop_track (mallocok waitok catching poolGet : Bool) : ∀ (later : List (Option Errno × Bool)) (spare : Bool),
    track true (descriptorLoop mallocok waitok catching poolGet spare later).1 =
      some (descriptorLoop mallocok waitok catching poolGet spare later).2.isNone := by
  intro later
  induction later with
  | nil =>
    intro spare
    cases spare with
    | true => rfl
    | false =>
      unfold descriptorLoop
      split_ifs <;> rfl
  | cons first later ih =>
    intro spare
    cases spare with
    | true => rfl
    | false =>
      unfold descriptorLoop
      split_ifs
      · rfl
      · rfl
      · rfl
      · exact ih first.2

theorem descriptor_track (x : Supply) (catching : Bool) :
    track false (extentAllocRegionDescriptor x catching).1 = some (extentAllocRegionDescriptor x catching).2.isNone := by
  unfold extentAllocRegionDescriptor
  split_ifs
  · exact descriptorLoop_track ..
  · rfl

def Conflicts (start size : Nat) (s : State) : Prop := findPlace start (word (start + less size 1)) [] s.exRegions = none

def Quiet (start size : Nat) (flags : Flags) (s : State) (wakeups : List Wakeup) : Prop :=
  Conflicts start size s → flags.waitspace = true ∧ ∀ front w rest, wakeups = front ++ w :: rest →
    (∀ v ∈ front, waitError flags.catching v = none ∧ Conflicts start size v.extent) → waitError flags.catching w = none

theorem quiet_cons : Quiet start size flags s (w :: rest) ↔
    (Conflicts start size s → flags.waitspace = true ∧ waitError flags.catching w = none ∧ Quiet start size flags w.extent rest) := by
  constructor
  · intro quiet conflicts
    obtain ⟨waits,calm⟩ := quiet conflicts
    refine ⟨waits,calm [] w rest rfl fun _ none => absurd none List.not_mem_nil,fun again => ⟨waits,fun front v tail split earlier => ?_⟩⟩
    have first := calm [] w rest rfl fun _ none => absurd none List.not_mem_nil
    exact calm (w :: front) v tail (by rw [split]; rfl) (List.forall_mem_cons.mpr ⟨⟨first,again⟩,earlier⟩)
  intro calm conflicts
  obtain ⟨waits,first,quiet⟩ := calm conflicts
  refine ⟨waits,fun front v tail split earlier => ?_⟩
  cases front with
  | nil =>
    cases split
    exact first
  | cons u front =>
    cases split
    obtain ⟨⟨_,again⟩,later⟩ := List.forall_mem_cons.mp earlier
    exact (quiet again).2 front v tail rfl later

theorem regionLoop_kept : ∀ (wakeups : List Wakeup) (s : State), Kept true (regionLoop start size flags s wakeups) ↔ Quiet start size flags s wakeups := by
  intro wakeups
  induction wakeups with
  | nil =>
    intro s
    unfold regionLoop
    cases found : findPlace start (word (start + less size 1)) [] s.exRegions with
    | some place =>
      have free : ¬Conflicts start size s := by simp [Conflicts,found]
      exact ⟨fun _ conflicts => absurd conflicts free,fun _ => ⟨false,insertOps_track ..,fun _ _ => rfl⟩⟩
    | none =>
      split_ifs with waits
      · exact ⟨fun _ _ => ⟨waits,fun front w rest none => by simp at none⟩,fun _ => ⟨true,rfl,nofun⟩⟩
      · exact ⟨fun kept => absurd kept (not_kept_late [] rfl),fun quiet => absurd (quiet found).1 waits⟩
  | cons w rest ih =>
    intro s
    rw [quiet_cons]
    unfold regionLoop
    cases found : findPlace start (word (start + less size 1)) [] s.exRegions with
    | some place =>
      have free : ¬Conflicts start size s := by simp [Conflicts,found]
      exact ⟨fun _ conflicts => absurd conflicts free,fun _ => ⟨false,insertOps_track ..,fun _ _ => rfl⟩⟩
    | none =>
      dsimp only
      split_ifs with waits
      · cases answer : waitError flags.catching w with
        | some error =>
          refine ⟨fun kept => absurd kept (not_kept_late [.cvWait] rfl),fun quiet => ?_⟩
          cases (quiet found).2.1
        | none =>
          rw [Kept.cons rfl,ih]
          exact ⟨fun quiet _ => ⟨waits,rfl,quiet⟩,fun quiet => (quiet found).2.2⟩
      · exact ⟨fun kept => absurd kept (not_kept_late [] rfl),fun quiet => absurd (quiet found).1 waits⟩

structure RegionStarts (diagnostic : Bool) (start size : Nat) (catching : Bool) (x : Supply) (s : State) : Prop where
  order : diagnostic = true → 1 ≤ size ∧ start ≤ word (start + less size 1)
  low : s.exStart ≤ start
  high : word (start + less size 1) ≤ s.exEnd
  got : (extentAllocRegionDescriptor x catching).2 = some true

theorem regionLocks_disciplined : Disciplined (regionLocks diagnostic start size flags x s wakeups) ↔
    (RegionStarts diagnostic start size flags.catching x s → Quiet start size flags s wakeups) := by
  have none (reply : Reply) : Disciplined ([],reply) := ⟨false,rfl,fun _ _ => rfl⟩
  have before := descriptor_track x flags.catching
  unfold regionLocks
  dsimp only
  split_ifs with bad wraps outside diag
  · exact iff_of_true (none _) fun starts => absurd (starts.order bad.1).1 (by omega)
  · exact iff_of_true (none _) fun starts => absurd (starts.order wraps.1).2 (by omega)
  · exact iff_of_true (none _) fun starts => absurd outside (by have := starts.low; have := starts.high; omega)
  · exact iff_of_true (none _) fun starts => absurd outside (by have := starts.low; have := starts.high; omega)
  obtain ⟨⟨ops,got⟩,supplied⟩ : ∃ answer, extentAllocRegionDescriptor x flags.catching = answer := ⟨_,rfl⟩
  rw [supplied] at before
  have starts : RegionStarts diagnostic start size flags.catching x s ↔ got = some true := by
    constructor
    · intro starts
      have := starts.got
      rwa [supplied] at this
    rintro rfl
    exact ⟨fun diag => ⟨Nat.le_of_not_lt fun few => bad ⟨diag,few⟩,Nat.le_of_not_lt fun less => wraps ⟨diag,less⟩⟩,by omega,by omega,by rw [supplied]⟩
  rw [starts,supplied]
  match got with
  | Option.none => exact iff_of_true ⟨true,before,nofun⟩ fun none => by cases none
  | some false => exact iff_of_true ⟨false,before,fun _ _ => rfl⟩ fun none => by cases none
  | some true =>
    unfold Disciplined
    rw [Kept.append before,Kept.cons rfl]
    exact (regionLoop_kept wakeups s).trans (by simp)

-- The search on the state the call finds does not succeed, and it is not the
-- first address that is refused.
def Fails (a : Sub) (s : State) : Prop :=
  s.exStart ≤ EXTENT_ALIGN a.substart a.alignment a.skew ∧ findGap s a (EXTENT_ALIGN a.substart a.alignment a.skew) = none

theorem subregionLoop_enters (diagnostic catching : Bool) (a : Sub) (s : State) (wakeups : List Wakeup) :
    ∃ ops reply, subregionLoop diagnostic catching a s wakeups = (.mutexEnter :: ops,reply) := by
  unfold subregionLoop
  split_ifs
  · exact ⟨_,_,rfl⟩
  · exact ⟨_,_,rfl⟩
  · split
    · exact ⟨_,_,rfl⟩
    split
    · exact ⟨_,_,rfl⟩
    · split <;> exact ⟨_,_,rfl⟩
  · split <;> exact ⟨_,_,rfl⟩

theorem subregionLoop_kept : Kept false (subregionLoop diagnostic catching a s wakeups) ↔ (Fails a s → a.flags.waitspace = true ∧ wakeups = []) := by
  unfold subregionLoop
  by_cases under : EXTENT_ALIGN a.substart a.alignment a.skew < s.exStart
  · have free : ¬Fails a s := fun fails => absurd fails.1 (Nat.not_le.mpr under)
    split_ifs
    · exact iff_of_true ⟨false,rfl,fun _ _ => rfl⟩ fun fails => absurd fails free
    · exact iff_of_true ⟨false,rfl,fun _ _ => rfl⟩ fun fails => absurd fails free
  rw [if_neg under]
  cases found : findGap s a (EXTENT_ALIGN a.substart a.alignment a.skew) with
  | some place =>
    have free : ¬Fails a s := fun fails => by
      have := fails.2
      rw [found] at this
      cases this
    exact iff_of_true ⟨false,insertOps_track ..,fun _ _ => rfl⟩ fun fails => absurd fails free
  | none =>
    have fails : Fails a s := ⟨Nat.le_of_not_lt under,found⟩
    split_ifs with waits
    · match wakeups with
      | [] => exact iff_of_true ⟨true,rfl,nofun⟩ fun _ => ⟨waits,rfl⟩
      | w :: rest =>
        have some : ¬(Fails a s → a.flags.waitspace = true ∧ w :: rest = []) := fun none => by cases (none fails).2
        refine iff_of_false ?_ some
        dsimp only
        cases waitError catching w with
        | some error => exact not_kept_late [.mutexEnter,.cvWait] rfl
        | none =>
          -- The next round begins with mutex_enter, and the lock is held.
          obtain ⟨ops,reply,again⟩ := subregionLoop_enters diagnostic catching a w.extent rest
          rw [again]
          rintro ⟨now,fails,-⟩
          cases fails
    · exact iff_of_false (not_kept_late [.mutexEnter] rfl) fun quiet => waits (quiet fails).1

structure SubregionStarts (diagnostic catching : Bool) (a : Sub) (x : Supply) (s : State) : Prop where
  allowed : diagnostic = true → checkArguments s a = none
  got : (extentAllocRegionDescriptor x catching).2 = some true

theorem subregionLocks_disciplined : Disciplined (subregionLocks diagnostic catching a x s wakeups) ↔
    (SubregionStarts diagnostic catching a x s → Fails a s → a.flags.waitspace = true ∧ wakeups = []) := by
  have before := descriptor_track x catching
  unfold subregionLocks
  cases check : (if diagnostic then checkArguments s a else none) with
  | some text =>
    refine iff_of_true ⟨false,rfl,fun _ _ => rfl⟩ fun starts => ?_
    split_ifs at check with diag
    rw [starts.allowed diag] at check
    cases check
  | none =>
    have allowed : diagnostic = true → checkArguments s a = none := fun diag => by rwa [if_pos diag] at check
    obtain ⟨⟨ops,got⟩,supplied⟩ : ∃ answer, extentAllocRegionDescriptor x catching = answer := ⟨_,rfl⟩
    rw [supplied] at before
    have starts : SubregionStarts diagnostic catching a x s ↔ got = some true := by
      constructor
      · intro starts
        have := starts.got
        rwa [supplied] at this
      rintro rfl
      exact ⟨allowed,by rw [supplied]⟩
    rw [starts,supplied]
    match got with
    | Option.none => exact iff_of_true ⟨true,before,nofun⟩ fun none => by cases none
    | some false => exact iff_of_true ⟨false,before,fun _ _ => rfl⟩ fun none => by cases none
    | some true =>
      unfold Disciplined
      rw [Kept.append before]
      exact subregionLoop_kept.trans (by simp)

theorem lock_discipline_exact (diagnostic catching : Bool) (start size : Nat) (flags : Flags) (a : Sub) (x : Supply) (s : State) (wakeups : List Wakeup) :
    (Disciplined (regionLocks diagnostic start size flags x s wakeups) ↔
      (RegionStarts diagnostic start size flags.catching x s → Quiet start size flags s wakeups)) ∧
    (Disciplined (subregionLocks diagnostic catching a x s wakeups) ↔
      (SubregionStarts diagnostic catching a x s → Fails a s → a.flags.waitspace = true ∧ wakeups = [])) :=
  ⟨regionLocks_disciplined,subregionLocks_disciplined⟩

-- Everything is taken, the thread is woken up once and takes ex_lock again.
theorem lock_discipline_broken :
    ¬Disciplined (subregionLocks true false ⟨0,31,1,1,0,0,⟨true,false,true⟩⟩ ⟨true,false,true,false,false,[],true⟩
      {extentCreate 0 31 false with exRegions := [⟨0,31⟩]} [⟨none,extentCreate 0 31 false⟩]) := by
  rintro ⟨now,fails,-⟩
  cases fails
end NetbsdAvr32.Extent
