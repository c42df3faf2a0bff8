import NetbsdAvr32.Pipe

-- Who has the long-term lock, and whose window pipe_map describes.
namespace NetbsdAvr32.Pipe
open RingBuffer Option Function List
variable {T : Type} [DecidableEq T]

structure Core (T : Type) where
  lockfl : Bool
  directw : Bool
  directr : Bool
  map : Mapping T
  copied : T → Nat
  pc : T → Pc

def Pipe.core (s : Pipe T) : Core T := ⟨s.lockfl,s.directw,s.directr,s.map,s.copied,s.pc⟩

-- The bytes a reader is taking from the window, and the writer whose window can be read.
def Pc.reads : Pc → Option Nat
  | .readDirect _ size _ => some size
  | .readDirected _ bytes => some bytes.length
  | _ => none

def Pc.given : Pc → Bool
  | .directOffer .. => true
  | .directRelock .. => true
  | _ => false

def Inside (c : Core T) (t : T) : Pc → Prop
  | .directSetup _ => c.map.cnt = 0 ∧ c.directw = false ∧ c.directr = false
  | .directLoan _ => c.map.cnt = 0 ∧ c.directw = false ∧ c.directr = false
  | .directPublish _ n => c.map.cnt + c.copied t = n ∧ c.map.pgs = some t ∧ c.directw = false ∧ c.directr = false
  | .directDrain _ n => c.map.cnt + c.copied t = n ∧ c.map.pgs = some t ∧ c.directw = true ∧ c.directr = false
  | .directOffer _ n => c.map.cnt + c.copied t = n ∧ c.map.pgs = some t ∧ c.directw = true
  | .directRelock _ n _ => c.map.cnt + c.copied t = n ∧ c.map.pgs = some t ∧ c.directw = false ∧ c.directr = false
  | .directCleanup _ n _ => c.map.cnt + c.copied t = n ∧ c.map.pgs = some t ∧ c.directw = false ∧ c.directr = false
  | .directFinish _ n _ => c.map.cnt + c.copied t = n ∧ c.directw = false ∧ c.directr = false
  | _ => False

def Here (c : Core T) : Option T → Prop
  | none => c.map.cnt = 0 ∧ c.directw = false ∧ c.directr = false
  | some t => Inside c t (c.pc t)

structure Conf (c : Core T) (holder director : Option T) : Prop where
  hold : ∀ t,(c.pc t).holds = true ↔ holder = some t
  dir : ∀ t,(c.pc t).direct = true ↔ director = some t
  lock : c.lockfl = holder.isSome
  here : Here c director
  reading : ∀ t n,(c.pc t).reads = some n → ∃ u,director = some u ∧ (c.pc u).given = true ∧ n ≤ c.map.cnt
  fine : ∀ t,(c.pc t).panics = false

structure Mid (c : Core T) (t : T) (director : Option T) : Prop where
  locked : c.lockfl = true
  alone : ∀ u,u ≠ t → (c.pc u).holds = false
  other : director ≠ some t
  dir : ∀ u,u ≠ t → ((c.pc u).direct = true ↔ director = some u)
  here : Here c director
  fine : ∀ u,u ≠ t → (c.pc u).panics = false

variable {s : Pipe T} {c : Core T} {t u : T} {h d : Option T} {p : Pc} {r : Read} {w : Write}

theorem holds_of_reads {n : Nat} (reads : p.reads = some n) : p.holds = true := by
  cases p <;> first | rfl | cases reads

def Core.goto (c : Core T) (t : T) (p : Pc) : Core T := { c with pc := Function.update c.pc t p }
theorem core_self (c : Core T) (t : T) (p : Pc) : (c.goto t p).pc t = p := update_self ..
theorem core_other (c : Core T) (p : Pc) (ne : u ≠ t) : (c.goto t p).pc u = c.pc u := update_of_ne ne ..

theorem here_goto (here : Here c d) (ne : d ≠ some t) : Here (c.goto t p) d := by
  cases d with
  | none => exact here
  | some u =>
    have other : u ≠ t := fun same => ne (congrArg some same)
    show Inside (c.goto t p) u ((c.goto t p).pc u)
    rw [core_other c p other]
    have inside : Inside c u (c.pc u) := here
    revert inside
    cases c.pc u <;> exact id

variable {q : Pc} {error : Bool} {v : Iovec}

theorem Conf.acquire (conf : Conf c h d) (at_ : c.pc t = q) (free : c.lockfl = false) (outside : q.direct = false) :
    Mid { c with lockfl := true } t d where
  locked := rfl
  alone u _ := by
    rw [← Bool.not_eq_true,conf.hold u]
    intro mine
    have := conf.lock
    rw [free,mine] at this
    cases this
  other same := by
    have := (conf.dir t).mpr same
    rw [at_,outside] at this
    cases this
  dir u _ := conf.dir u
  here := by
    have here := conf.here
    cases d with
    | none => exact here
    | some u =>
      have inside : Inside c u (c.pc u) := here
      show Inside _ u (c.pc u)
      revert inside
      cases c.pc u <;> exact id
  fine u _ := conf.fine u

theorem Conf.go_on (conf : Conf c h d) (at_ : c.pc t = q) (holds : q.holds = true) (outside : q.direct = false) : Mid c t d where
  locked := by
    rw [conf.lock,(conf.hold t).mp (at_ ▸ holds)]
    rfl
  alone u ne := by
    rw [← Bool.not_eq_true,conf.hold u,(conf.hold t).mp (at_ ▸ holds)]
    exact fun same => ne (some.inj same).symm
  other same := by
    have := (conf.dir t).mpr same
    rw [at_,outside] at this
    cases this
  dir u _ := conf.dir u
  here := conf.here
  fine u _ := conf.fine u

theorem Mid.unread (mid : Mid c t d) (ne : u ≠ t) : (c.pc u).reads = none := by
  cases reads : (c.pc u).reads with
  | none => rfl
  | some n =>
    have := mid.alone u ne
    rw [holds_of_reads reads] at this
    cases this

theorem Mid.keep (mid : Mid c t d) (holds : p.holds = true) (outside : p.direct = false) (fine : p.panics = false)
    (reads : ∀ n,p.reads = some n → ∃ u,d = some u ∧ (c.pc u).given = true ∧ n ≤ c.map.cnt) : Conf (c.goto t p) (some t) d where
  hold u := by
    by_cases same : u = t
    · rw [same,core_self]
      exact ⟨fun _ => rfl,fun _ => holds⟩
    rw [core_other c p same,mid.alone u same]
    exact ⟨fun none_ => (nomatch none_),fun other => absurd (some.inj other).symm same⟩
  dir u := by
    by_cases same : u = t
    · rw [same,core_self,outside]
      exact ⟨fun none_ => (nomatch none_),fun other => absurd other mid.other⟩
    rw [core_other c p same]
    exact mid.dir u same
  lock := mid.locked
  here := here_goto mid.here mid.other
  reading u n taking := by
    by_cases same : u = t
    · rw [same,core_self] at taking
      obtain ⟨v,director,given,few⟩ := reads n taking
      have ne : v ≠ t := fun same => mid.other (same ▸ director)
      exact ⟨v,director,by rw [core_other c p ne]; exact given,few⟩
    rw [core_other c p same,mid.unread same] at taking
    cases taking
  fine u := by
    by_cases same : u = t
    · rw [same,core_self]
      exact fine
    rw [core_other c p same]
    exact mid.fine u same

theorem Mid.free (mid : Mid c t d) (holds : p.holds = false) (outside : p.direct = false) (fine : p.panics = false) :
    Conf ({ c with lockfl := false }.goto t p) none d where
  hold u := by
    by_cases same : u = t
    · rw [same,core_self,holds]
      exact ⟨fun none_ => (nomatch none_),fun none_ => (nomatch none_)⟩
    rw [core_other _ p same,show ({ c with lockfl := false } : Core T).pc u = c.pc u from rfl,mid.alone u same]
    exact ⟨fun none_ => (nomatch none_),fun none_ => (nomatch none_)⟩
  dir u := by
    by_cases same : u = t
    · rw [same,core_self,outside]
      exact ⟨fun none_ => (nomatch none_),fun other => absurd other mid.other⟩
    rw [core_other _ p same]
    exact mid.dir u same
  lock := rfl
  here := by
    have here : Here { c with lockfl := false } d := by
      cases d with
      | none => exact mid.here
      | some u =>
        have inside : Inside c u (c.pc u) := mid.here
        show Inside _ u (c.pc u)
        revert inside
        cases c.pc u <;> exact id
    exact here_goto here mid.other
  reading u n taking := by
    by_cases same : u = t
    · rw [same,core_self] at taking
      rw [holds_of_reads taking] at holds
      cases holds
    rw [core_other _ p same,show ({ c with lockfl := false } : Core T).pc u = c.pc u from rfl,mid.unread same] at taking
    cases taking
  fine u := by
    by_cases same : u = t
    · rw [same,core_self]
      exact fine
    rw [core_other _ p same]
    exact mid.fine u same

theorem Mid.setup (mid : Mid c t none) (w : Write) : Conf (c.goto t (.directSetup w)) (some t) (some t) where
  hold u := by
    by_cases same : u = t
    · rw [same,core_self]
      exact ⟨fun _ => rfl,fun _ => rfl⟩
    rw [core_other c _ same,mid.alone u same]
    exact ⟨fun none_ => (nomatch none_),fun other => absurd (some.inj other).symm same⟩
  dir u := by
    by_cases same : u = t
    · rw [same,core_self]
      exact ⟨fun _ => rfl,fun _ => rfl⟩
    rw [core_other c _ same,mid.dir u same]
    exact ⟨fun none_ => (nomatch none_),fun other => absurd (some.inj other).symm same⟩
  lock := mid.locked
  here := by
    show Inside _ t ((c.goto t _).pc t)
    rw [core_self]
    exact mid.here
  reading u n taking := by
    by_cases same : u = t
    · rw [same,core_self] at taking
      cases taking
    rw [core_other c _ same,mid.unread same] at taking
    cases taking
  fine u := by
    by_cases same : u = t
    · rw [same,core_self]
      rfl
    rw [core_other c _ same]
    exact mid.fine u same

section
variable (mid : Mid s.core t d)
include mid

end

theorem Mid.nobody (mid : Mid c t d) (idle : c.directw = false) (calm : ∀ u,(c.pc u).relocks = false) : d = none := by
  cases d with
  | none => rfl
  | some u =>
    have ne : u ≠ t := fun same => mid.other (congrArg some same)
    have alone := mid.alone u ne
    have inside : Inside c u (c.pc u) := mid.here
    have quiet := calm u
    cases at_ : c.pc u with
    | directDrain w n =>
      rw [at_] at inside
      exact Bool.noConfusion (idle.symm.trans inside.2.2.1)
    | directOffer w n =>
      rw [at_] at inside
      exact Bool.noConfusion (idle.symm.trans inside.2.2)
    | directRelock w n error =>
      rw [at_] at quiet
      cases quiet
    | directSetup | directLoan | directPublish | directCleanup | directFinish =>
      rw [at_] at alone
      cases alone
    | _ =>
      rw [at_] at inside
      exact inside.elim

theorem unread_of_direct (direct : p.direct = true) : p.reads = none := by
  cases p <;> first | rfl | cases direct

theorem fine_of_direct (direct : p.direct = true) : p.panics = false := by
  cases p <;> first | rfl | cases direct

theorem Conf.inside {c' : Core T} {h' : Option T} (conf : Conf c h (some t)) (pcs : c'.pc = update c.pc t p) (direct : p.direct = true)
    (holder : ∀ u,u ≠ t → (h' = some u ↔ h = some u)) (mine : p.holds = true ↔ h' = some t) (lock : c'.lockfl = h'.isSome)
    (inside : Inside c' t p) (reads : ∀ u n,u ≠ t → (c.pc u).reads = some n → p.given = true ∧ n ≤ c'.map.cnt) : Conf c' h' (some t) := by
  have self : c'.pc t = p := by
    rw [pcs]
    exact update_self ..
  have other {u : T} (ne : u ≠ t) : c'.pc u = c.pc u := by
    rw [pcs]
    exact update_of_ne ne ..
  constructor
  · intro u
    by_cases same : u = t
    · rw [same,self]
      exact mine
    rw [other same,holder u same]
    exact conf.hold u
  · intro u
    by_cases same : u = t
    · rw [same,self]
      exact ⟨fun _ => rfl,fun _ => direct⟩
    rw [other same]
    exact conf.dir u
  · exact lock
  · show Inside c' t (c'.pc t)
    rw [self]
    exact inside
  · intro u n taking
    by_cases same : u = t
    · rw [same,self,unread_of_direct direct] at taking
      cases taking
    rw [other same] at taking
    obtain ⟨given,few⟩ := reads u n same taking
    exact ⟨t,rfl,by rw [self]; exact given,few⟩
  intro u
  by_cases same : u = t
  · rw [same,self]
    exact fine_of_direct direct
  rw [other same]
  exact conf.fine u

section
variable (conf : Conf c h d)
include conf

theorem Conf.holder_of (holds : (c.pc t).holds = true) : h = some t := (conf.hold t).mp holds
theorem Conf.director_of (direct : (c.pc t).direct = true) : d = some t := (conf.dir t).mp direct

theorem Conf.unread {n : Nat} (only : h = none ∨ h = some t) (ne : u ≠ t) : (c.pc u).reads ≠ some n := by
  intro reads
  have holder := conf.holder_of (holds_of_reads reads)
  rcases only with none_ | mine
  · rw [none_] at holder
    cases holder
  rw [mine] at holder
  exact ne (some.inj holder).symm

theorem Conf.outside (direct : (c.pc t).direct = true) (holds : (c.pc t).holds = true) (map : Mapping T)
    (clear : map.cnt = 0) (idle : c.directw = false) (unread : c.directr = false) : Mid { c with map := map } t none where
  locked := by
    rw [show ({ c with map := map } : Core T).lockfl = c.lockfl from rfl,conf.lock,conf.holder_of holds]
    rfl
  alone u ne := by
    rw [← Bool.not_eq_true]
    intro other
    have := conf.holder_of (t := u) other
    rw [conf.holder_of holds] at this
    exact ne (some.inj this).symm
  other := nofun
  dir u ne := by
    refine ⟨fun other => ?_,fun none_ => (nomatch none_)⟩
    have := conf.director_of (t := u) other
    rw [conf.director_of direct] at this
    exact absurd (some.inj this).symm ne
  here := ⟨clear,idle,unread⟩
  fine u _ := conf.fine u

theorem Conf.at_inside (at_ : c.pc t = p) (direct : p.direct = true) : d = some t ∧ Inside c t p := by
  have mine := conf.director_of (t := t) (at_ ▸ direct)
  subst mine
  have inside : Inside c t (c.pc t) := conf.here
  exact ⟨rfl,at_ ▸ inside⟩
end

theorem Conf.take {n : Nat} (conf : Conf s.core h d) (at_ : s.pc t = p) (reads : p.reads = some n) (outside : p.direct = false) :
    Mid (directTaken s n).core t d := by
  obtain ⟨u,director,given,few⟩ := conf.reading t n ((congrArg Pc.reads at_).trans reads)
  subst director
  have mid := conf.go_on at_ (holds_of_reads reads) outside
  have inside : Inside s.core u (s.pc u) := conf.here
  refine ⟨mid.locked,mid.alone,mid.other,mid.dir,?_,mid.fine⟩
  show Inside (directTaken s n).core u (s.pc u)
  have given : (s.pc u).given = true := given
  have count {m : Nat} (total : s.map.cnt + s.copied u = m) (mine : s.map.pgs = some u) :
      s.map.cnt - n + (if s.map.pgs = some u then s.copied u + n else s.copied u) = m := by
    have few : n ≤ s.map.cnt := few
    rw [if_pos mine]
    omega
  cases at_ : s.pc u with
  | directOffer w m =>
    rw [at_] at inside
    exact ⟨count inside.1 inside.2.1,inside.2⟩
  | directRelock w m error =>
    rw [at_] at inside
    refine ⟨count inside.1 inside.2.1,inside.2.1,inside.2.2.1,?_⟩
    have unread : s.directr = false := inside.2.2.2
    show (if s.map.cnt - n = 0 then false else s.directr) = false
    rw [unread]
    split <;> rfl
  | _ =>
    rw [at_] at given
    cases given

section
variable (conf : Conf s.core h d)
include conf

end

-- Runs with signals: pipe_map has one owner as long as nobody starts a direct write while an interrupted one waits.
variable {s' : Pipe T} {n : Nat}

def Act (s : Pipe T) (t : T) (s' : Pipe T) : Prop := Step s t s' ∨ Fault s t s'

inductive Reachable : Pipe T → Prop where
  | init : Reachable Pipe.init
  | act {s s' : Pipe T} {t : T} : Reachable s → Act s t s' → Reachable s'

-- The step does not call pipe_direct_write while an interrupted direct writer waits for the long-term lock.
def Calm (s : Pipe T) (t : T) (s' : Pipe T) : Prop := (s'.pc t).calls = true → ∀ u,(s.pc u).relocks = false

inductive CalmReachable : Pipe T → Prop where
  | init : CalmReachable Pipe.init
  | act {s s' : Pipe T} {t : T} : CalmReachable s → Act s t s' → Calm s t s' → CalmReachable s'

def Pc.writes : Pc → Bool
  | .writeEnter _ => true
  | .writeWait _ => true
  | .writeQuit _ => true
  | .writeCopy .. => true
  | .writeCopied .. => true
  | .directFallback _ => true
  | p => p.direct

-- The KASSERT holds, no other writer changes pipe_map under a window, and an interrupted writer deducts what was copied.
structure Owned (s : Pipe T) : Prop where
  entry : ∀ t,s.pc t ≠ .panicDirect
  others : ∀ t u s',Act s u s' → u ≠ t → (s.pc t).window = true → (s.pc u).writes = true → s'.map = s.map
  deducts : ∀ t w n,s.pc t = .directFinish w n true → deducted s n true = s.copied t

theorem bufferedWrite_map (s : Pipe T) (t : T) (w : Write) : (bufferedWrite s t w).map = s.map := by
  unfold bufferedWrite
  repeat' split
  all_goals rfl

theorem writeLoop_map (s : Pipe T) (t : T) (w : Write) (room : Bool) : (writeLoop s t w room).map = s.map := by
  unfold writeLoop
  split
  · rfl
  split
  · rfl
  split
  · split <;> rfl
  · exact bufferedWrite_map s t w

theorem act_map (act : Act s t s') (writes : (s.pc t).writes = true) (outside : (s.pc t).direct = false) : s'.map = s.map := by
  have away {p : Pc} (at_ : s.pc t = p) : p.writes = true ∧ p.direct = false := ⟨at_ ▸ writes,at_ ▸ outside⟩
  rcases act with step | fault
  · cases step with
    | write uio nonblock at_ => rfl
    | @writeLock w big room at_ _ =>
      rw [writeLoop_map]
      unfold resize
      split <;> rfl
    | writeRelock room at_ _ => exact writeLoop_map ..
    | writeQuit at_ _ => rfl
    | writeCopy at_ => rfl
    | writePut room at_ => exact writeLoop_map ..
    | directFallback at_ => exact bufferedWrite_map ..
    | read _ _ at_ | readLock at_ _ | readCopy at_ | readTake at_ | readDirect at_ | readDirectTake at_ => exact nomatch (away at_).1
    | directAlloc at_ | directNoKva at_ _ | directLoan at_ | directNoLoan at_ | directPublish at_ | directDrain at_ _ | directDone at_ _
    | directRelock at_ _ | directCleanup _ at_ | directFinish _ at_ => exact nomatch (away at_).2
  cases fault with
  | readIntr at_ | readFault at_ | readDirectFault at_ => exact nomatch (away at_).1
  | writeIntrEnter at_ => rfl
  | writeIntr at_ => rfl
  | writeFault at_ _ => rfl
  | drainIntr at_ | offerIntr at_ => exact nomatch (away at_).2

theorem direct_of_window {p : Pc} (window : p.window = true) : p.direct = true := by
  cases p <;> first | rfl | cases window

theorem Conf.owned (conf : Conf s.core h d) : Owned s where
  entry t at_ := by
    have fine := conf.fine t
    rw [show s.core.pc t = .panicDirect from at_] at fine
    cases fine
  others t u s' act ne window writes := by
    refine act_map act writes ?_
    rw [← Bool.not_eq_true]
    intro direct
    have mine := conf.director_of (t := t) (direct_of_window window)
    rw [conf.director_of (t := u) direct] at mine
    exact ne (some.inj mine)
  deducts t w n at_ := by
    obtain ⟨-,count,-⟩ := conf.at_inside (t := t) at_ rfl
    have count : s.map.cnt + s.copied t = n := count
    simp only [deducted,if_true]
    split <;> omega

section
variable (large : PIPE_MINDIRECT ≤ v.bytes.length)
include large

end

theorem CalmReachable.quiet (run : CalmReachable s) (act : Act s t s') (quiet : (s'.pc t).calls = false) : CalmReachable s' :=
  run.act act fun calls => Bool.noConfusion (quiet.symm.trans calls)

end NetbsdAvr32.Pipe
