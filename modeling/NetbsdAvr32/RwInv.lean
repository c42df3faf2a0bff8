import NetbsdAvr32.RwSpec

-- What a thread remembers of the word stays true while the others move.
namespace NetbsdAvr32.Rwlock
open Function
variable {T : Type} [DecidableEq T]

def Rw.abs (s : Rw T) : Lock T := ⟨view s.rw_owner,s.chain,s.readers,s.writers,fun t => (s.pc t).hold,fun t => (s.pc t).coming⟩

-- What a thread knows of the word it read before it releases.
def Seen (cur : Word) (op : Krw) (word owner : Word) : Prop :=
  match op with
  | .reader => (view owner).locked = false ∧ 0 < (view owner).field ∧
      ((view owner).field = 1 → (view owner).waiters = true → (view word).field = 1 ∧ (view word).waiters = true)
  | .writer => (view owner).locked = true ∧ (view owner).field = (view cur).field ∧
      ((view owner).waiters = true → (view word).waiters = true)

def Ready (op : Krw) (word : Word) : Prop := (op = .reader → (view word).field = 1) ∧ (view word).waiters = true

def Local (cur word : Word) (readers writers : Nat) : Pc → Prop
  | .entering _ op (.mark owner) => owner &&& need_wait op ≠ 0
  | .woken given op _ => op = .reader → given = true
  | .exiting op (.check decr owner) => decr = incr cur op ∧ Seen cur op word owner
  | .exiting op (.top decr owner) => decr = incr cur op ∧ Seen cur op word owner
  | .exiting op (.lookup decr) => decr = incr cur op ∧ Ready op word
  | .exiting op (.locked decr) => decr = incr cur op ∧ Ready op word
  | .exiting op (.swap decr owner rcnt wcnt) => decr = incr cur op ∧ Ready op word ∧ word = owner ∧ rcnt = readers ∧ wcnt = writers
  | .downgrading (.cas owner) => (view owner).waiters = false ∧ (word = owner ∨ (view word).waiters = true)
  | .downgrading (.lookup _) => (view word).waiters = true
  | .downgrading (.wanted _ rcnt wcnt) => (view word).waiters = true ∧ rcnt = readers ∧ wcnt = writers ∧ wcnt ≠ 0
  | .downgrading (.waiters _ rcnt wcnt) => (view word).waiters = true ∧ rcnt = readers ∧ wcnt = writers
  | .downgrading (.locked _ rcnt wcnt) => (view word).waiters = true ∧ rcnt = readers ∧ wcnt = writers
  | .upgrading (.top owner) => (view owner).locked = false ∧ (view owner).field ≠ 0
  | .aborted => False
  | _ => True

variable {cur word word' owner : Word} {rcnt wcnt rcnt' wcnt' : Nat} {p : Pc} {op : Krw}

theorem Seen.now (cur word : Word) (op : Krw) (locked : (view word).locked = decide (op = .writer))
    (field : op = .writer → (view word).field = (view cur).field) (pos : 0 < (view word).field) : Seen cur op word word := by
  cases op with
  | reader => exact ⟨locked,pos,fun one waiters => ⟨one,waiters⟩⟩
  | writer => exact ⟨locked,field rfl,id⟩

theorem Local.keep (here : Local cur word rcnt wcnt p)
    (writer : p.hold = some .writer → word' = word ∨ (view word').waiters = true ∧ p.chained = false)
    (reader : p.hold = some .reader → (view word).field = 1 → (view word).waiters = true → word' = word)
    (queues : p.chained = true → rcnt' = rcnt ∧ wcnt' = wcnt) : Local cur word' rcnt' wcnt' p := by
  have seen {op : Krw} {owner : Word} (of : p.hold = some op) (seen : Seen cur op word owner) : Seen cur op word' owner := by
    cases op with
    | reader =>
      refine ⟨seen.1,seen.2.1,fun one waiters => ?_⟩
      have now := seen.2.2 one waiters
      rw [reader of now.1 now.2]
      exact now
    | writer =>
      refine ⟨seen.1,seen.2.1,fun waiters => ?_⟩
      rcases writer of with same | set
      · rw [same]
        exact seen.2.2 waiters
      · exact set.1
  have ready {op : Krw} (of : p.hold = some op) (ready : Ready op word) : Ready op word' := by
    cases op with
    | reader =>
      rw [Ready,reader of (ready.1 rfl) ready.2]
      exact ready
    | writer =>
      rcases writer of with same | set
      · rw [same]
        exact ready
      · exact ⟨fun other => (nomatch other),set.1⟩
  have waiting (of : p.hold = some .writer) (set : (view word).waiters = true) : (view word').waiters = true := by
    rcases writer of with same | set
    · rw [same]
      exact set
    · exact set.1
  cases p with
  | exiting op at_ =>
    cases at_ with
    | load => trivial
    | check decr owner | top decr owner => exact ⟨here.1,seen rfl here.2⟩
    | lookup decr | locked decr => exact ⟨here.1,ready rfl here.2⟩
    | swap decr owner r w =>
      obtain ⟨decr_,set,same,rfl,rfl⟩ := here
      have kept : word' = word := by
        cases op with
        | reader => exact reader rfl (set.1 rfl) set.2
        | writer =>
          rcases writer rfl with kept | other
          · exact kept
          · exact nomatch other.2
      have counts := queues rfl
      exact ⟨decr_,ready rfl set,kept.trans same,counts.1.symm,counts.2.symm⟩
  | downgrading at_ =>
    cases at_ with
    | cas owner =>
      refine ⟨here.1,?_⟩
      rcases writer rfl with kept | set
      · rw [kept]
        exact here.2
      · exact .inr set.1
    | lookup owner => exact waiting rfl here
    | wanted owner r w =>
      obtain ⟨set,rfl,rfl,some_⟩ := here
      exact ⟨waiting rfl set,(queues rfl).1.symm,(queues rfl).2.symm,some_⟩
    | waiters owner r w | locked owner r w =>
      obtain ⟨set,rfl,rfl⟩ := here
      exact ⟨waiting rfl set,(queues rfl).1.symm,(queues rfl).2.symm⟩
    | write => trivial
    | owner => trivial
    | load => trivial
  | upgrading at_ =>
    cases at_ with
    | held => trivial
    | load => trivial
    | top owner => exact here
  | entering again op at_ =>
    cases at_ with
    | mark owner => exact here
    | _ => trivial
  | woken given op owner => exact here
  | aborted => exact here
  | _ => trivial

def Lwps.addr [Fintype T] (L : Lwps T) (t : T) : Nat := (view (L.lwp t)).field

structure Inv [Fintype T] (L : Lwps T) (s : Rw T) : Prop where
  good : Good L.addr s.abs
  reads : ∀ t,t ∈ s.readers ↔ (s.pc t).waits = some .reader
  writes : ∀ t,t ∈ s.writers ↔ (s.pc t).waits = some .writer
  chain : ∀ t,s.chain = some t ↔ (s.pc t).chained = true
  here : ∀ t,Local (L.lwp t) s.rw_owner s.readers.card s.writers.card (s.pc t)

variable [Fintype T] {L : Lwps T} {s s' : Rw T} {t u : T}

theorem Lwps.pos (L : Lwps T) (t : T) : 0 < L.addr t := Nat.lt_of_le_of_lt (Nat.zero_le _) (L.room t)

theorem Lwps.same (L : Lwps T) (eq : L.addr t = L.addr u) : t = u := by
  apply L.distinct
  apply view_injective
  rw [(L.aligned t).view,(L.aligned u).view]
  exact congrArg (fun n => (⟨n,false,false,false,false⟩ : View)) eq

def Woken (p p' : Pc) : Prop := p' = p ∨ ∃ given op owner,p = .blocked op owner ∧ p' = .woken given op owner ∧ (op = .reader → given = true)

theorem Inv.move (inv : Inv L s) (move : Move L.addr s.abs t s'.abs) (others : ∀ u,u ≠ t → Woken (s.pc u) (s'.pc u))
    (reads : ∀ t,t ∈ s'.readers ↔ (s'.pc t).waits = some .reader)
    (writes : ∀ t,t ∈ s'.writers ↔ (s'.pc t).waits = some .writer)
    (chain : ∀ t,s'.chain = some t ↔ (s'.pc t).chained = true)
    (here : Local (L.lwp t) s'.rw_owner s'.readers.card s'.writers.card (s'.pc t)) : Inv L s' where
  good := good_move L.pos inv.good move
  reads := reads
  writes := writes
  chain := chain
  here u := by
    by_cases same : u = t
    · rw [same]
      exact here
    rcases others u same with kept | ⟨given,op,owner,-,woken,full⟩
    · rw [kept]
      apply (inv.here u).keep
      · intro holds
        rcases keeps_writer inv.good L.pos move (Ne.symm same) holds with word | set
        · exact .inl (view_injective word)
        refine .inr ⟨set.1,?_⟩
        rw [← Bool.not_eq_true,← inv.chain u]
        intro mine
        rw [show s.chain = some t from set.2] at mine
        exact same (Option.some.inj mine).symm
      · intro holds one waiters
        exact view_injective (keeps_reader inv.good move (Ne.symm same) ⟨holds,fun _ => one⟩ waiters)
      intro chained
      obtain ⟨readers,writers⟩ := keeps_queues move (Ne.symm same) ((inv.chain u).mpr chained)
      exact ⟨congrArg Finset.card readers,congrArg Finset.card writers⟩
    rw [woken]
    exact full

theorem abs_goto (s : Rw T) (t : T) (p : Pc) :
    (s.goto t p).abs = { s.abs with hold := update s.abs.hold t p.hold, coming := update s.abs.coming t p.coming } := by
  have hold : (fun u => (update s.pc t p u).hold) = update (fun u => (s.pc u).hold) t p.hold :=
    funext fun u => apply_update (fun _ => Pc.hold) s.pc t p u
  have coming : (fun u => (update s.pc t p u).coming) = update (fun u => (s.pc u).coming) t p.coming :=
    funext fun u => apply_update (fun _ => Pc.coming) s.pc t p u
  simp only [Rw.abs,Rw.goto,hold,coming]

theorem update_kept {α : Type} {f : T → α} {a : α} (kept : f t = a) : update f t a = f := by
  rw [← kept]
  exact update_eq_self t f

theorem goto_self (s : Rw T) (t : T) (p : Pc) : (s.goto t p).pc t = p := update_self ..
theorem goto_other (s : Rw T) (p : Pc) (ne : u ≠ t) : (s.goto t p).pc u = s.pc u := update_of_ne ne ..

variable {q : Pc}

theorem goto_iff {C : T → Prop} {D : Pc → Prop} (all : ∀ u,C u ↔ D (s.pc u)) (at_ : s.pc t = q) {p : Pc} (same : D p ↔ D q) (u : T) :
    C u ↔ D ((s.goto t p).pc u) := by
  by_cases here : u = t
  · rw [here,goto_self,same,← at_]
    exact all t
  rw [goto_other s p here]
  exact all u

structure Quiet (p q : Pc) : Prop where
  hold : p.hold = q.hold
  coming : p.coming = q.coming
  waits : p.waits = q.waits
  chained : p.chained = q.chained

section
variable (inv : Inv L s)
include inv

theorem Inv.goto (at_ : s.pc t = q) (quiet : Quiet p q)
    (here : Local (L.lwp t) s.rw_owner s.readers.card s.writers.card p) : Inv L (s.goto t p) := by
  have same : (s.goto t p).abs = s.abs := by
    have hold : s.abs.hold t = p.hold := (congrArg Pc.hold at_).trans quiet.hold.symm
    have coming : s.abs.coming t = p.coming := (congrArg Pc.coming at_).trans quiet.coming.symm
    rw [abs_goto,update_kept hold,update_kept coming]
  refine inv.move (t := t) (same ▸ .rest) (fun u ne => .inl (goto_other s p ne)) ?_ ?_ ?_ ?_
  · exact goto_iff (D := fun p => p.waits = some .reader) inv.reads at_ (by rw [quiet.waits])
  · exact goto_iff (D := fun p => p.waits = some .writer) inv.writes at_ (by rw [quiet.waits])
  · exact goto_iff (D := fun p => p.chained = true) inv.chain at_ (by rw [quiet.chained])
  rw [goto_self]
  exact here

theorem Inv.put {q : Pc} {new : Word} {v : View} (at_ : s.pc t = q) (word : view new = v)
    (move : Move L.addr s.abs t { s.abs with
      word := v
      hold := update s.abs.hold t p.hold
      coming := update s.abs.coming t p.coming })
    (waits : p.waits = q.waits) (chained : p.chained = q.chained)
    (here : Local (L.lwp t) new s.readers.card s.writers.card p) : Inv L ({ s with rw_owner := new }.goto t p) := by
  subst word
  refine inv.move (t := t) ?_ (fun u ne => .inl (goto_other _ p ne)) ?_ ?_ ?_ ?_
  · rw [abs_goto]
    exact move
  · exact goto_iff (D := fun p => p.waits = some .reader) inv.reads at_ (by rw [waits])
  · exact goto_iff (D := fun p => p.waits = some .writer) inv.writes at_ (by rw [waits])
  · exact goto_iff (D := fun p => p.chained = true) inv.chain at_ (by rw [chained])
  rw [goto_self]
  exact here

theorem Inv.lookup (at_ : s.pc t = q) (free : s.chain = none)
    (hold : p.hold = q.hold) (coming : p.coming = q.coming) (waits : p.waits = q.waits) (chained : p.chained = true)
    (here : Local (L.lwp t) s.rw_owner s.readers.card s.writers.card p) : Inv L ({ s with chain := some t }.goto t p) := by
  have held : s.abs.hold t = p.hold := (congrArg Pc.hold at_).trans hold.symm
  have come : s.abs.coming t = p.coming := (congrArg Pc.coming at_).trans coming.symm
  refine inv.move (t := t) ?_ (fun u ne => .inl (goto_other _ p ne)) ?_ ?_ ?_ ?_
  · rw [abs_goto,show ({ s with chain := some t } : Rw T).abs = { s.abs with chain := some t } from rfl]
    rw [update_kept held,update_kept come]
    exact .lock free
  · exact goto_iff (D := fun p => p.waits = some .reader) inv.reads at_ (by rw [waits])
  · exact goto_iff (D := fun p => p.waits = some .writer) inv.writes at_ (by rw [waits])
  · intro u
    by_cases same : u = t
    · rw [same,goto_self,chained]
      exact ⟨fun _ => rfl,fun _ => rfl⟩
    rw [goto_other _ p same,← inv.chain u,free]
    exact ⟨fun mine => absurd (Option.some.inj mine).symm same,fun none_ => (nomatch none_)⟩
  rw [goto_self]
  exact here

theorem Inv.alone (at_ : s.pc t = q) (chained : q.chained = true) : s.chain = some t := by
  rw [inv.chain t,at_]
  exact chained

theorem chain_freed (at_ : s.pc t = q) (chained : q.chained = true) (ne : u ≠ t) : (s.pc u).chained = false := by
  rw [← Bool.not_eq_true,← inv.chain u,inv.alone at_ chained]
  exact fun same => ne (Option.some.inj same).symm

theorem Inv.exit (at_ : s.pc t = q) (mine : q.chained = true)
    (hold : p.hold = q.hold) (coming : p.coming = q.coming) (waits : p.waits = q.waits) (chained : p.chained = false)
    (here : Local (L.lwp t) s.rw_owner s.readers.card s.writers.card p) : Inv L (s.release.goto t p) := by
  have held : s.abs.hold t = p.hold := (congrArg Pc.hold at_).trans hold.symm
  have come : s.abs.coming t = p.coming := (congrArg Pc.coming at_).trans coming.symm
  refine inv.move (t := t) ?_ (fun u ne => .inl (goto_other _ p ne)) ?_ ?_ ?_ ?_
  · rw [abs_goto,show s.release.abs = { s.abs with chain := none } from rfl]
    rw [update_kept held,update_kept come]
    exact .unlock (inv.alone at_ mine)
  · exact goto_iff (D := fun p => p.waits = some .reader) inv.reads at_ (by rw [waits])
  · exact goto_iff (D := fun p => p.waits = some .writer) inv.writes at_ (by rw [waits])
  · intro u
    by_cases same : u = t
    · rw [same,goto_self,chained]
      exact ⟨fun none_ => (nomatch none_),fun none_ => (nomatch none_)⟩
    rw [goto_other _ p same,show s.release.pc u = s.pc u from rfl,chain_freed inv at_ mine same]
    exact ⟨fun none_ => (nomatch none_),fun none_ => (nomatch none_)⟩
  rw [goto_self]
  exact here

theorem Inv.writer (at_ : s.pc t = q) (holds : q.hold = some .writer) :
    (view s.rw_owner).locked = true ∧ (view s.rw_owner).field = (view (L.lwp t)).field := by
  have held : s.abs.hold t = some .writer := (congrArg Pc.hold at_).trans holds
  exact ⟨inv.good.locked_of_writer held,(inv.good.owner held).1⟩

theorem Inv.reader (at_ : s.pc t = q) (holds : q.hold = some .reader) :
    (view s.rw_owner).locked = false ∧ 0 < (view s.rw_owner).field := by
  have held : s.abs.hold t = some .reader := (congrArg Pc.hold at_).trans holds
  exact ⟨inv.good.unlocked_of_reader held,inv.good.field_pos held⟩

theorem Inv.count_le (unlocked : (view s.rw_owner).locked = false) : (view s.rw_owner).field ≤ Fintype.card T := by
  obtain ⟨holders,count,-⟩ := inv.good.shared unlocked
  exact (show (view s.rw_owner).field = holders.card from count.symm) ▸ Finset.card_le_univ holders
end

theorem Lwps.high (L : Lwps T) (t : T) : Fintype.card T + 1 < 2 ^ 28 := Nat.lt_of_le_of_lt (L.room t) (field_lt _)

theorem Inv.stranger (inv : Inv L s) (at_ : s.pc t = q) (idle : q.hold = none) :
    (view s.rw_owner).field ≠ (view (L.lwp t)).field := by
  intro same
  cases locked : (view s.rw_owner).locked with
  | false =>
    have low := inv.count_le locked
    have high := L.room t
    omega
  | true =>
    obtain ⟨owner,field,all⟩ := inv.good.owned locked
    have mine : t = owner := L.same (same.symm.trans field)
    have held : s.abs.hold t = some .writer := by rw [all t,if_pos mine]
    have none_ : s.abs.hold t = none := (congrArg Pc.hold at_).trans idle
    rw [held] at none_
    cases none_

theorem Inv.unqueued (inv : Inv L s) (at_ : s.pc t = q) (waits : q.waits = none) : ¬s.abs.Queued t := by
  rintro (mem | mem)
  · have := (inv.reads t).mp mem
    rw [at_,waits] at this
    cases this
  have := (inv.writes t).mp mem
  rw [at_,waits] at this
  cases this

theorem Inv.seen {op : Krw} (inv : Inv L s) (at_ : s.pc t = q) (holds : q.hold = some op) : Seen (L.lwp t) op s.rw_owner s.rw_owner := by
  cases op with
  | reader =>
    obtain ⟨unlocked,pos⟩ := inv.reader at_ holds
    exact .now _ _ _ unlocked (fun other => (nomatch other)) pos
  | writer =>
    obtain ⟨locked,field⟩ := inv.writer at_ holds
    exact .now _ _ _ locked (fun _ => field) (by rw [field]; exact L.pos t)

theorem dassert_true {cond : Bool} (holds : cond = true) (p : Pc) : dassert cond p = p := if_pos holds

theorem Inv.heldAs {op : Krw} (inv : Inv L s) (at_ : s.pc t = q) (holds : q.hold = some op) : heldAs s.rw_owner (L.lwp t) op = true := by
  apply decide_eq_true
  cases op with
  | reader =>
    refine .inr ⟨rfl,?_⟩
    rw [Ne,thread_zero]
    have := (inv.reader at_ holds).2
    omega
  | writer => exact .inl ⟨nofun,(thread_eq (L.aligned t)).mpr (inv.writer at_ holds).2⟩

def wakeHold (A : Lock T) (t : T) (p : Pc) (names : Finset T) (given : Bool) (op : Krw) : T → Option Krw :=
  Function.update (fun u => if u ∈ names then if given then some op else none else A.hold u) t p.hold

def wakeComing (A : Lock T) (t : T) (p : Pc) (names : Finset T) (given : Bool) (op : Krw) : T → Bool :=
  Function.update (fun u => if u ∈ names then !given && op = .writer else A.coming u) t p.coming

theorem wake_of_waits {op : Krw} (waits : q.waits = some op) (given : Bool) :
    ∃ owner,q = .blocked op owner ∧ q.wake given = .woken given op owner := by
  cases q with
  | blocked op' owner =>
    cases Option.some.inj waits
    exact ⟨owner,rfl,rfl⟩
  | _ => cases waits

theorem abs_wakeup {op : Krw} {names : Finset T} (asleep : ∀ u ∈ names,(s.pc u).waits = some op) (new : Word) (given : Bool) (t : T) (p : Pc) :
    ((Rw.wakeup { s with rw_owner := new } names given).goto t p).abs =
      ⟨view new,none,s.readers \ names,s.writers \ names,wakeHold s.abs t p names given op,wakeComing s.abs t p names given op⟩ := by
  have hold : (fun u => (if u ∈ names then (s.pc u).wake given else s.pc u).hold) =
      fun u => if u ∈ names then if given then some op else none else (s.pc u).hold := by
    funext u
    by_cases mem : u ∈ names
    · obtain ⟨owner,-,woken⟩ := wake_of_waits (asleep u mem) given
      rw [if_pos mem,if_pos mem,woken]
      rfl
    · rw [if_neg mem,if_neg mem]
  have coming : (fun u => (if u ∈ names then (s.pc u).wake given else s.pc u).coming) =
      fun u => if u ∈ names then !given && op = .writer else (s.pc u).coming := by
    funext u
    by_cases mem : u ∈ names
    · obtain ⟨owner,-,woken⟩ := wake_of_waits (asleep u mem) given
      rw [if_pos mem,if_pos mem,woken]
      cases given <;> cases op <;> rfl
    · rw [if_neg mem,if_neg mem]
  rw [abs_goto]
  simp only [Rw.abs,Rw.wakeup,hold,coming,wakeHold,wakeComing]

theorem Inv.wake {op : Krw} {new : Word} {v : View} {names : Finset T} {given : Bool} (inv : Inv L s) (at_ : s.pc t = q)
    (mine : q.chained = true) (asleep : ∀ u ∈ names,(s.pc u).waits = some op) (full : op = .reader → given = true) (word : view new = v)
    (move : Move L.addr s.abs t
      ⟨v,none,s.readers \ names,s.writers \ names,wakeHold s.abs t p names given op,wakeComing s.abs t p names given op⟩)
    (awake : q.waits = none) (waits : p.waits = none) (chained : p.chained = false)
    (here : ∀ r w,Local (L.lwp t) new r w p) : Inv L ((Rw.wakeup { s with rw_owner := new } names given).goto t p) := by
  subst word
  have other {u : T} (ne : u ≠ t) : ((Rw.wakeup { s with rw_owner := new } names given).goto t p).pc u =
      if u ∈ names then (s.pc u).wake given else s.pc u := goto_other _ p ne
  have queues {names' : Finset T} {op' : Krw} (all : ∀ u,u ∈ names' ↔ (s.pc u).waits = some op') (u : T) :
      u ∈ names' \ names ↔ (((Rw.wakeup { s with rw_owner := new } names given).goto t p).pc u).waits = some op' := by
    rw [Finset.mem_sdiff]
    by_cases same : u = t
    · rw [same,goto_self,waits,all t,at_,awake]
      exact ⟨fun h => (nomatch h.1),fun h => (nomatch h)⟩
    rw [other same]
    by_cases mem : u ∈ names
    · obtain ⟨owner,-,woken⟩ := wake_of_waits (asleep u mem) given
      rw [if_pos mem,woken]
      exact ⟨fun h => absurd mem h.2,fun h => (nomatch h)⟩
    rw [if_neg mem,← all u]
    exact ⟨fun h => h.1,fun h => ⟨h,mem⟩⟩
  refine inv.move (t := t) ?_ (fun u ne => ?_) (queues inv.reads) (queues inv.writes) ?_ ?_
  · rw [abs_wakeup asleep]
    exact move
  · rw [other ne]
    by_cases mem : u ∈ names
    · obtain ⟨owner,was,woken⟩ := wake_of_waits (asleep u mem) given
      rw [if_pos mem,woken]
      exact .inr ⟨given,op,owner,was,rfl,full⟩
    rw [if_neg mem]
    exact .inl rfl
  · intro u
    by_cases same : u = t
    · rw [same,goto_self,chained]
      exact ⟨fun none_ => (nomatch none_),fun none_ => (nomatch none_)⟩
    rw [other same]
    by_cases mem : u ∈ names
    · obtain ⟨owner,-,woken⟩ := wake_of_waits (asleep u mem) given
      rw [if_pos mem,woken]
      exact ⟨fun none_ => (nomatch none_),fun none_ => (nomatch none_)⟩
    rw [if_neg mem,chain_freed inv at_ mine same]
    exact ⟨fun none_ => (nomatch none_),fun none_ => (nomatch none_)⟩
  rw [goto_self]
  exact here _ _
end NetbsdAvr32.Rwlock
