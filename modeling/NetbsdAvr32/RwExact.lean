import NetbsdAvr32.RwInv

-- Every step of the code is a move of the lock.
namespace NetbsdAvr32.Rwlock
open Function Finset Pc
variable {T : Type} [DecidableEq T] [Fintype T] {L : Lwps T} {s s' : Rw T} {t u : T} {cur word owner : Word} {rcnt wcnt : Nat} {p : Pc}

variable {op : Krw} {again : Bool} {decr : Word}

theorem view_taken (inv : Inv L s) (free : s.rw_owner &&& need_wait op = 0) :
    view (inheritDebug (tryValue s.rw_owner (L.lwp t) op) s.rw_owner) = match op with
      | .reader => { view s.rw_owner with field := (view s.rw_owner).field + 1 }
      | .writer => { view s.rw_owner with field := L.addr t, locked := true } := by
  rw [view_inherit]
  cases op with
  | reader =>
    have low := inv.count_le (free_reader.mp free).1
    have high := L.high t
    rw [view_try_reader (by omega)]
    simp
  | writer =>
    rw [view_try_writer (L.aligned t) free]
    simp [Lwps.addr]

theorem view_entered (owner cur : Word) (op : Krw) :
    view (inheritDebug (enterValue owner cur op) owner) = { view (inheritDebug (tryValue owner cur op) owner) with wanted := false } := by
  rw [view_inherit,view_inherit,view_enter]

theorem Inv.enterCas (inv : Inv L s) (at_ : s.pc t = .entering again op (.top s.rw_owner))
    (free : s.rw_owner &&& need_wait op = 0) :
    Inv L ((s.store s.rw_owner (enterValue s.rw_owner (L.lwp t) op)).goto t (.entered op)) := by
  have idle : s.abs.hold t = none := congrArg hold at_
  have out := inv.unqueued at_ rfl
  cases op with
  | reader =>
    obtain ⟨unlocked,unwanted⟩ := free_reader.mp free
    have come : s.abs.coming t = false := by
      refine (congrArg coming at_).trans ?_
      cases again <;> rfl
    have word : view (inheritDebug (enterValue s.rw_owner (L.lwp t) .reader) s.rw_owner) =
        { view s.rw_owner with field := (view s.rw_owner).field + 1 } := by
      rw [view_entered,view_taken inv free]
      simp [unwanted]
    have take : Move L.addr s.abs t _ := .takeRead unlocked unwanted idle out
    refine inv.put at_ word ?_ rfl rfl trivial
    rw [show (entered .reader).coming = false from rfl,update_kept come]
    exact take
  | writer =>
    obtain ⟨unlocked,empty⟩ := free_writer.mp free
    have word : view (inheritDebug (enterValue s.rw_owner (L.lwp t) .writer) s.rw_owner) =
        { view s.rw_owner with field := L.addr t, locked := true, wanted := false } := by
      rw [view_entered,view_taken inv free]
    exact inv.put at_ word (.takeWrite false _ unlocked empty idle out (.inl rfl)) rfl rfl trivial

theorem Inv.tryCas (inv : Inv L s) (at_ : s.pc t = .trying op (some s.rw_owner)) (free : s.rw_owner &&& need_wait op = 0) :
    Inv L ((s.store s.rw_owner (tryValue s.rw_owner (L.lwp t) op)).goto t (.entered op)) := by
  have idle : s.abs.hold t = none := congrArg hold at_
  have out := inv.unqueued at_ rfl
  have come : s.abs.coming t = false := congrArg coming at_
  have word := view_taken (t := t) inv free
  refine inv.put at_ word ?_ rfl rfl trivial
  rw [show (entered op).coming = false from rfl,update_kept come]
  cases op with
  | reader =>
    obtain ⟨unlocked,unwanted⟩ := free_reader.mp free
    exact .takeRead unlocked unwanted idle out
  | writer =>
    obtain ⟨unlocked,empty⟩ := free_writer.mp free
    exact .takeWrite _ _ unlocked empty idle out (.inr ⟨rfl,rfl⟩)

theorem Seen.view_exit (aligned : Aligned cur) (seen : Seen cur op word owner) :
    view (owner - incr cur op) = match op with
      | .reader => { view owner with field := (view owner).field - 1 }
      | .writer => { view owner with field := 0, locked := false } := by
  cases op with
  | reader => exact view_exit_reader seen.2.1
  | writer => exact view_exit_writer aligned seen.1 seen.2.1

theorem gives_iff : gives decr owner = true ↔ (view (owner - decr)).field = 0 ∧ (view (owner - decr)).waiters = true := by
  rw [gives,decide_eq_true_iff]
  exact idle_waiters

theorem Seen.ready (aligned : Aligned cur) (seen : Seen cur op word owner) (slow : gives (incr cur op) owner = true) : Ready op word := by
  rw [gives_iff,seen.view_exit aligned] at slow
  cases op with
  | reader =>
    have pos := seen.2.1
    have last : (view owner).field - 1 = 0 := slow.1
    have now := seen.2.2 (by omega) slow.2
    exact ⟨fun _ => now.1,now.2⟩
  | writer => exact ⟨fun other => (nomatch other),seen.2.2 slow.2⟩

section
variable (inv : Inv L s)
include inv

theorem Inv.exitCas (at_ : s.pc t = .exiting op (.top decr s.rw_owner))
    (fast : gives decr s.rw_owner = false) : Inv L ((s.store s.rw_owner (s.rw_owner - decr)).goto t .out) := by
  have known := inv.here t
  rw [at_] at known
  obtain ⟨rfl,seen⟩ := known
  have held : s.abs.hold t = some op := congrArg hold at_
  have come : s.abs.coming t = false := congrArg coming at_
  have after := seen.view_exit (L.aligned t)
  have keeps := mt gives_iff.mpr (Bool.not_eq_true _ ▸ fast)
  rw [after] at keeps
  have word : view (inheritDebug (s.rw_owner - incr (L.lwp t) op) s.rw_owner) = view (s.rw_owner - incr (L.lwp t) op) := by
    rw [view_inherit,after]
    cases op <;> simp
  refine inv.put at_ (word.trans after) ?_ rfl rfl trivial
  rw [show out.coming = false from rfl,update_kept come]
  cases op with
  | reader =>
    refine .dropRead held fun both => keeps ⟨?_,both.2⟩
    have one : (view s.rw_owner).field = 1 := both.1
    show (view s.rw_owner).field - 1 = 0
    omega
  | writer =>
    refine .dropWrite held ?_
    rw [← Bool.not_eq_true]
    exact fun set => keeps ⟨rfl,set⟩

theorem Inv.some_waiting (waiters : (view s.rw_owner).waiters = true) : s.readers.card ≠ 0 ∨ s.writers.card ≠ 0 := by
  obtain ⟨u,mem | mem⟩ := inv.good.waiting.mp waiters
  · exact .inl (card_pos.mpr ⟨u,mem⟩).ne'
  · exact .inr (card_pos.mpr ⟨u,mem⟩).ne'

theorem Inv.wanted (some_ : s.writers.card ≠ 0) : (view s.rw_owner).wanted = true :=
  inv.good.wanted (card_pos.mp (Nat.pos_of_ne_zero some_))

theorem Inv.exitAsserts (decr : Word) (waiters : (view s.rw_owner).waiters = true) :
    exitAsserts decr s.rw_owner s.readers.card s.writers.card = true := by
  have some_ := inv.some_waiting waiters
  apply decide_eq_true
  refine ⟨some_,?_,?_⟩
  · rw [Ne,waiters_zero,waiters]
    exact Bool.noConfusion
  split
  · rename_i branch
    have wcnt : s.writers.card ≠ 0 := by
      rcases of_decide_eq_true branch with none_ | both
      · exact some_.resolve_left (absurd none_)
      · exact both.2
    refine ⟨wcnt,?_⟩
    rw [Ne,wanted_zero,inv.wanted wcnt]
    exact Bool.noConfusion
  rename_i branch
  exact fun none_ => branch (decide_eq_true (.inl none_))

theorem Inv.swapping (at_ : s.pc t = .exiting op (.swap decr owner rcnt wcnt)) :
    s.abs.Sole t op ∧ s.chain = some t ∧ decr = incr (L.lwp t) op ∧ s.rw_owner = owner ∧ rcnt = s.readers.card ∧ wcnt = s.writers.card := by
  have known := inv.here t
  rw [at_] at known
  obtain ⟨decr_,ready,same,r,w⟩ := known
  exact ⟨⟨congrArg hold at_,ready.1⟩,inv.alone at_ rfl,decr_,same,r,w⟩

theorem Inv.asleep_writer (mem : u ∈ s.writers) : (s.pc u).waits = some .writer := (inv.writes u).mp mem
theorem Inv.asleep_reader (mem : u ∈ s.readers) : (s.pc u).waits = some .reader := (inv.reads u).mp mem

theorem Inv.exitHand {l : T} (at_ : s.pc t = .exiting op (.swap decr s.rw_owner s.readers.card s.writers.card))
    (some_ : s.readers.card ≠ 0) (first : l ∈ s.writers) :
    Inv L (((s.store s.rw_owner (handValue (L.lwp l) s.writers.card)).wakeup {l} true).goto t .out) := by
  obtain ⟨sole,chain,-⟩ := inv.swapping at_
  have word : view (inheritDebug (handValue (L.lwp l) s.writers.card) s.rw_owner) =
      ⟨L.addr l,(view s.rw_owner).debug,true,decide (1 < s.writers.card),true⟩ := by
    rw [view_inherit,view_hand (L.aligned l)]
    simp [Lwps.addr]
  have asleep : ∀ u ∈ ({l} : Finset T),(s.pc u).waits = some .writer := by
    intro u mem
    rw [mem_singleton.mp mem]
    exact inv.asleep_writer first
  have ne : l ≠ t := by
    rintro rfl
    have := inv.asleep_writer first
    rw [at_] at this
    cases this
  have readers : s.readers \ {l} = s.readers := by
    rw [sdiff_singleton_eq_erase]
    exact erase_eq_of_notMem fun mem => inv.good.apart l mem first
  have hold : wakeHold s.abs t .out {l} true .writer = update (update s.abs.hold t none) l (some .writer) := by
    rw [update_comm ne.symm]
    refine congrArg (fun f : T → Option Krw => update f t none) (funext fun u => ?_)
    by_cases same : u = l
    · rw [same,update_self,if_pos (mem_singleton_self l)]
      rfl
    · rw [update_of_ne same,if_neg (by simpa using same)]
  have coming : wakeComing s.abs t .out {l} true .writer = s.abs.coming := by
    have quiet : (fun u => if u ∈ ({l} : Finset T) then !true && decide (Krw.writer = .writer) else s.abs.coming u) = s.abs.coming := by
      funext u
      by_cases same : u = l
      · rw [same,if_pos (mem_singleton_self l)]
        obtain ⟨owner,was,-⟩ := wake_of_waits (inv.asleep_writer first) true
        exact (congrArg coming was).symm
      · rw [if_neg (by simpa using same)]
    rw [wakeComing,quiet]
    exact update_kept ((congrArg coming at_).trans (show _ = out.coming from rfl))
  refine inv.wake at_ rfl asleep (by simp) word ?_ rfl rfl rfl (fun _ _ => trivial)
  rw [hold,coming,readers,sdiff_singleton_eq_erase]
  exact .hand chain sole (card_pos.mp (Nat.pos_of_ne_zero some_)) first

theorem sdiff_apart : s.readers \ s.writers = s.readers ∧ s.writers \ s.readers = s.writers := by
  have disjoint : Disjoint s.readers s.writers := disjoint_left.mpr inv.good.apart
  exact ⟨sdiff_eq_self_of_disjoint disjoint,sdiff_eq_self_of_disjoint disjoint.symm⟩

theorem Inv.exitWriters (at_ : s.pc t = .exiting op (.swap decr s.rw_owner s.readers.card s.writers.card))
    (none_ : s.readers.card = 0) (some_ : s.writers.card ≠ 0) :
    Inv L (((s.store s.rw_owner RW_WRITE_WANTED).wakeup s.writers false).goto t .out) := by
  obtain ⟨sole,chain,-⟩ := inv.swapping at_
  have word : view (inheritDebug RW_WRITE_WANTED s.rw_owner) = ⟨0,(view s.rw_owner).debug,false,true,false⟩ := by
    rw [view_inherit,view_wanted]
    simp
  have hold : wakeHold s.abs t .out s.writers false .writer = update s.abs.hold t none := by
    refine congrArg (fun f : T → Option Krw => update f t none) (funext fun u => ?_)
    split
    · next mem =>
      exact (inv.good.queued u (.inr mem)).symm
    · rfl
  refine inv.wake at_ rfl (fun u => inv.asleep_writer) (fun other => (nomatch other)) word ?_ rfl rfl rfl (fun _ _ => trivial)
  rw [hold,(sdiff_apart inv).1,sdiff_self]
  refine .wakeWriters _ chain sole (card_eq_zero.mp none_) (card_pos.mp (Nat.pos_of_ne_zero some_)) fun u mem => ?_
  have ne : u ≠ t := by
    rintro rfl
    have := inv.asleep_writer mem
    rw [at_] at this
    cases this
  rw [wakeComing,update_of_ne ne,if_pos (show u ∈ s.writers from mem)]
  rfl

theorem wake_readers {q : Pc} (at_ : s.pc t = q) (awake : q.waits = none) (quiet : q.coming = false) (idle : p.coming = false) :
    (wakeHold s.abs t p s.readers true .reader = fun u => if u ∈ s.abs.readers then some .reader else update s.abs.hold t p.hold u) ∧
      wakeComing s.abs t p s.readers true .reader = s.abs.coming := by
  have out : t ∉ s.readers := by
    intro mem
    have := inv.asleep_reader mem
    rw [at_,awake] at this
    cases this
  constructor
  · funext u
    by_cases same : u = t
    · rw [same,wakeHold,update_self,if_neg (show t ∉ s.abs.readers from out),update_self]
    rw [wakeHold,update_of_ne same,update_of_ne same]
    rfl
  have kept : (fun u => if u ∈ s.readers then !true && decide (Krw.reader = .writer) else s.abs.coming u) = s.abs.coming := by
    funext u
    split_ifs with mem
    · obtain ⟨owner,was,-⟩ := wake_of_waits (inv.asleep_reader mem) true
      exact (congrArg coming was).symm
    · rfl
  rw [wakeComing,kept]
  exact update_kept ((congrArg coming at_).trans (quiet.trans idle.symm))

theorem Inv.exitReaders (at_ : s.pc t = .exiting op (.swap decr s.rw_owner s.readers.card s.writers.card))
    (some_ : s.readers.card ≠ 0) :
    Inv L (((s.store s.rw_owner (readersValue s.readers.card s.writers.card)).wakeup s.readers true).goto t .out) := by
  obtain ⟨sole,chain,-⟩ := inv.swapping at_
  have few : s.readers.card ≤ Fintype.card T := card_le_univ _
  have high := L.high t
  have word : view (inheritDebug (readersValue s.readers.card s.writers.card) s.rw_owner) =
      ⟨s.readers.card,(view s.rw_owner).debug,false,decide (s.writers.card ≠ 0),decide (s.writers.card ≠ 0)⟩ := by
    rw [view_inherit,view_readers (by omega)]
    simp
  obtain ⟨hold,coming⟩ := wake_readers inv at_ rfl rfl (show out.coming = false from rfl)
  refine inv.wake at_ rfl (fun u => inv.asleep_reader) (fun _ => rfl) word ?_ rfl rfl rfl (fun _ _ => trivial)
  rw [hold,coming,(sdiff_apart inv).2,sdiff_self]
  exact .giveReaders chain sole (card_pos.mp (Nat.pos_of_ne_zero some_))
end

theorem busy_reader (busy : owner &&& need_wait .reader ≠ 0) : (view owner).locked = true ∨ (view owner).wanted = true := by
  by_contra none_
  rw [not_or,Bool.not_eq_true,Bool.not_eq_true] at none_
  exact busy (free_reader.mpr none_)

theorem busy_writer (busy : owner &&& need_wait .writer ≠ 0) : (view owner).locked = true ∨ (view owner).field ≠ 0 := by
  by_contra none_
  rw [not_or,Bool.not_eq_true,not_not] at none_
  exact busy (free_writer.mpr none_)

section
variable (inv : Inv L s)
include inv

theorem Inv.enterMark (at_ : s.pc t = .entering again op (.mark s.rw_owner)) :
    Inv L ((s.store s.rw_owner (s.rw_owner ||| set_wait op)).block t op s.rw_owner) := by
  have busy := inv.here t
  rw [at_] at busy
  have idle : s.abs.hold t = none := congrArg hold at_
  have out := inv.unqueued at_ rfl
  have chain := inv.alone at_ rfl
  have held : s.abs.hold t = (blocked op s.rw_owner).hold := idle
  have word : view (inheritDebug (s.rw_owner ||| set_wait op) s.rw_owner) =
      { view s.rw_owner with waiters := true, wanted := (view s.rw_owner).wanted || decide (op = .writer) } := by
    rw [view_inherit,view_mark]
    simp
  have freed (u : T) : none = some u ↔ (update s.pc t (blocked op s.rw_owner) u).chained = true := by
    refine ⟨by simp,fun chained => ?_⟩
    by_cases same : u = t
    · rw [same,update_self] at chained
      cases chained
    rw [update_of_ne same,chain_freed inv at_ rfl same] at chained
    cases chained
  have kept {op' : Krw} {names : Finset T} (all : ∀ u,u ∈ names ↔ (s.pc u).waits = some op') (other : op ≠ op') (u : T) :
      u ∈ names ↔ (update s.pc t (blocked op s.rw_owner) u).waits = some op' := by
    by_cases same : u = t
    · rw [same,update_self,all t,at_]
      exact ⟨fun h => absurd (show (none : Option Krw) = some op' from h) (by simp),fun h => absurd (Option.some.inj h) other⟩
    rw [update_of_ne same]
    exact all u
  have added {names : Finset T} (all : ∀ u,u ∈ names ↔ (s.pc u).waits = some op) (u : T) :
      u ∈ insert t names ↔ (update s.pc t (blocked op s.rw_owner) u).waits = some op := by
    by_cases same : u = t
    · rw [same,update_self]
      exact ⟨fun _ => rfl,fun _ => mem_insert_self ..⟩
    rw [update_of_ne same,mem_insert,or_iff_right same]
    exact all u
  have goto := abs_goto s t (.blocked op s.rw_owner)
  have hold : (fun u => (update s.pc t (.blocked op s.rw_owner) u).hold) = s.abs.hold :=
    (congrArg Lock.hold goto).trans (update_kept held)
  have coming : (fun u => (update s.pc t (.blocked op s.rw_owner) u).coming) = update s.abs.coming t false :=
    congrArg Lock.coming goto
  cases op with
  | reader =>
    have come : s.abs.coming t = false := by
      refine (congrArg Pc.coming at_).trans ?_
      cases again <;> rfl
    refine inv.move (t := t) ?_ (fun u ne => .inl (update_of_ne ne ..)) (added inv.reads) (kept inv.writes (by simp)) freed ?_
    · have queue : Move L.addr s.abs t _ := .queueRead chain (busy_reader busy) idle out
      simp only [Rw.abs,Rw.store,Rw.block,word,hold,coming.trans (update_kept come)]
      simpa [Rw.abs] using queue
    rw [show (Rw.block _ t .reader _).pc t = .blocked .reader s.rw_owner from update_self ..]
    trivial
  | writer =>
    refine inv.move (t := t) ?_ (fun u ne => .inl (update_of_ne ne ..)) (kept inv.reads (by simp)) (added inv.writes) freed ?_
    · have queue : Move L.addr s.abs t _ := .queueWrite (update s.abs.coming t false) chain (busy_writer busy) idle out
      simp only [Rw.abs,Rw.store,Rw.block,word,hold,coming]
      simpa [Rw.abs] using queue
    rw [show (Rw.block _ t .writer _).pc t = .blocked .writer s.rw_owner from update_self ..]
    trivial

theorem Inv.downCas (at_ : s.pc t = .downgrading (.cas s.rw_owner)) :
    Inv L ((s.store s.rw_owner RW_READ_INCR).goto t (.downgraded .bit)) := by
  have known := inv.here t
  rw [at_] at known
  have come : s.abs.coming t = false := congrArg coming at_
  have word : view (inheritDebug RW_READ_INCR s.rw_owner) = ⟨1,(view s.rw_owner).debug,false,false,false⟩ := by
    rw [view_inherit,view_incr]
    simp
  refine inv.put at_ word ?_ rfl rfl trivial
  rw [show (downgraded .bit).coming = false from rfl,update_kept come]
  exact .downFast (congrArg hold at_) known.1

theorem Inv.lowering (at_ : s.pc t = .downgrading (.locked owner rcnt wcnt)) :
    s.abs.hold t = some .writer ∧ s.chain = some t ∧ (view s.rw_owner).waiters = true ∧ rcnt = s.readers.card ∧ wcnt = s.writers.card := by
  have known := inv.here t
  rw [at_] at known
  exact ⟨congrArg hold at_,inv.alone at_ rfl,known⟩

section
variable (at_ : s.pc t = .downgrading (.locked s.rw_owner s.readers.card s.writers.card))
include at_

theorem Inv.downGive :
    Inv L (((s.store s.rw_owner (downValue s.readers.card s.writers.card)).wakeup s.readers true).goto t (.downgraded .bit)) := by
  obtain ⟨held,chain,-⟩ := inv.lowering at_
  have few : s.readers.card ≤ Fintype.card T := card_le_univ _
  have high := L.high t
  have word : view (inheritDebug (downValue s.readers.card s.writers.card) s.rw_owner) =
      ⟨s.readers.card + 1,(view s.rw_owner).debug,false,decide (s.writers.card ≠ 0),decide (s.writers.card ≠ 0)⟩ := by
    rw [view_inherit,view_down (by omega)]
    simp
  obtain ⟨hold,coming⟩ := wake_readers inv at_ rfl rfl (show (downgraded .bit).coming = false from rfl)
  refine inv.wake at_ rfl (fun u => inv.asleep_reader) (fun _ => rfl) word ?_ rfl rfl rfl (fun _ _ => trivial)
  rw [hold,coming,(sdiff_apart inv).2,sdiff_self]
  exact .downSlow chain held

theorem Inv.downKeep (none_ : s.readers.card = 0) :
    Inv L ((s.store s.rw_owner (RW_READ_INCR ||| RW_HAS_WAITERS ||| RW_WRITE_WANTED)).release.goto t (.downgraded .bit)) := by
  obtain ⟨-,-,waiters,-⟩ := inv.lowering at_
  have wcnt := (inv.some_waiting waiters).resolve_left (absurd none_)
  have value : downValue s.readers.card s.writers.card = RW_READ_INCR ||| RW_HAS_WAITERS ||| RW_WRITE_WANTED := by
    rw [downValue,if_pos wcnt,none_]
    decide
  have given := inv.downGive at_
  rw [value] at given
  have empty := card_eq_zero.mp none_
  simpa [empty,Rw.wakeup,Rw.release,Rw.store] using given
end

theorem Inv.upCas (at_ : s.pc t = .upgrading (.top s.rw_owner)) (one : s.rw_owner &&& RW_THREAD = RW_READ_INCR) :
    Inv L ((s.store s.rw_owner (upgradeValue s.rw_owner (L.lwp t))).goto t (.upgraded .bit)) := by
  have come : s.abs.coming t = false := congrArg coming at_
  have word : view (inheritDebug (upgradeValue s.rw_owner (L.lwp t)) s.rw_owner) =
      { view s.rw_owner with field := L.addr t, locked := true } := by
    rw [view_inherit,view_upgrade (L.aligned t)]
    simp [Lwps.addr]
  refine inv.put at_ word ?_ rfl rfl trivial
  rw [show (upgraded .bit).coming = false from rfl,update_kept come]
  exact .upgrade (congrArg hold at_) (thread_one.mp one)

theorem Inv.at_ {q : Pc} (at_ : s.pc t = q) : Local (L.lwp t) s.rw_owner s.readers.card s.writers.card q := at_ ▸ inv.here t
end

theorem nonzero_locked (locked : (view word).locked = true) : word &&& RW_WRITE_LOCKED ≠ 0 := by
  rw [Ne,locked_zero,locked]
  exact Bool.noConfusion

theorem nonzero_waiters (waiters : (view word).waiters = true) : word &&& RW_HAS_WAITERS ≠ 0 := by
  rw [Ne,waiters_zero,waiters]
  exact Bool.noConfusion

theorem nonzero_wanted (wanted : (view word).wanted = true) : word &&& RW_WRITE_WANTED ≠ 0 := by
  rw [Ne,wanted_zero,wanted]
  exact Bool.noConfusion

theorem nonzero_thread (pos : 0 < (view word).field) : word &&& RW_THREAD ≠ 0 := by
  rw [Ne,thread_zero]
  omega

theorem quiet_entering {a b : Enter} (chained : (entering again op a).chained = (entering again op b).chained) :
    Quiet (.entering again op a) (.entering again op b) := by
  cases again <;> cases op <;> exact ⟨rfl,rfl,rfl,chained⟩

theorem come_entering (a b : Enter) : (entering again op a).coming = (entering again op b).coming := by
  cases again <;> cases op <;> rfl

theorem inv_enterBusy {running : Bool} (inv : Inv L s) (at_ : s.pc t = .entering again op (.top owner)) :
    Inv L (s.goto t (dassert (s.rw_owner &&& RW_THREAD ≠ L.lwp t) (.entering again op (if running then .spin else .lookup)))) := by
  have other : decide (s.rw_owner &&& RW_THREAD ≠ L.lwp t) = true := by
    apply decide_eq_true
    rw [Ne,thread_eq (L.aligned t)]
    exact inv.stranger at_ rfl
  rw [dassert_true other]
  cases running
  · exact inv.goto at_ (quiet_entering rfl) trivial
  · exact inv.goto at_ (quiet_entering rfl) trivial

theorem Inv.woken_iff {given : Bool} (inv : Inv L s) (at_ : s.pc t = .woken given op owner) :
    (op = .reader ∨ s.rw_owner &&& RW_THREAD = L.lwp t) ↔ given = true := by
  have full := inv.at_ at_
  constructor
  · rintro (reader | mine)
    · exact full reader
    cases given with
    | true => rfl
    | false => exact absurd ((thread_eq (L.aligned t)).mp mine) (inv.stranger at_ rfl)
  rintro rfl
  cases op with
  | reader => exact .inl rfl
  | writer => exact .inr ((thread_eq (L.aligned t)).mpr (inv.writer at_ rfl).2)

theorem inv_enterWoken {given : Bool} (inv : Inv L s) (at_ : s.pc t = .woken given op owner) :
    Inv L (s.goto t (if op = .reader ∨ s.rw_owner &&& RW_THREAD = L.lwp t then .entered op else .entering true op (.top owner))) := by
  have full := inv.at_ at_
  cases given with
  | true =>
    rw [if_pos ((inv.woken_iff at_).mpr rfl)]
    exact inv.goto at_ (by cases op <;> exact ⟨rfl,rfl,rfl,rfl⟩) trivial
  | false =>
    rw [if_neg (mt (inv.woken_iff at_).mp Bool.false_ne_true)]
    cases op with
    | reader => exact absurd (full rfl) Bool.false_ne_true
    | writer => exact inv.goto at_ ⟨rfl,rfl,rfl,rfl⟩ trivial

theorem inv_exitLoad (inv : Inv L s) (at_ : s.pc t = .exiting op .load) :
    Inv L (s.goto t (.exiting op (.check (incr (L.lwp t) (if s.rw_owner &&& RW_WRITE_LOCKED ≠ 0 then .writer else .reader)) s.rw_owner))) := by
  have kind : (if s.rw_owner &&& RW_WRITE_LOCKED ≠ 0 then Krw.writer else .reader) = op := by
    cases op with
    | reader => rw [if_neg (not_not.mpr (locked_zero.mpr (inv.reader at_ rfl).1))]
    | writer => rw [if_pos (nonzero_locked (inv.writer at_ rfl).1)]
  rw [kind]
  exact inv.goto at_ ⟨rfl,rfl,rfl,rfl⟩ ⟨rfl,inv.seen at_ rfl⟩

theorem incr_writer_ne (aligned : Aligned cur) : incr cur .writer ≠ RW_READ_INCR := by
  intro same
  have fields := congrArg view same
  rw [view_incr_writer aligned,view_incr] at fields
  exact Bool.noConfusion (congrArg View.locked fields)

theorem inv_exitCheck (inv : Inv L s) (at_ : s.pc t = .exiting op (.check decr owner)) :
    Inv L (s.goto t (dassert (exitChecks decr s.rw_owner (L.lwp t)) (.exiting op (.top decr owner)))) := by
  have known := inv.at_ at_
  have passes : exitChecks decr s.rw_owner (L.lwp t) = true := by
    obtain ⟨rfl,-⟩ := known
    unfold exitChecks
    cases op with
    | reader =>
      exact decide_eq_true (nonzero_thread (inv.reader at_ rfl).2)
    | writer =>
      rw [if_neg (incr_writer_ne (L.aligned t))]
      exact decide_eq_true ((thread_eq (L.aligned t)).mpr (inv.writer at_ rfl).2)
  rw [dassert_true passes]
  exact inv.goto at_ ⟨rfl,rfl,rfl,rfl⟩ known

theorem inv_exitLocked (inv : Inv L s) (at_ : s.pc t = .exiting op (.locked decr)) :
    Inv L (s.goto t (dassert (exitAsserts decr s.rw_owner s.readers.card s.writers.card)
      (.exiting op (.swap decr s.rw_owner s.readers.card s.writers.card)))) := by
  obtain ⟨decr_,ready⟩ := inv.at_ at_
  rw [dassert_true (inv.exitAsserts decr ready.2)]
  exact inv.goto at_ ⟨rfl,rfl,rfl,rfl⟩ ⟨decr_,ready,rfl,rfl,rfl⟩

theorem inv_downLookup (inv : Inv L s) (at_ : s.pc t = .downgrading (.lookup owner)) (free : s.chain = none) :
    Inv L ({ s with chain := some t }.goto t (dassert (s.readers.card ≠ 0 ∨ s.writers.card ≠ 0)
      (if s.readers.card = 0 then dassert (s.writers.card ≠ 0) (.downgrading (.wanted owner s.readers.card s.writers.card))
      else .downgrading (.locked owner s.readers.card s.writers.card)))) := by
  have waiters := inv.at_ at_
  have some_ := inv.some_waiting waiters
  rw [dassert_true (decide_eq_true some_)]
  split
  · rename_i none_
    have wcnt := some_.resolve_left (absurd none_)
    rw [dassert_true (decide_eq_true wcnt)]
    exact inv.lookup at_ free rfl rfl rfl rfl ⟨waiters,rfl,rfl,wcnt⟩
  · exact inv.lookup at_ free rfl rfl rfl rfl ⟨waiters,rfl,rfl⟩

theorem inv_step (inv : Inv L s) (step : Step L s t s') : Inv L s' := by
  cases step with
  | enter op at_ => exact inv.goto at_ (by cases op <;> exact ⟨rfl,rfl,rfl,rfl⟩) trivial
  | enterLoad at_ | enterMiss at_ _ _ => exact inv.goto at_ (quiet_entering rfl) trivial
  | enterCas at_ free same =>
    subst same
    exact inv.enterCas at_ free
  | enterBusy running at_ _ _ => exact inv_enterBusy inv at_
  | enterSpin running at_ _ =>
    split
    · exact inv.goto at_ (quiet_entering rfl) trivial
    split
    · exact inv.goto at_ (quiet_entering rfl) trivial
    · exact inv.goto at_ (quiet_entering rfl) trivial
  | enterLookup at_ free => exact inv.lookup at_ free rfl (come_entering ..) rfl rfl trivial
  | enterLeave at_ _ | enterUnmarked at_ _ => exact inv.exit at_ rfl rfl (come_entering ..) rfl rfl trivial
  | enterStay at_ busy => exact inv.goto at_ (quiet_entering rfl) busy
  | enterMark at_ same =>
    subst same
    exact inv.enterMark at_
  | enterWoken at_ => exact inv_enterWoken inv at_
  | @entered op at_ =>
    rw [dassert_true (inv.heldAs at_ rfl)]
    exact inv.goto at_ ⟨rfl,rfl,rfl,rfl⟩ trivial
  | exit at_ | tryenter op at_ | tryLoad at_ | tryBusy at_ _ | tryMiss at_ _ _ | downgrade at_
  | upgrade at_ => exact inv.goto at_ ⟨rfl,rfl,rfl,rfl⟩ trivial
  | exitLoad at_ => exact inv_exitLoad inv at_
  | exitCheck at_ => exact inv_exitCheck inv at_
  | exitCas at_ fast same =>
    subst same
    exact inv.exitCas at_ fast
  | exitMiss at_ _ _ => exact inv.goto at_ ⟨rfl,rfl,rfl,rfl⟩ ⟨(inv.at_ at_).1,inv.seen at_ rfl⟩
  | exitSlow at_ slow =>
    obtain ⟨rfl,seen⟩ := inv.at_ at_
    exact inv.goto at_ ⟨rfl,rfl,rfl,rfl⟩ ⟨rfl,seen.ready (L.aligned t) slow⟩
  | exitLookup at_ free =>
    obtain ⟨decr,ready⟩ := inv.at_ at_
    exact inv.lookup at_ free rfl rfl rfl rfl ⟨decr,ready⟩
  | exitLocked at_ => exact inv_exitLocked inv at_
  | exitHand at_ _ some_ first =>
    obtain ⟨-,-,-,rfl,rfl,rfl⟩ := inv.swapping at_
    rw [dassert_true (decide_eq_true rfl)]
    exact inv.exitHand at_ some_ first
  | exitWriters at_ branch none_ sub card =>
    obtain ⟨sole,chain,-,rfl,rfl,rfl⟩ := inv.swapping at_
    obtain ⟨_,ready,_⟩ := inv.at_ at_
    rw [dassert_true (decide_eq_true rfl),eq_of_subset_of_card_le sub card.ge]
    exact inv.exitWriters at_ none_ ((inv.some_waiting ready.2).resolve_left (absurd none_))
  | exitReaders at_ branch sub card =>
    obtain ⟨-,-,-,rfl,rfl,rfl⟩ := inv.swapping at_
    rw [dassert_true (decide_eq_true rfl),eq_of_subset_of_card_le sub card.ge]
    exact inv.exitReaders at_ fun none_ => Bool.noConfusion (branch.symm.trans (decide_eq_true (.inl none_)))
  | tryCas at_ free same =>
    subst same
    exact inv.tryCas at_ free
  | downWrite at_ | upgradedBit at_ =>
    rw [dassert_true (decide_eq_true (nonzero_locked (inv.writer at_ rfl).1))]
    exact inv.goto at_ ⟨rfl,rfl,rfl,rfl⟩ trivial
  | downOwner at_ | upgradedField at_ =>
    rw [dassert_true (decide_eq_true ((thread_eq (L.aligned t)).mpr (inv.writer at_ rfl).2))]
    exact inv.goto at_ ⟨rfl,rfl,rfl,rfl⟩ trivial
  | downLoad at_ =>
    split
    · rename_i quiet
      exact inv.goto at_ ⟨rfl,rfl,rfl,rfl⟩ ⟨waiters_zero.mp quiet,.inl rfl⟩
    rename_i waiting
    refine inv.goto at_ ⟨rfl,rfl,rfl,rfl⟩ ?_
    rw [waiters_zero,Bool.not_eq_false] at waiting
    exact waiting
  | downCas at_ same =>
    subst same
    exact inv.downCas at_
  | downMiss at_ other => exact inv.goto at_ ⟨rfl,rfl,rfl,rfl⟩ ((inv.at_ at_).2.resolve_left other)
  | downLookup at_ free => exact inv_downLookup inv at_ free
  | downWanted at_ =>
    obtain ⟨waiters,rcnt,wcnt,some_⟩ := inv.at_ at_
    rw [dassert_true (decide_eq_true (nonzero_wanted (inv.wanted (wcnt ▸ some_))))]
    exact inv.goto at_ ⟨rfl,rfl,rfl,rfl⟩ ⟨waiters,rcnt,wcnt⟩
  | downWaiters at_ =>
    obtain ⟨waiters,counts⟩ := inv.at_ at_
    rw [dassert_true (decide_eq_true (nonzero_waiters waiters))]
    exact inv.goto at_ ⟨rfl,rfl,rfl,rfl⟩ ⟨waiters,counts⟩
  | downKeep at_ none_ same =>
    subst same
    obtain ⟨-,-,-,rfl,rfl⟩ := inv.lowering at_
    exact inv.downKeep at_ none_
  | downGive at_ _ same sub card =>
    subst same
    obtain ⟨-,-,-,rfl,rfl⟩ := inv.lowering at_
    rw [eq_of_subset_of_card_le sub card.ge]
    exact inv.downGive at_
  | downRetry at_ _ => exact inv.exit at_ rfl rfl rfl rfl rfl (inv.at_ at_).1
  | downgradedBit at_ =>
    rw [dassert_true (decide_eq_true (locked_zero.mpr (inv.reader at_ rfl).1))]
    exact inv.goto at_ ⟨rfl,rfl,rfl,rfl⟩ trivial
  | downgradedField at_ =>
    rw [dassert_true (decide_eq_true (nonzero_thread (inv.reader at_ rfl).2))]
    exact inv.goto at_ ⟨rfl,rfl,rfl,rfl⟩ trivial
  | upHeld at_ =>
    obtain ⟨unlocked,pos⟩ := inv.reader at_ rfl
    rw [dassert_true (decide_eq_true ⟨locked_zero.mpr unlocked,nonzero_thread pos⟩)]
    exact inv.goto at_ ⟨rfl,rfl,rfl,rfl⟩ trivial
  | upLoad at_ =>
    obtain ⟨unlocked,pos⟩ := inv.reader at_ rfl
    exact inv.goto at_ ⟨rfl,rfl,rfl,rfl⟩ ⟨unlocked,pos.ne'⟩
  | upFail at_ _ =>
    obtain ⟨unlocked,pos⟩ := inv.at_ at_
    rw [dassert_true (decide_eq_true ⟨locked_zero.mpr unlocked,nonzero_thread (Nat.pos_of_ne_zero pos)⟩)]
    exact inv.goto at_ ⟨rfl,rfl,rfl,rfl⟩ trivial
  | upCas at_ one same =>
    subst same
    rw [dassert_true (decide_eq_true (locked_zero.mpr (inv.at_ at_).1))]
    exact inv.upCas at_ one
  | upMiss at_ _ _ =>
    obtain ⟨unlocked,pos⟩ := inv.reader at_ rfl
    rw [dassert_true (decide_eq_true (locked_zero.mpr (inv.at_ at_).1))]
    exact inv.goto at_ ⟨rfl,rfl,rfl,rfl⟩ ⟨unlocked,pos.ne'⟩

theorem inv_init (L : Lwps T) (debug : Bool) : Inv L (Rw.init debug) := by
  have word : view (Rw.init (T := T) debug).rw_owner = ⟨0,debug,false,false,false⟩ := by
    cases debug
    · exact view_zero
    · exact view_debug
  have none_ (u : T) : ¬(Rw.init (T := T) debug).abs.Queued u := by
    rintro (mem | mem)
    · exact notMem_empty u mem
    · exact notMem_empty u mem
  constructor
  · constructor
    · intro _
      refine ⟨∅,?_,fun u => ?_⟩
      · exact (congrArg View.field word).symm
      · rfl
    · exact fun locked => Bool.noConfusion ((congrArg View.locked word).symm.trans locked)
    · exact fun u waits => absurd waits (none_ u)
    · exact fun u mem => absurd mem (notMem_empty u)
    · constructor
      · exact fun set => Bool.noConfusion ((congrArg View.waiters word).symm.trans set)
      · exact fun ⟨u,waits⟩ => absurd waits (none_ u)
    · exact fun some_ => absurd some_ not_nonempty_empty
    · exact fun _ set => Bool.noConfusion ((congrArg View.waiters word).symm.trans set)
    · exact fun set => Bool.noConfusion ((congrArg View.wanted word).symm.trans set)
    · exact fun _ => rfl
  · exact fun u => ⟨fun mem => absurd mem (notMem_empty u),fun h => (nomatch h)⟩
  · exact fun u => ⟨fun mem => absurd mem (notMem_empty u),fun h => (nomatch h)⟩
  · exact fun u => ⟨fun h => (nomatch h),fun h => (nomatch h)⟩
  · exact fun u => trivial

theorem inv_reachable (reached : Reachable L s) : Inv L s := by
  induction reached with
  | init debug => exact inv_init L debug
  | step _ step ih => exact inv_step ih step

structure Safe (L : Lwps T) (s : Rw T) : Prop where
  exclusive : ∀ t u,(s.pc t).hold = some .writer → (s.pc u).hold ≠ none → u = t
  owner : ∀ t,(s.pc t).hold = some .writer → s.rw_owner &&& RW_WRITE_LOCKED ≠ 0 ∧ s.rw_owner &&& RW_THREAD = L.lwp t
  count : (∀ t,(s.pc t).hold ≠ some .writer) → s.rw_owner &&& RW_WRITE_LOCKED = 0 ∧
    (s.rw_owner >>> RW_READ_COUNT_SHIFT).toNat = (Finset.univ.filter fun t => (s.pc t).hold = some .reader).card
  waiters : ∀ t,t ∈ s.readers ∨ t ∈ s.writers → s.rw_owner &&& RW_HAS_WAITERS ≠ 0
  wanted : ∀ t,t ∈ s.writers → s.rw_owner &&& RW_WRITE_WANTED ≠ 0
  awaited : s.rw_owner &&& RW_THREAD = 0 → (∃ t,t ∈ s.readers ∨ t ∈ s.writers) → ∃ t,(s.pc t).coming = true
  handed : ∀ t given op owner,s.pc t = .woken given op owner → ((op = .reader ∨ s.rw_owner &&& RW_THREAD = L.lwp t) ↔ given = true)
  asserts : ∀ t,s.pc t ≠ .aborted

theorem Inv.safe (inv : Inv L s) : Safe L s where
  exclusive t u writer holds := by
    by_contra other
    exact holds ((inv.good.owner writer).2 u |>.trans (if_neg other))
  owner t writer := ⟨nonzero_locked (inv.writer rfl writer).1,(thread_eq (L.aligned t)).mpr (inv.writer rfl writer).2⟩
  count none_ := by
    have unlocked : (view s.rw_owner).locked = false := by
      rw [← Bool.not_eq_true]
      intro locked
      obtain ⟨owner,-,all⟩ := inv.good.owned locked
      exact none_ owner ((all owner).trans (if_pos rfl))
    refine ⟨locked_zero.mpr unlocked,?_⟩
    obtain ⟨holders,count,all⟩ := inv.good.shared unlocked
    have same : (univ.filter fun t => (s.pc t).hold = some .reader) = holders := by
      ext u
      rw [mem_filter_univ,show (s.pc u).hold = _ from all u]
      split
      · simpa
      · simpa
    rw [same,count,BitVec.toNat_ushiftRight,Nat.shiftRight_eq_div_pow]
    rfl
  waiters t queued := nonzero_waiters (inv.good.waiting.mpr ⟨t,queued⟩)
  wanted t queued := nonzero_wanted (inv.good.wanted ⟨t,queued⟩)
  awaited free some_ := by
    have empty := thread_zero.mp free
    have unlocked : (view s.rw_owner).locked = false := by
      rw [← Bool.not_eq_true]
      intro locked
      obtain ⟨owner,field,-⟩ := inv.good.owned locked
      have := L.pos owner
      have : (view s.rw_owner).field = L.addr owner := field
      omega
    have wanted := inv.good.behind unlocked (inv.good.waiting.mpr some_)
    refine (inv.good.awaited wanted).resolve_left ?_
    rw [inv.good.idle empty]
    exact not_nonempty_empty
  handed _ _ _ _ at_ := inv.woken_iff at_
  asserts t at_ := inv.at_ at_

-- For any number of threads and any interleaving of the five operations.
theorem rwlock_safe (L : Lwps T) (reached : Reachable L s) : Safe L s := (inv_reachable reached).safe

def twoLwps : Lwps (Fin 2) where
  lwp t := if t = 0 then 0x80001000 else 0x80002000
  aligned := by decide
  distinct := by decide
  room := by decide

theorem rwlock_safe_two : ∃ s : Rw (Fin 2),s.pc 0 = .holding .writer ∧ 1 ∈ s.writers ∧ Safe twoLwps s := by
  have start := (Reachable.init false : Reachable twoLwps _).step (.enter (t := 0) .writer rfl)
  have taken := (start.step (.enterLoad (t := 0) rfl)).step (.enterCas (t := 0) rfl (by decide) rfl)
  have held := taken.step (.entered (t := 0) rfl)
  have comes := (held.step (.enter (t := 1) .writer rfl)).step (.enterLoad (t := 1) rfl)
  have looks := (comes.step (.enterBusy (t := 1) false rfl (by decide) nofun)).step (.enterLookup (t := 1) rfl rfl)
  have sleeps := (looks.step (.enterStay (t := 1) rfl (by decide))).step (.enterMark (t := 1) rfl rfl)
  exact ⟨_,rfl,by decide,rwlock_safe twoLwps sleeps⟩
end NetbsdAvr32.Rwlock
