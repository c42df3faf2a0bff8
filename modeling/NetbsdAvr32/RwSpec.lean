import NetbsdAvr32.RwWord

-- What a reader/writer lock with a turnstile may do, as moves of one thread at a time.
namespace NetbsdAvr32.Rwlock
open Finset Function

structure Lock (T : Type) where
  word : View
  chain : Option T
  readers : Finset T
  writers : Finset T
  hold : T → Option Krw
  coming : T → Bool

variable {T : Type} [DecidableEq T]

def Lock.Queued (A : Lock T) (t : T) : Prop := t ∈ A.readers ∨ t ∈ A.writers

def Lock.Sole (A : Lock T) (t : T) (op : Krw) : Prop :=
  A.hold t = some op ∧ (op = .reader → A.word.field = 1)

inductive Move (addr : T → Nat) (A : Lock T) (t : T) : Lock T → Prop where
  | rest : Move addr A t A
  | lock : A.chain = none → Move addr A t { A with chain := some t }
  | unlock : A.chain = some t → Move addr A t { A with chain := none }
  | takeRead : A.word.locked = false → A.word.wanted = false → A.hold t = none → ¬A.Queued t →
      Move addr A t { A with
        word := { A.word with field := A.word.field + 1 }
        hold := Function.update A.hold t (some .reader) }
  | takeWrite (wanted : Bool) (coming : T → Bool) :
      A.word.locked = false → A.word.field = 0 → A.hold t = none → ¬A.Queued t →
      (wanted = false ∨ wanted = A.word.wanted ∧ coming = A.coming) →
      Move addr A t { A with
        word := { A.word with field := addr t, locked := true, wanted := wanted }
        hold := Function.update A.hold t (some .writer)
        coming := coming }
  | dropRead : A.hold t = some .reader → ¬(A.word.field = 1 ∧ A.word.waiters = true) →
      Move addr A t { A with
        word := { A.word with field := A.word.field - 1 }
        hold := Function.update A.hold t none }
  | dropWrite : A.hold t = some .writer → A.word.waiters = false →
      Move addr A t { A with
        word := { A.word with field := 0, locked := false }
        hold := Function.update A.hold t none }
  | queueRead : A.chain = some t → (A.word.locked = true ∨ A.word.wanted = true) → A.hold t = none → ¬A.Queued t →
      Move addr A t { A with
        word := { A.word with waiters := true }
        chain := none
        readers := insert t A.readers }
  | queueWrite (coming : T → Bool) : A.chain = some t → (A.word.locked = true ∨ A.word.field ≠ 0) → A.hold t = none → ¬A.Queued t →
      Move addr A t { A with
        word := { A.word with waiters := true, wanted := true }
        chain := none
        writers := insert t A.writers
        coming := coming }
  | hand {op : Krw} {l : T} : A.chain = some t → A.Sole t op → A.readers.Nonempty → l ∈ A.writers →
      Move addr A t { A with
        word := ⟨addr l,A.word.debug,true,decide (1 < A.writers.card),true⟩
        chain := none
        writers := A.writers.erase l
        hold := Function.update (Function.update A.hold t none) l (some .writer) }
  | wakeWriters {op : Krw} (coming : T → Bool) : A.chain = some t → A.Sole t op → A.readers = ∅ → A.writers.Nonempty →
      (∀ u ∈ A.writers,coming u = true) →
      Move addr A t { A with
        word := ⟨0,A.word.debug,false,true,false⟩
        chain := none
        writers := ∅
        hold := Function.update A.hold t none
        coming := coming }
  | giveReaders {op : Krw} : A.chain = some t → A.Sole t op → A.readers.Nonempty →
      Move addr A t { A with
        word := ⟨A.readers.card,A.word.debug,false,decide (A.writers.card ≠ 0),decide (A.writers.card ≠ 0)⟩
        chain := none
        readers := ∅
        hold := fun u => if u ∈ A.readers then some .reader else Function.update A.hold t none u }
  | downFast : A.hold t = some .writer → A.word.waiters = false →
      Move addr A t { A with
        word := ⟨1,A.word.debug,false,false,false⟩
        hold := Function.update A.hold t (some .reader) }
  | downSlow : A.chain = some t → A.hold t = some .writer →
      Move addr A t { A with
        word := ⟨A.readers.card + 1,A.word.debug,false,decide (A.writers.card ≠ 0),decide (A.writers.card ≠ 0)⟩
        chain := none
        readers := ∅
        hold := fun u => if u ∈ A.readers then some .reader else Function.update A.hold t (some .reader) u }
  | upgrade : A.hold t = some .reader → A.word.field = 1 →
      Move addr A t { A with
        word := { A.word with field := addr t, locked := true }
        hold := Function.update A.hold t (some .writer) }

variable {addr : T → Nat} {A B : Lock T} {t u l : T} {op : Krw}

structure Good (addr : T → Nat) (A : Lock T) : Prop where
  shared : A.word.locked = false →
    ∃ holders : Finset T,holders.card = A.word.field ∧ ∀ t,A.hold t = if t ∈ holders then some .reader else none
  owned : A.word.locked = true →
    ∃ t,A.word.field = addr t ∧ ∀ u,A.hold u = if u = t then some .writer else none
  queued : ∀ t,A.Queued t → A.hold t = none
  apart : ∀ t,t ∈ A.readers → t ∉ A.writers
  waiting : A.word.waiters = true ↔ ∃ t,A.Queued t
  wanted : A.writers.Nonempty → A.word.wanted = true
  behind : A.word.locked = false → A.word.waiters = true → A.word.wanted = true
  awaited : A.word.wanted = true → A.writers.Nonempty ∨ ∃ t,A.coming t = true
  idle : A.word.field = 0 → A.writers = ∅

section
variable (good : Good addr A)
include good

theorem Good.locked_of_writer (holds : A.hold t = some .writer) : A.word.locked = true := by
  cases locked : A.word.locked with
  | true => rfl
  | false =>
    obtain ⟨holders,-,all⟩ := good.shared locked
    rw [all t] at holds
    split at holds <;> simp at holds

theorem Good.unlocked_of_reader (holds : A.hold t = some .reader) : A.word.locked = false := by
  cases locked : A.word.locked with
  | false => rfl
  | true =>
    obtain ⟨owner,-,all⟩ := good.owned locked
    rw [all t] at holds
    split at holds <;> simp at holds

theorem Good.owner (holds : A.hold t = some .writer) :
    A.word.field = addr t ∧ ∀ u,A.hold u = if u = t then some .writer else none := by
  obtain ⟨owner,field,all⟩ := good.owned (good.locked_of_writer holds)
  have same : t = owner := by
    rw [all t] at holds
    by_contra other
    rw [if_neg other] at holds
    cases holds
  subst same
  exact ⟨field,all⟩

theorem Good.field_pos (holds : A.hold t = some .reader) : 0 < A.word.field := by
  obtain ⟨holders,count,all⟩ := good.shared (good.unlocked_of_reader holds)
  rw [all t] at holds
  have mem : t ∈ holders := by
    by_contra out
    rw [if_neg out] at holds
    cases holds
  rw [← count]
  exact card_pos.mpr ⟨t,mem⟩

theorem Good.others (sole : A.Sole t op) (ne : u ≠ t) : A.hold u = none := by
  obtain ⟨holds,one⟩ := sole
  cases op with
  | writer => rw [(good.owner holds).2 u,if_neg ne]
  | reader =>
    obtain ⟨holders,count,all⟩ := good.shared (good.unlocked_of_reader holds)
    rw [one rfl] at count
    obtain ⟨v,rfl⟩ := card_eq_one.mp count
    have here := all t
    rw [holds] at here
    have same : t = v := by
      by_contra other
      rw [if_neg (by simpa using other)] at here
      cases here
    subst same
    rw [all u,if_neg (by simpa using ne)]

theorem Good.unqueued (quiet : A.word.waiters = false) : A.readers = ∅ ∧ A.writers = ∅ := by
  have none_ : ¬∃ t,A.Queued t := by
    rw [← good.waiting,quiet]
    exact Bool.false_ne_true
  constructor
  · exact eq_empty_of_forall_notMem fun t mem => none_ ⟨t,.inl mem⟩
  · exact eq_empty_of_forall_notMem fun t mem => none_ ⟨t,.inr mem⟩
end
variable {hold : T → Option Krw}

theorem shared_insert {holders : Finset T} (all : ∀ u,hold u = if u ∈ holders then some .reader else none)
    (t u : T) : update hold t (some .reader) u = if u ∈ insert t holders then some .reader else none := by
  by_cases same : u = t
  · subst same
    simp
  · simp [update_of_ne same,all u,same]

theorem shared_erase {holders : Finset T} (all : ∀ u,hold u = if u ∈ holders then some .reader else none)
    (t u : T) : update hold t none u = if u ∈ holders.erase t then some .reader else none := by
  by_cases same : u = t
  · subst same
    simp
  · simp [update_of_ne same,all u,same]

theorem owned_update (others : ∀ u,u ≠ t → hold u = none) (u : T) :
    update hold t (some .writer) u = if u = t then some .writer else none := by
  by_cases same : u = t
  · subst same
    simp
  · rw [update_of_ne same,others u same,if_neg same]

theorem Good.free_none (good : Good addr A) (unlocked : A.word.locked = false) (empty : A.word.field = 0) (u : T) : A.hold u = none := by
  obtain ⟨holders,count,all⟩ := good.shared unlocked
  rw [empty,card_eq_zero] at count
  rw [all u,count,if_neg (notMem_empty u)]

theorem good_takeRead (good : Good addr A) (unlocked : A.word.locked = false) (unwanted : A.word.wanted = false)
    (idle : A.hold t = none) (out : ¬A.Queued t) :
    Good addr { A with
      word := { A.word with field := A.word.field + 1 }
      hold := update A.hold t (some .reader) } where
  shared _ := by
    obtain ⟨holders,count,all⟩ := good.shared unlocked
    have fresh : t ∉ holders := by
      intro mem
      rw [all t,if_pos mem] at idle
      cases idle
    exact ⟨insert t holders,by rw [card_insert_of_notMem fresh,count],shared_insert all t⟩
  owned locked := by
    rw [show A.word.locked = true from locked] at unlocked
    cases unlocked
  queued u waits := by
    have ne : u ≠ t := fun same => out (same ▸ waits)
    exact (update_of_ne ne ..).trans (good.queued u waits)
  apart := good.apart
  waiting := good.waiting
  wanted := good.wanted
  behind := good.behind
  awaited := good.awaited
  idle empty := absurd empty (Nat.succ_ne_zero _)

theorem good_takeWrite (pos : ∀ t,0 < addr t) (good : Good addr A) {wanted : Bool} {coming : T → Bool} (unlocked : A.word.locked = false)
    (empty : A.word.field = 0) (out : ¬A.Queued t)
    (keep : wanted = false ∨ wanted = A.word.wanted ∧ coming = A.coming) :
    Good addr { A with
      word := { A.word with field := addr t, locked := true, wanted := wanted }
      hold := update A.hold t (some .writer)
      coming := coming } where
  shared locked := nomatch locked
  owned _ := ⟨t,rfl,owned_update fun u _ => good.free_none unlocked empty u⟩
  queued u waits := by
    have ne : u ≠ t := fun same => out (same ▸ waits)
    exact (update_of_ne ne ..).trans (good.queued u waits)
  apart := good.apart
  waiting := good.waiting
  wanted some_ := by
    rw [show A.writers = ∅ from good.idle empty] at some_
    exact absurd some_ not_nonempty_empty
  behind locked := nomatch locked
  awaited set := by
    rcases keep with clear | ⟨same,rfl⟩
    · exact absurd (show wanted = true from set) (by rw [clear]; exact Bool.false_ne_true)
    · exact good.awaited (same ▸ set)
  idle zero := absurd zero (pos t).ne'

theorem good_dropRead (good : Good addr A) (holds : A.hold t = some .reader) (keeps : ¬(A.word.field = 1 ∧ A.word.waiters = true)) :
    Good addr { A with
      word := { A.word with field := A.word.field - 1 }
      hold := update A.hold t none } where
  shared unlocked := by
    obtain ⟨holders,count,all⟩ := good.shared unlocked
    have mem : t ∈ holders := by
      by_contra out
      rw [all t,if_neg out] at holds
      cases holds
    exact ⟨holders.erase t,by rw [card_erase_of_mem mem,count],shared_erase all t⟩
  owned locked := absurd (show A.word.locked = true from locked) (by rw [good.unlocked_of_reader holds]; exact Bool.false_ne_true)
  queued u waits := by
    by_cases same : u = t
    · subst same
      exact update_self ..
    · exact (update_of_ne same ..).trans (good.queued u waits)
  apart := good.apart
  waiting := good.waiting
  wanted := good.wanted
  behind := good.behind
  awaited := good.awaited
  idle empty := by
    have pos := good.field_pos holds
    have one : A.word.field = 1 := by
      have : A.word.field - 1 = 0 := empty
      omega
    refine (good.unqueued ?_).2
    rw [← Bool.not_eq_true]
    exact fun waiting => keeps ⟨one,waiting⟩

theorem good_dropWrite (good : Good addr A) (holds : A.hold t = some .writer) (quiet : A.word.waiters = false) :
    Good addr { A with
      word := { A.word with field := 0, locked := false }
      hold := update A.hold t none } where
  shared _ := by
    refine ⟨∅,rfl,fun u => ?_⟩
    rw [if_neg (notMem_empty u)]
    by_cases same : u = t
    · subst same
      exact update_self ..
    · exact (update_of_ne same ..).trans (by rw [(good.owner holds).2 u,if_neg same])
  owned locked := nomatch locked
  queued u waits := by
    by_cases same : u = t
    · subst same
      exact update_self ..
    · exact (update_of_ne same ..).trans (good.queued u waits)
  apart := good.apart
  waiting := good.waiting
  wanted := good.wanted
  behind _ waiting := absurd (show A.word.waiters = true from waiting) (by rw [quiet]; exact Bool.false_ne_true)
  awaited := good.awaited
  idle _ := (good.unqueued quiet).2

theorem good_queueRead (good : Good addr A) (busy : A.word.locked = true ∨ A.word.wanted = true)
    (idle : A.hold t = none) (out : ¬A.Queued t) (chain : Option T) :
    Good addr { A with
      word := { A.word with waiters := true }
      chain := chain
      readers := insert t A.readers } where
  shared := good.shared
  owned := good.owned
  queued u waits := by
    rcases waits with mem | mem
    · rcases mem_insert.mp mem with rfl | mem
      · exact idle
      · exact good.queued u (.inl mem)
    · exact good.queued u (.inr mem)
  apart u mem := by
    rcases mem_insert.mp mem with rfl | mem
    · exact fun mem => out (.inr mem)
    · exact good.apart u mem
  waiting := ⟨fun _ => ⟨t,.inl (mem_insert_self ..)⟩,fun _ => rfl⟩
  wanted := good.wanted
  behind unlocked _ := by
    rcases busy with locked | wanted
    · rw [show A.word.locked = false from unlocked] at locked
      cases locked
    · exact wanted
  awaited := good.awaited
  idle := good.idle

theorem good_queueWrite (good : Good addr A) (busy : A.word.locked = true ∨ A.word.field ≠ 0) (pos : ∀ t,0 < addr t)
    (idle : A.hold t = none) (out : ¬A.Queued t) (chain : Option T) (coming : T → Bool) :
    Good addr { A with
      word := { A.word with waiters := true, wanted := true }
      chain := chain
      writers := insert t A.writers
      coming := coming } where
  shared := good.shared
  owned := good.owned
  queued u waits := by
    rcases waits with mem | mem
    · exact good.queued u (.inl mem)
    rcases mem_insert.mp mem with rfl | mem
    · exact idle
    · exact good.queued u (.inr mem)
  apart u mem := by
    intro other
    rcases mem_insert.mp other with rfl | other
    · exact out (.inl mem)
    · exact good.apart u mem other
  waiting := ⟨fun _ => ⟨t,.inr (mem_insert_self ..)⟩,fun _ => rfl⟩
  wanted _ := rfl
  behind _ _ := rfl
  awaited _ := .inl ⟨t,mem_insert_self ..⟩
  idle empty := by
    rcases busy with locked | held
    · obtain ⟨owner,field,-⟩ := good.owned locked
      have : A.word.field = 0 := empty
      have := pos owner
      omega
    · exact absurd empty held

theorem good_hand (pos : ∀ t,0 < addr t) (good : Good addr A) (sole : A.Sole t op) (some_ : A.readers.Nonempty) (first : l ∈ A.writers) (chain : Option T) :
    Good addr { A with
      word := ⟨addr l,A.word.debug,true,decide (1 < A.writers.card),true⟩
      chain := chain
      writers := A.writers.erase l
      hold := update (update A.hold t none) l (some .writer) } where
  shared locked := nomatch locked
  owned _ := by
    refine ⟨l,rfl,owned_update fun u _ => ?_⟩
    by_cases same : u = t
    · subst same
      exact update_self ..
    · rw [update_of_ne same,good.others sole same]
  queued u waits := by
    have ne : u ≠ l := by
      rintro rfl
      rcases waits with mem | mem
      · exact good.apart u mem first
      · exact notMem_erase u _ mem
    refine (update_of_ne ne ..).trans ?_
    by_cases same : u = t
    · subst same
      exact update_self ..
    · rw [update_of_ne same,good.others sole same]
  apart u mem other := good.apart u mem (mem_of_mem_erase other)
  waiting := ⟨fun _ => some_.imp fun u mem => .inl mem,fun _ => rfl⟩
  wanted more := by
    have : 0 < (A.writers.erase l).card := card_pos.mpr more
    rw [card_erase_of_mem first] at this
    exact decide_eq_true (by omega)
  behind locked := nomatch locked
  awaited more := by
    have : 1 < A.writers.card := of_decide_eq_true more
    refine .inl (card_pos.mp ?_)
    rw [card_erase_of_mem first]
    omega
  idle empty := absurd empty (pos l).ne'

section
variable (good : Good addr A)
include good

theorem good_wakeWriters {coming : T → Bool} (sole : A.Sole t op) (none_ : A.readers = ∅) (some_ : A.writers.Nonempty)
    (woken : ∀ u ∈ A.writers,coming u = true) (chain : Option T) :
    Good addr { A with
      word := ⟨0,A.word.debug,false,true,false⟩
      chain := chain
      writers := ∅
      hold := update A.hold t none
      coming := coming } where
  shared _ := by
    refine ⟨∅,rfl,fun u => ?_⟩
    by_cases same : u = t
    · subst same
      exact update_self ..
    · exact (update_of_ne same ..).trans (good.others sole same)
  owned locked := nomatch locked
  queued u waits := by
    rcases waits with mem | mem
    · exact absurd (none_ ▸ mem) (notMem_empty u)
    · exact absurd mem (notMem_empty u)
  apart u _ := notMem_empty u
  waiting := by
    refine ⟨fun set => (nomatch set),fun ⟨u,waits⟩ => ?_⟩
    rcases waits with mem | mem
    · exact absurd (none_ ▸ mem) (notMem_empty u)
    · exact absurd mem (notMem_empty u)
  wanted _ := rfl
  behind _ set := nomatch set
  awaited _ := .inr (some_.imp woken)
  idle _ := rfl

theorem good_readers {left : Finset T}
    (rest : ∀ u,hold u = if u ∈ left then some .reader else none) (busy : ∀ u ∈ left,¬A.Queued u)
    (some_ : A.readers.Nonempty ∨ left.Nonempty) (chain : Option T) :
    Good addr { A with
      word := ⟨A.readers.card + left.card,A.word.debug,false,decide (A.writers.card ≠ 0),decide (A.writers.card ≠ 0)⟩
      chain := chain
      readers := ∅
      hold := fun u => if u ∈ A.readers then some .reader else hold u } where
  shared _ := by
    have disjoint : Disjoint A.readers left := disjoint_left.mpr fun u mem held => busy u held (.inl mem)
    refine ⟨A.readers ∪ left,card_union_of_disjoint disjoint,fun u => ?_⟩
    show (if u ∈ A.readers then some .reader else hold u) = _
    by_cases mem : u ∈ A.readers
    · rw [if_pos mem,if_pos (mem_union_left _ mem)]
    · simp only [mem,mem_union,rest u,if_false,false_or]
  owned locked := nomatch locked
  queued u waits := by
    rcases waits with mem | mem
    · exact absurd mem (notMem_empty u)
    show (if u ∈ A.readers then some .reader else hold u) = none
    rw [if_neg (fun other => good.apart u other mem),rest u,if_neg (fun held => busy u held (.inr mem))]
  apart u mem := absurd mem (notMem_empty u)
  waiting := by
    constructor
    · intro set
      have some_ : A.writers.card ≠ 0 := of_decide_eq_true set
      exact (card_pos.mp (Nat.pos_of_ne_zero some_)).imp fun u mem => .inr mem
    rintro ⟨u,mem | mem⟩
    · exact absurd mem (notMem_empty u)
    · exact decide_eq_true (card_pos.mpr ⟨u,mem⟩).ne'
  wanted some_ := decide_eq_true (card_pos.mpr some_).ne'
  behind _ set := set
  awaited set := .inl (card_pos.mp (Nat.pos_of_ne_zero (of_decide_eq_true set)))
  idle empty := by
    have zero : A.readers.card + left.card = 0 := empty
    rcases some_ with some_ | some_
    · have := card_pos.mpr some_
      omega
    have := card_pos.mpr some_
    omega

theorem sole_left (sole : A.Sole t op) (u : T) :
    update A.hold t none u = if u ∈ (∅ : Finset T) then some .reader else none := by
  rw [if_neg (notMem_empty u)]
  by_cases same : u = t
  · subst same
    exact update_self ..
  · rw [update_of_ne same,good.others sole same]

theorem down_left (holds : A.hold t = some .writer) (u : T) :
    update A.hold t (some .reader) u = if u ∈ ({t} : Finset T) then some .reader else none := by
  by_cases same : u = t
  · subst same
    simp
  · rw [update_of_ne same,(good.owner holds).2 u,if_neg same,if_neg (by simpa using same)]

theorem good_downFast (holds : A.hold t = some .writer) (quiet : A.word.waiters = false) :
    Good addr { A with
      word := ⟨1,A.word.debug,false,false,false⟩
      hold := update A.hold t (some .reader) } := by
  obtain ⟨readers,writers⟩ := good.unqueued quiet
  have busy : ∀ u ∈ ({t} : Finset T),¬A.Queued u := by
    rintro u - waits
    rcases waits with mem | mem
    · exact notMem_empty u (readers ▸ mem)
    · exact notMem_empty u (writers ▸ mem)
  have given := good_readers good (down_left good holds) busy (.inr ⟨t,mem_singleton_self t⟩) A.chain
  simpa [readers,writers] using given
end

theorem good_upgrade (pos : ∀ t,0 < addr t) (good : Good addr A) (holds : A.hold t = some .reader) (one : A.word.field = 1) :
    Good addr { A with
      word := { A.word with field := addr t, locked := true }
      hold := update A.hold t (some .writer) } where
  shared locked := nomatch locked
  owned _ := ⟨t,rfl,owned_update fun u ne => good.others ⟨holds,fun _ => one⟩ ne⟩
  queued u waits := by
    have ne : u ≠ t := by
      rintro rfl
      rw [good.queued u waits] at holds
      cases holds
    exact (update_of_ne ne ..).trans (good.queued u waits)
  apart := good.apart
  waiting := good.waiting
  wanted := good.wanted
  behind locked := nomatch locked
  awaited := good.awaited
  idle empty := absurd empty (pos t).ne'

theorem Good.rechain (good : Good addr A) (chain : Option T) : Good addr { A with chain := chain } where
  shared := good.shared
  owned := good.owned
  queued := good.queued
  apart := good.apart
  waiting := good.waiting
  wanted := good.wanted
  behind := good.behind
  awaited := good.awaited
  idle := good.idle

theorem good_move (pos : ∀ t,0 < addr t) (good : Good addr A) (move : Move addr A t B) : Good addr B := by
  cases move with
  | rest => exact good
  | lock _ => exact good.rechain _
  | unlock _ => exact good.rechain _
  | takeRead unlocked unwanted idle out => exact good_takeRead good unlocked unwanted idle out
  | takeWrite _ _ unlocked empty _ out keep => exact good_takeWrite pos good unlocked empty out keep
  | dropRead holds keeps => exact good_dropRead good holds keeps
  | dropWrite holds quiet => exact good_dropWrite good holds quiet
  | queueRead _ busy idle out => exact good_queueRead good busy idle out _
  | queueWrite _ _ busy idle out => exact good_queueWrite good busy pos idle out _ _
  | hand _ sole some_ first => exact good_hand pos good sole some_ first _
  | wakeWriters _ _ sole none_ some_ woken => exact good_wakeWriters good sole none_ some_ woken _
  | giveReaders _ sole some_ => exact good_readers good (sole_left good sole) (fun u mem => absurd mem (notMem_empty u)) (.inl some_) _
  | downFast holds quiet => exact good_downFast good holds quiet
  | downSlow _ holds =>
    refine good_readers good (down_left good holds) (fun u mem waits => ?_) (.inr ⟨t,mem_singleton_self t⟩) _
    rw [mem_singleton.mp mem] at waits
    rw [good.queued t waits] at holds
    cases holds
  | upgrade holds one => exact good_upgrade pos good holds one

theorem keeps_writer (good : Good addr A) (pos : ∀ t,0 < addr t) (move : Move addr A u B) (ne : u ≠ t) (holds : A.hold t = some .writer) :
    B.word = A.word ∨ B.word.waiters = true ∧ A.chain = some u := by
  have none_ : A.hold u = none := by rw [(good.owner holds).2 u,if_neg ne]
  have locked := good.locked_of_writer holds
  have idle {op : Krw} (other : A.hold u = some op) : False := by
    rw [none_] at other
    cases other
  cases move with
  | rest => exact .inl rfl
  | lock _ => exact .inl rfl
  | unlock _ => exact .inl rfl
  | takeRead unlocked _ _ _ | takeWrite _ _ unlocked _ _ _ _ => exact Bool.noConfusion (locked.symm.trans unlocked)
  | dropRead other _ => exact (idle other).elim
  | dropWrite other _ => exact (idle other).elim
  | queueRead chain _ _ _ => exact .inr ⟨rfl,chain⟩
  | queueWrite _ chain _ _ _ => exact .inr ⟨rfl,chain⟩
  | hand _ sole _ _ | wakeWriters _ _ sole _ _ _ | giveReaders _ sole _ => exact (idle sole.1).elim
  | downFast other _ => exact (idle other).elim
  | downSlow _ other => exact (idle other).elim
  | upgrade other _ => exact (idle other).elim

theorem marked_read {v : View} (waiters : v.waiters = true) : { v with waiters := true } = v := by
  cases v
  simp_all

theorem marked_write {v : View} (waiters : v.waiters = true) (wanted : v.wanted = true) : { v with wanted := true, waiters := true } = v := by
  cases v
  simp_all

theorem keeps_reader (good : Good addr A) (move : Move addr A u B) (ne : u ≠ t) (sole : A.Sole t .reader) (waiting : A.word.waiters = true) :
    B.word = A.word := by
  obtain ⟨holds,one⟩ := sole
  have none_ := good.others ⟨holds,one⟩ ne
  have field := one rfl
  have unlocked := good.unlocked_of_reader holds
  have wanted := good.behind unlocked waiting
  have idle {op : Krw} (other : A.hold u = some op) : False := by
    rw [none_] at other
    cases other
  cases move with
  | rest => rfl
  | lock _ => rfl
  | unlock _ => rfl
  | takeRead _ unwanted _ _ => exact Bool.noConfusion (wanted.symm.trans unwanted)
  | takeWrite _ _ _ empty _ _ _ => omega
  | dropRead other _ => exact (idle other).elim
  | dropWrite other _ => exact (idle other).elim
  | queueRead _ _ _ _ => exact marked_read waiting
  | queueWrite _ _ _ _ _ => exact marked_write waiting wanted
  | hand _ other _ _ | wakeWriters _ _ other _ _ _ | giveReaders _ other _ => exact (idle other.1).elim
  | downFast other _ => exact (idle other).elim
  | downSlow _ other => exact (idle other).elim
  | upgrade other _ => exact (idle other).elim

theorem keeps_queues (move : Move addr A u B) (ne : u ≠ t) (chain : A.chain = some t) : B.readers = A.readers ∧ B.writers = A.writers := by
  have other : A.chain ≠ some u := by
    rw [chain]
    exact fun same => ne (Option.some.inj same).symm
  cases move with
  | rest => exact ⟨rfl,rfl⟩
  | lock _ => exact ⟨rfl,rfl⟩
  | unlock _ => exact ⟨rfl,rfl⟩
  | takeRead _ _ _ _ => exact ⟨rfl,rfl⟩
  | takeWrite _ _ _ _ _ _ _ => exact ⟨rfl,rfl⟩
  | dropRead _ _ => exact ⟨rfl,rfl⟩
  | dropWrite _ _ => exact ⟨rfl,rfl⟩
  | queueRead mine _ _ _ => exact absurd mine other
  | queueWrite _ mine _ _ _ => exact absurd mine other
  | hand mine _ _ _ => exact absurd mine other
  | wakeWriters _ mine _ _ _ _ => exact absurd mine other
  | giveReaders mine _ _ => exact absurd mine other
  | downFast _ _ => exact ⟨rfl,rfl⟩
  | downSlow mine _ => exact absurd mine other
  | upgrade _ _ => exact ⟨rfl,rfl⟩
end NetbsdAvr32.Rwlock
