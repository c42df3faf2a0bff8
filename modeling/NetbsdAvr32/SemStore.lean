import NetbsdAvr32.SemEvent
import NetbsdAvr32.Packing

-- sys/kern/sysv_sem.c: all sets share one array of semaphores, which IPC_RMID
-- compacts and semrealloc copies.
namespace NetbsdAvr32.Sysvsem
open Packing Function List Nat

-- `base` is _sem_base, as an index into sem.
structure SetHead where
  alloc : Bool
  seq : Nat
  key : Int
  base : Nat
  nsems : Nat

structure Store where
  semmni : Nat
  semmns : Nat
  semmnu : Nat
  sema : Nat → SetHead
  sem : Nat → Sem
  semtot : Nat
  semuList : List SemUndo
  waiters : List Waiter
  semReallocState : Bool

def noSem : Sem := { semval := 0, semncnt := 0, semzcnt := 0 }
def noSet : SetHead := { alloc := false, seq := 0, key := 0, base := 0, nsems := 0 }
def Store.view (s : Store) (ix : Nat) : List Sem := (List.range (s.sema ix).nsems).map fun i => s.sem ((s.sema ix).base + i)
def SetHead.semidDs (set : SetHead) (sems : List Sem) : SemidDs := { alloc := set.alloc, seq := set.seq, key := set.key, sems := if set.alloc then sems else [] }

-- The sets as the calls see them that reach the array through _sem_base.
def Store.world (s : Store) : World where
  semmni := s.semmni
  semmns := s.semmns
  semmnu := s.semmnu
  sema ix := (s.sema ix).semidDs (s.view ix)
  semtot := s.semtot
  semuList := s.semuList
  waiters := s.waiters
  semReallocState := s.semReallocState

def Store.owner (s : Store) (j : Nat) : Option Nat :=
  (List.range s.semmni).find? fun ix => decide ((s.sema ix).alloc = true ∧ (s.sema ix).base ≤ j ∧ j < (s.sema ix).base + (s.sema ix).nsems)

-- What such a call has left in the sets, in the array.
def Store.absorb (s : Store) (w : World) : Store :=
  { s with
    sem := fun j =>
      match s.owner j with
      | none => s.sem j
      | some ix => ((w.sema ix).sems[j - (s.sema ix).base]?).getD (s.sem j)
    semuList := w.semuList
    waiters := w.waiters }

def Store.semget (c : Seminfo) (s : Store) (key nsems : Nat) : Except Errno Store :=
  if nsems = 0 ∨ c.semmsl < nsems then .error .einval
  else if s.semmns - s.semtot < nsems then .error .enospc
  else
    match (List.range s.semmni).find? fun ix => (s.sema ix).alloc = false with
    | none => .error .enospc
    | some ix =>
      .ok { s with
        sema := Function.update s.sema ix { alloc := true, seq := ((s.sema ix).seq + 1) % 32768, key := key, base := s.semtot, nsems := nsems }
        sem := fun j => if s.semtot ≤ j ∧ j < s.semtot + nsems then noSem else s.sem j
        semtot := s.semtot + nsems }

-- for (i = from; i < to; i++) sem[i] = sem[i + n]
def slideDown (sem : Nat → Sem) (from_ to_ n : Nat) : Nat → Sem := (List.range' from_ (to_ - from_)).foldl (fun sem i => Function.update sem i (sem (i + n))) sem

def Store.rmid (s : Store) (ix : Nat) : Store :=
  let gone := s.sema ix
  let semtot := s.semtot - gone.nsems
  { s with
    sema := fun i =>
      let set := s.sema i
      let set := if i < s.semmni ∧ set.alloc = true ∧ gone.base < set.base then { set with base := set.base - gone.nsems } else set
      if i = ix then { set with alloc := false } else set
    sem := slideDown s.sem gone.base semtot gone.nsems
    semtot := semtot
    semuList := semundoClear ix none s.semuList }

-- The new tables while semrealloc fills them; `j` semaphores have been copied.
structure Copy where
  j : Nat
  sema : Nat → SetHead
  sem : Nat → Sem

def copySet (s : Store) (copy : Copy) (i : Nat) : Copy :=
  if (s.sema i).alloc = true then
    { j := copy.j + (s.sema i).nsems
      sema := Function.update copy.sema i { s.sema i with base := copy.j }
      sem := fun k => if copy.j ≤ k ∧ k < copy.j + (s.sema i).nsems then s.sem ((s.sema i).base + (k - copy.j)) else copy.sem k }
  else copy

def copySets (s : Store) (n : Nat) : Copy := (List.range n).foldl (copySet s) { j := 0, sema := fun _ => noSet, sem := fun _ => noSem }

-- There is a set behind the new table, or one of the two other tables is too small.
def Store.tooSmall (s : Store) (mni mns mnu : Nat) : Prop :=
  (∃ ix < s.semmni,mni ≤ ix ∧ (s.sema ix).alloc = true) ∨ mns < s.semtot ∨ mnu < s.semuList.length

instance (s : Store) (mni mns mnu : Nat) : Decidable (s.tooSmall mni mns mnu) := inferInstanceAs (Decidable (_ ∨ _ ∨ _))
def Store.semreallocStart (s : Store) : Store := { s with semReallocState := true }

-- The rest of semrealloc once nobody sleeps; its error return leaves sem_realloc_state set.
def Store.semreallocEnd (s : Store) (mni mns mnu : Nat) : Store :=
  if s.tooSmall mni mns mnu then s
  else
    { sema := (copySets s s.semmni).sema
      sem := (copySets s s.semmni).sem
      semtot := s.semtot
      semuList := s.semuList.reverse
      waiters := s.waiters
      semmni := mni
      semmns := mns
      semmnu := mnu
      semReallocState := false }

open Keyed
variable {c : Seminfo} {s s' : Store} {w w' : World} {p ix k n : Nat} {result : Option Ended} {event : Event} {sems : List Sem}

def Store.Tiled (s : Store) : Prop := Packed (fun ix => (s.sema ix).alloc = true) (fun ix => (s.sema ix).base) (fun ix => (s.sema ix).nsems) s.semtot

structure StoreOk (c : Seminfo) (s : Store) : Prop where
  tiled : s.Tiled
  inv : Inv c s.world
  aimed : Aimed s.world

theorem StoreOk.undo (ok : StoreOk c s) : UndoOk c s.semmnu s.semuList := ok.inv.undo

theorem view_length (s : Store) (ix : Nat) : (s.view ix).length = (s.sema ix).nsems := by
  unfold Store.view
  rw [length_map,length_range]

theorem view_eq (length : sems.length = (s.sema ix).nsems) (same : ∀ i < (s.sema ix).nsems,sems[i]? = some (s.sem ((s.sema ix).base + i))) : s.view ix = sems := by
  refine ext_getElem? fun i => ?_
  unfold Store.view
  rw [getElem?_map]
  rcases lt_or_ge i (s.sema ix).nsems with low | high
  · rw [getElem?_range low,same i low]
    rfl
  rw [getElem?_eq_none (by simpa using high),getElem?_eq_none (by omega)]
  rfl

theorem view_moved (size : (s'.sema ix).nsems = (s.sema k).nsems) (same : ∀ i < (s.sema k).nsems,s'.sem ((s'.sema ix).base + i) = s.sem ((s.sema k).base + i)) :
    s'.view ix = s.view k := by
  refine view_eq ((view_length ..).trans size.symm) fun i low => ?_
  rw [size] at low
  rw [same i low]
  unfold Store.view
  rw [getElem?_map,getElem?_range low]
  rfl

theorem semidDs_free {set : SetHead} (free : ¬set.alloc = true) (sems sems' : List Sem) : set.semidDs sems = set.semidDs sems' := by
  unfold SetHead.semidDs
  rw [if_neg free,if_neg free]

theorem world_sems (live : (s.sema ix).alloc = true) : (s.world.sema ix).sems = s.view ix := if_pos live

theorem free_sems (free : ¬(s.sema ix).alloc = true) : SemsOk (s.world.sema ix).sems := by
  have none_ : (s.world.sema ix).sems = [] := if_neg free
  rw [none_]
  exact .nil

theorem Aimed.like (aimed : Aimed w) (sets : ∀ ix,(w'.sema ix).alloc = (w.sema ix).alloc ∧ (w'.sema ix).seq = (w.sema ix).seq)
    (lengths : ∀ ix,(w.sema ix).alloc = true → (w'.sema ix).sems.length = (w.sema ix).sems.length) (mni : w'.semmni = w.semmni) (undo : w'.semuList = w.semuList)
    (sleepers : w'.waiters = w.waiters) : Aimed w' where
  low ix used := by
    rw [(sets ix).1] at used
    rw [mni]
    exact aimed.low ix used
  held q ix n some_ := by
    rw [undo] at some_
    have held := aimed.held q ix n some_
    unfold Held
    rw [(sets ix).1,lengths ix held.1]
    exact held
  inside x mem serves sop of := by
    rw [sleepers] at mem
    unfold World.serves at serves
    rw [(sets _).1,(sets _).2] at serves
    rw [lengths _ serves.1]
    exact aimed.inside x mem serves sop of

section Get
theorem semget_spec {key nsems : Nat} (ok : StoreOk c s) (ran : s.semget c key nsems = .ok s') : s'.Tiled ∧ semgetNew c s.world key nsems = .ok s'.world := by
  unfold Store.semget at ran
  split at ran
  · cases ran
  next bounds =>
    split at ran
    · cases ran
    next room =>
      split at ran
      · cases ran
      next i found =>
        cases ran
        have free : (s.sema i).alloc = false := by simpa using find?_some found
        have some_ : 0 < nsems := Nat.pos_of_ne_zero (not_or.mp bounds).1
        have fresh : ¬(s.sema i).alloc = true := by rw [free]; exact Bool.false_ne_true
        have pushed := ok.tiled.push fresh some_
        constructor
        · unfold Store.Tiled
          dsimp only
          convert pushed using 1
          · funext ix
            by_cases here : ix = i
            · subst here
              simp
            · simp [here]
          · funext ix
            by_cases here : ix = i
            · subst here
              rw [update_self,update_self]
            · rw [update_of_ne here,update_of_ne here]
          funext ix
          by_cases here : ix = i
          · subst here
            rw [update_self,update_self]
          · rw [update_of_ne here,update_of_ne here]
        unfold semgetNew
        have found' : (range s.world.semmni).find? (fun ix => (s.world.sema ix).alloc = false) = some i := found
        rw [if_neg bounds,if_neg (show ¬s.world.semmns - s.world.semtot < nsems from room)]
        simp only [found']
        congr 1
        unfold Store.world
        dsimp only
        congr 1
        funext ix
        by_cases here : ix = i
        · subst here
          rw [update_self,update_self]
          congr 1
          refine (view_eq (by rw [length_replicate]; dsimp only; rw [update_self]) fun t low => ?_).symm
          dsimp only at low ⊢
          rw [update_self] at low ⊢
          rw [getElem?_replicate,if_pos low,if_pos ⟨Nat.le_add_right ..,Nat.add_lt_add_left low _⟩]
          rfl
        rw [update_of_ne here,update_of_ne here]
        by_cases live : (s.sema ix).alloc = true
        · congr 1
          refine (view_moved (congrArg SetHead.nsems (update_of_ne here ..)) fun t low => ?_).symm
          have inside := ok.tiled.within ix live
          dsimp only at inside ⊢
          rw [update_of_ne here,if_neg (by omega)]
        · exact semidDs_free live _ _
end Get
section Rmid
theorem slideDown_eq (sem : Nat → Sem) (from_ to_ n j : Nat) : slideDown sem from_ to_ n j = if from_ ≤ j ∧ j < to_ then sem (j + n) else sem j := by
  have upto (m : Nat) : ∀ j,(range' from_ m).foldl (fun sem i => update sem i (sem (i + n))) sem j =
      if from_ ≤ j ∧ j < from_ + m then sem (j + n) else sem j := by
    induction m with
    | zero =>
      intro j
      rw [if_neg (by omega)]
      rfl
    | succ m ih =>
      intro j
      rw [range'_1_concat,foldl_append]
      show update _ _ _ j = _
      by_cases here : j = from_ + m
      · subst here
        rw [update_self,ih,if_neg (by omega),if_pos (by omega)]
      rw [update_of_ne here,ih]
      split
      · rw [if_pos (by omega)]
      · rw [if_neg (by omega)]
  unfold slideDown
  rw [upto]
  congr 1
  exact propext ⟨by omega,by omega⟩

theorem rmid_base (ok : StoreOk c s) {i : Nat} (live : (s.sema i).alloc = true) (ne : i ≠ ix) :
    ((s.rmid ix).sema i).base = if (s.sema ix).base < (s.sema i).base then (s.sema i).base - (s.sema ix).nsems else (s.sema i).base := by
  have low : i < s.semmni := ok.aimed.low i live
  unfold Store.rmid
  dsimp only
  rw [if_neg ne]
  by_cases behind : (s.sema ix).base < (s.sema i).base
  · rw [if_pos ⟨low,live,behind⟩,if_pos behind]
  · rw [if_neg (fun all => behind all.2.2),if_neg behind]

theorem rmid_alloc (s : Store) (ix i : Nat) : ((s.rmid ix).sema i).alloc = if i = ix then false else (s.sema i).alloc := by
  unfold Store.rmid
  dsimp only
  split
  · rfl
  · split <;> rfl

theorem rmid_seq (s : Store) (ix i : Nat) : ((s.rmid ix).sema i).seq = (s.sema i).seq := by
  unfold Store.rmid
  dsimp only
  split <;> split <;> rfl

theorem rmid_nsems (s : Store) (ix i : Nat) : ((s.rmid ix).sema i).nsems = (s.sema i).nsems := by
  unfold Store.rmid
  dsimp only
  split <;> split <;> rfl

theorem rmid_tiled (ok : StoreOk c s) (live : (s.sema ix).alloc = true) : (s.rmid ix).Tiled := by
  have pulled := ok.tiled.pull live (fun i => ((s.rmid ix).sema i).base) fun k used ne => rmid_base ok used ne
  unfold Store.Tiled
  convert pulled using 1
  · funext i
    rw [rmid_alloc]
    by_cases here : i = ix
    · simp [here]
    · simp [here]
  · funext i
    exact rmid_nsems s ix i
  · rfl

theorem rmid_view (ok : StoreOk c s) (live : (s.sema ix).alloc = true) {i : Nat} (used : (s.sema i).alloc = true) (ne : i ≠ ix) : (s.rmid ix).view i = s.view i := by
  have within := ok.tiled.within i used
  have place := ok.tiled.behind live used ne
  refine view_moved (rmid_nsems ..) fun t low => ?_
  rw [rmid_base ok used ne]
  show slideDown s.sem (s.sema ix).base (s.semtot - (s.sema ix).nsems) (s.sema ix).nsems _ = _
  rw [slideDown_eq]
  split
  · rw [if_pos (by omega)]
    congr 1
    omega
  · rw [if_neg (by omega)]

theorem rmid_ok (ok : StoreOk c s) (live : (s.sema ix).alloc = true) : StoreOk c (s.rmid ix) := by
  have does : Does c s.world (.rmid ix) none (semctlRmid s.world ix) := .rmid ix live
  have inv := does.step.inv ok.inv
  have aimed := does.aimed ok.inv ok.aimed nofun
  have here : (semctlRmid s.world ix).sema ix = { s.world.sema ix with alloc := false } := update_self ..
  have else_ (i : Nat) (ne : i ≠ ix) : (semctlRmid s.world ix).sema i = s.world.sema i := update_of_ne ne ..
  have sets (i : Nat) : ((s.rmid ix).sema i).alloc = ((semctlRmid s.world ix).sema i).alloc ∧ ((s.rmid ix).sema i).seq = ((semctlRmid s.world ix).sema i).seq := by
    rw [rmid_alloc,rmid_seq]
    by_cases same : i = ix
    · subst same
      rw [if_pos rfl,here]
      exact ⟨rfl,rfl⟩
    rw [if_neg same,else_ i same]
    exact ⟨rfl,rfl⟩
  have values (i : Nat) (used : ((s.rmid ix).sema i).alloc = true) : ((s.rmid ix).world.sema i).sems = ((semctlRmid s.world ix).sema i).sems := by
    rw [rmid_alloc] at used
    split at used
    · cases used
    next ne =>
    rw [else_ i ne,world_sems used,world_sems (by rw [rmid_alloc,if_neg ne]; exact used),rmid_view ok live used ne]
  refine ⟨rmid_tiled ok live,⟨fun i => ?_,inv.undo⟩,aimed.like sets (fun i used => ?_) rfl rfl rfl⟩
  · by_cases used : ((s.rmid ix).sema i).alloc = true
    · rw [values i used]
      exact inv.sems i
    · exact free_sems used
  · rw [values i ((sets i).1.trans used)]
end Rmid
section Absorb
def Event.reaches : Event → Prop
  | .setval .. | .setall .. | .semop .. | .wake .. | .exit .. => True
  | .semget .. | .rmid .. | .reallocStart | .reallocEnd .. => False

structure Reached (w w' : World) : Prop where
  sets : ∀ ix,(w'.sema ix).alloc = (w.sema ix).alloc ∧ (w'.sema ix).seq = (w.sema ix).seq ∧ (w'.sema ix).sems.length = (w.sema ix).sems.length
  fixed : w'.semmni = w.semmni ∧ w'.semmnu = w.semmnu

theorem Does.reached (does : Does c w event result w') (inv : Inv c w) (aimed : Aimed w) (reaches : event.reaches) : Reached w w' := by
  cases does with
  | semget key nsems ran => exact reaches.elim
  | rmid ix live => exact reaches.elim
  | setval i m val live ran =>
    unfold semctlSetval at ran
    split at ran
    · cases ran
    split at ran
    · cases ran
    cases ran
    exact ⟨setSems_sets (length_modify ..),rfl,rfl⟩
  | setall i vals live => exact ⟨setSems_sets (setVals_length ..),rfl,rfl⟩
  | semop granted p id sops free ran =>
    rcases sysSemop_cases ran with ⟨rfl,-⟩ | ⟨live,inside,attempt⟩
    · exact ⟨fun _ => ⟨rfl,rfl,rfl⟩,rfl,rfl⟩
    have tried := attempt_tried inv attempt
    exact ⟨tried.sets,tried.fixed⟩
  | wake before after x signal sleeps ran =>
    rcases semopWake_cases ran with ⟨-,rfl,-⟩ | ⟨live,⟨rfl,-⟩ | ⟨ended,-,-,attempt⟩⟩
    · exact ⟨fun _ => ⟨rfl,rfl,rfl⟩,rfl,rfl⟩
    · exact ⟨awake_sets w x _,rfl,rfl⟩
    have tried := attempt_tried (inv.awake x _) attempt
    refine ⟨fun ix => ?_,tried.fixed⟩
    obtain ⟨alloc,number,length⟩ := tried.sets ix
    obtain ⟨alloc',number',length'⟩ := awake_sets w x (before ++ after) ix
    exact ⟨alloc.trans alloc',number.trans number',length.trans length'⟩
  | exit p ran =>
    obtain ⟨w₁,ran₁,-,same,-,-⟩ := semexit_spec inv fun ix n => aimed.held p ix n
    rw [ran] at ran₁
    cases ran₁
    refine ⟨fun ix => ⟨(same.sets ix).1,(same.sets ix).2.1,same.length ix⟩,?_⟩
    obtain ⟨sema,shape⟩ := same.rest
    rw [shape]
    exact ⟨rfl,rfl⟩
  | reallocStart free => exact reaches.elim
  | reallocEnd mni mns mnu busy asleep => exact reaches.elim

theorem owner_eq (ok : StoreOk c s) {j : Nat} (live : (s.sema ix).alloc = true) (inside : (s.sema ix).base ≤ j ∧ j < (s.sema ix).base + (s.sema ix).nsems) : s.owner j = some ix := by
  unfold Store.owner
  cases found : (range s.semmni).find? fun ix => decide ((s.sema ix).alloc = true ∧ (s.sema ix).base ≤ j ∧ j < (s.sema ix).base + (s.sema ix).nsems) with
  | none =>
    have none_ := find?_eq_none.mp found ix (mem_range.mpr (ok.aimed.low ix live))
    exact absurd (decide_eq_true ⟨live,inside⟩) none_
  | some k =>
    have here : (s.sema k).alloc = true ∧ (s.sema k).base ≤ j ∧ j < (s.sema k).base + (s.sema k).nsems := by simpa using find?_some found
    exact congrArg some (ok.tiled.unique here ⟨live,inside⟩)

theorem absorb_view (ok : StoreOk c s) (reached : Reached s.world w') (live : (s.sema ix).alloc = true) : (s.absorb w').view ix = (w'.sema ix).sems := by
  have length := (reached.sets ix).2.2
  rw [world_sems live,view_length] at length
  refine view_eq length fun i low => ?_
  unfold Store.absorb
  dsimp only
  rw [owner_eq ok live ⟨Nat.le_add_right ..,Nat.add_lt_add_left low _⟩]
  dsimp only
  have low : i < (w'.sema ix).sems.length := by rw [length]; exact low
  rw [Nat.add_sub_cancel_left,getElem?_eq_getElem low]
  rfl

theorem absorb_ok (ok : StoreOk c s) (does : Does c s.world event result w') (reaches : event.reaches) : StoreOk c (s.absorb w') := by
  have reached := does.reached ok.inv ok.aimed reaches
  have inv := does.step.inv ok.inv
  have aimed := does.aimed ok.inv ok.aimed fun key nsems is => by subst is; exact reaches.elim
  have sets (i : Nat) : ((s.absorb w').sema i).alloc = (w'.sema i).alloc ∧ ((s.absorb w').sema i).seq = (w'.sema i).seq :=
    ⟨(reached.sets i).1.symm,(reached.sets i).2.1.symm⟩
  have values (i : Nat) (used : (s.sema i).alloc = true) : ((s.absorb w').world.sema i).sems = (w'.sema i).sems :=
    (world_sems (s := s.absorb w') used).trans (absorb_view ok reached used)
  refine ⟨ok.tiled,⟨fun i => ?_,?_⟩,aimed.like sets (fun i used => ?_) reached.fixed.1.symm rfl rfl⟩
  · by_cases used : (s.sema i).alloc = true
    · rw [values i used]
      exact inv.sems i
    · exact free_sems (s := s.absorb w') used
  · have undo := inv.undo
    rw [reached.fixed.2] at undo
    exact undo
  · rw [values i ((reached.sets i).1.symm.trans used)]
end Absorb
section Realloc
def Store.used (s : Store) (ix : Nat) : Bool := (s.sema ix).alloc
def Store.size (s : Store) (ix : Nat) : Nat := (s.sema ix).nsems

structure Copied (s : Store) (n : Nat) (copy : Copy) : Prop where
  j : copy.j = layout s.used s.size n
  sema : ∀ i,copy.sema i = if i < n ∧ (s.sema i).alloc = true then { s.sema i with base := layout s.used s.size i } else noSet
  sem : ∀ i < n,(s.sema i).alloc = true → ∀ t < (s.sema i).nsems,copy.sem (layout s.used s.size i + t) = s.sem ((s.sema i).base + t)

theorem copySets_copied (s : Store) (n : Nat) : Copied s n (copySets s n) := by
  unfold copySets
  induction n with
  | zero => exact ⟨rfl,fun i => (if_neg fun both => not_lt_zero i both.1).symm,fun i low => absurd low (not_lt_zero i)⟩
  | succ n ih =>
    rw [range_succ,foldl_append]
    show Copied s (n + 1) (copySet s _ n)
    generalize (range n).foldl (copySet s) _ = copy at ih
    have next : layout s.used s.size (n + 1) = layout s.used s.size n + if (s.sema n).alloc = true then s.size n else 0 := rfl
    unfold copySet
    split
    · next live =>
      rw [if_pos live] at next
      constructor
      · rw [ih.j,next]
        rfl
      · intro i
        dsimp only
        by_cases here : i = n
        · subst here
          rw [update_self,if_pos ⟨lt_succ_self i,live⟩,ih.j]
        rw [update_of_ne here,ih.sema]
        congr 1
        exact propext (and_congr_left' (by omega))
      intro i low used t few
      dsimp only
      rcases Nat.lt_succ_iff_lt_or_eq.mp low with before | rfl
      · have below : layout s.used s.size i + s.size i ≤ layout s.used s.size n := layout_next used before
        have few' : t < s.size i := few
        rw [ih.j,if_neg (by omega)]
        exact ih.sem i before used t few
      · rw [ih.j,if_pos ⟨Nat.le_add_right ..,Nat.add_lt_add_left few _⟩,Nat.add_sub_cancel_left]
    next free =>
    rw [if_neg free,add_zero] at next
    refine ⟨ih.j.trans next.symm,fun i => ?_,fun i low used t few => ?_⟩
    · rw [ih.sema]
      congr 1
      refine propext ⟨fun both => ⟨by omega,both.2⟩,fun both => ⟨?_,both.2⟩⟩
      rcases Nat.lt_succ_iff_lt_or_eq.mp both.1 with before | rfl
      · exact before
      · exact absurd both.2 free
    rcases Nat.lt_succ_iff_lt_or_eq.mp low with before | rfl
    · exact ih.sem i before used t few
    · exact absurd used free

theorem copied_all (ok : StoreOk c s) : layout s.used s.size s.semmni = s.semtot := by
  rw [layout_sum]
  refine ok.tiled.sum _ fun i => ?_
  rw [Finset.mem_filter,Finset.mem_range]
  exact ⟨fun both => both.2,fun live => ⟨ok.aimed.low i live,live⟩⟩

theorem copied_head (ok : StoreOk c s) (ix : Nat) :
    (copySets s s.semmni).sema ix = if (s.sema ix).alloc = true then { s.sema ix with base := layout s.used s.size ix } else noSet := by
  rw [(copySets_copied s s.semmni).sema]
  congr 1
  exact propext ⟨fun both => both.2,fun live => ⟨ok.aimed.low ix live,live⟩⟩

variable {mni mns mnu : Nat}

theorem realloc_kept (ok : StoreOk c s) (live : (s.sema ix).alloc = true) :
    ((s.semreallocEnd mni mns mnu).sema ix).alloc = true ∧ (s.semreallocEnd mni mns mnu).view ix = s.view ix := by
  unfold Store.semreallocEnd
  split
  · exact ⟨live,rfl⟩
  have head := copied_head ok ix
  rw [if_pos live] at head
  refine ⟨(congrArg SetHead.alloc head).trans live,view_moved ((congrArg SetHead.nsems head).trans rfl) fun t few => ?_⟩
  dsimp only
  rw [head]
  exact (copySets_copied s s.semmni).sem ix (ok.aimed.low ix live) live t few

theorem realloc_world (ok : StoreOk c s) : (s.semreallocEnd mni mns mnu).world = semreallocEnd s.world mni mns mnu := by
  by_cases small : s.tooSmall mni mns mnu
  · have small' : (∃ ix < s.world.semmni,mni ≤ ix ∧ (s.world.sema ix).alloc = true) ∨ mns < s.world.semtot ∨ mnu < s.world.semuList.length := small
    unfold Store.semreallocEnd semreallocEnd
    rw [if_pos small,if_pos small']
  have small' : ¬((∃ ix < s.world.semmni,mni ≤ ix ∧ (s.world.sema ix).alloc = true) ∨ mns < s.world.semtot ∨ mnu < s.world.semuList.length) := small
  have kept (ix : Nat) (live : (s.sema ix).alloc = true) : _ ∧ (s.semreallocEnd mni mns mnu).view ix = s.view ix := realloc_kept ok live
  unfold Store.semreallocEnd at kept ⊢
  unfold semreallocEnd
  rw [if_neg small] at kept ⊢
  rw [if_neg small']
  unfold Store.world
  dsimp only at kept ⊢
  congr 1
  funext ix
  have head := copied_head ok ix
  split_ifs at head with live
  · rw [if_pos ⟨ok.aimed.low ix live,live⟩,(kept ix live).2,head]
    rfl
  rw [if_neg fun both => live both.2,head]
  rfl

theorem realloc_tiled (ok : StoreOk c s) : (s.semreallocEnd mni mns mnu).Tiled := by
  unfold Store.semreallocEnd
  split
  · exact ok.tiled
  have packed := @layout_packed s.used s.size s.semmni (fun i live => ok.aimed.low i live) fun i live => ok.tiled.pos i live
  rw [copied_all ok] at packed
  refine packed.congr (fun i => ?_) fun i live => ?_
  · dsimp only
    rw [copied_head ok]
    split
    · next live => exact ⟨fun _ => live,fun _ => live⟩
    · next free => exact ⟨nofun,fun live => absurd live free⟩
  have live : (s.sema i).alloc = true := live
  dsimp only
  rw [copied_head ok,if_pos live]
  exact ⟨rfl,rfl⟩

theorem realloc_ok (ok : StoreOk c s) (busy : s.semReallocState = true) (asleep : s.waiters = []) : StoreOk c (s.semreallocEnd mni mns mnu) := by
  have does : Does c s.world (.reallocEnd mni mns mnu) none (semreallocEnd s.world mni mns mnu) := .reallocEnd mni mns mnu busy asleep
  refine ⟨realloc_tiled ok,?_,?_⟩
  · rw [realloc_world ok]
    exact does.step.inv ok.inv
  rw [realloc_world ok]
  exact does.aimed ok.inv ok.aimed nofun
end Realloc
section Runs
inductive StoreDoes (c : Seminfo) (s : Store) : Event → Option Ended → Store → Prop where
  | semget {s' : Store} (key nsems : Nat) (ran : s.semget c key nsems = .ok s') : StoreDoes c s (.semget key nsems) none s'
  | rmid (ix : Nat) (live : (s.sema ix).alloc = true) : StoreDoes c s (.rmid ix) none (s.rmid ix)
  | call {event : Event} {result : Option Ended} {w' : World} (reaches : event.reaches) (does : Does c s.world event result w') : StoreDoes c s event result (s.absorb w')
  | reallocStart (free : s.semReallocState = false) : StoreDoes c s .reallocStart none s.semreallocStart
  | reallocEnd (mni mns mnu : Nat) (sizes : 1 ≤ mni ∧ 1 ≤ mns ∧ 1 ≤ mnu) (busy : s.semReallocState = true) (asleep : s.waiters = []) :
      StoreDoes c s (.reallocEnd mni mns mnu) none (s.semreallocEnd mni mns mnu)

def seminitStore (mni mns mnu : Nat) : Store :=
  { semmni := mni, semmns := mns, semmnu := mnu, sema := fun _ => noSet, sem := fun _ => noSem, semtot := 0, semuList := [], waiters := [], semReallocState := false }

def Event.calls (calls : Bool) : Event → Bool
  | .reallocStart => true
  | .reallocEnd .. => false
  | _ => calls

inductive StoreRun (allows : Store → Event → Prop) (c : Seminfo) : Store → Bool → Prop where
  | init (mni mns mnu : Nat) : StoreRun allows c (seminitStore mni mns mnu) false
  | step {s s' : Store} {calls : Bool} {event : Event} {result : Option Ended} (before : StoreRun allows c s calls) (does : StoreDoes c s event result s')
      (allowed : allows s event) : StoreRun allows c s' (event.calls calls)

def Roomy (s : Store) : Event → Prop
  | .semget .. => Unclaimed s.world
  | .reallocEnd mni mns mnu => ¬s.tooSmall mni mns mnu
  | _ => True

structure Stored (c : Seminfo) (s : Store) (calls : Bool) : Prop where
  tiled : s.Tiled
  named : ∀ v ∈ s.semuList,∀ e ∈ v.unEnt,(s.sema e.unId).alloc = true ∧ e.unNum < (s.sema e.unId).nsems
  exits : ∀ p,∃ w,semexit s.world p = .ok w
  rmid : ∀ ix,(s.sema ix).alloc = true → ∀ k,k ≠ ix → ((s.sema k).alloc = true → ((s.rmid ix).sema k).alloc = true ∧ (s.rmid ix).view k = s.view k) ∧
    ∀ p n,adjOf (s.rmid ix).semuList p k n = adjOf s.semuList p k n
  realloc : ∀ mni mns mnu k,((s.sema k).alloc = true → ((s.semreallocEnd mni mns mnu).sema k).alloc = true ∧ (s.semreallocEnd mni mns mnu).view k = s.view k) ∧
    ∀ p n,adjOf (s.semreallocEnd mni mns mnu).semuList p k n = adjOf s.semuList p k n
  state : s.semReallocState = calls

theorem StoreDoes.ok {calls : Bool} (does : StoreDoes c s event result s') (ok : StoreOk c s) (state : s.semReallocState = calls) (roomy : Roomy s event) :
    StoreOk c s' ∧ s'.semReallocState = event.calls calls := by
  cases does with
  | semget key nsems ran =>
    obtain ⟨tiled,made⟩ := semget_spec ok ran
    have does : Does c s.world (.semget key nsems) none s'.world := .semget key nsems made
    refine ⟨⟨tiled,does.step.inv ok.inv,does.aimed ok.inv ok.aimed fun _ _ _ => roomy⟩,?_⟩
    obtain ⟨i,-,-,-,-,shape⟩ := semgetNew_shape made
    have same : s'.world.semReallocState = s.semReallocState := by rw [shape]; rfl
    exact same.trans state
  | rmid ix live => exact ⟨rmid_ok ok live,state⟩
  | call reaches does =>
    refine ⟨absorb_ok ok does reaches,state.trans ?_⟩
    cases event <;> first | rfl | exact reaches.elim
  | reallocStart free => exact ⟨⟨ok.tiled,⟨ok.inv.sems,ok.inv.undo⟩,ok.aimed.low,ok.aimed.held,ok.aimed.inside⟩,rfl⟩
  | reallocEnd mni mns mnu sizes busy asleep =>
    refine ⟨realloc_ok ok busy asleep,?_⟩
    unfold Store.semreallocEnd
    rw [if_neg roomy]
    rfl

theorem StoreOk.stored {calls : Bool} (ok : StoreOk c s) (state : s.semReallocState = calls) : Stored c s calls where
  tiled := ok.tiled
  named v mem e of := by
    have vector := ok.inv.undo.ents v mem
    have mine : vectorOf s.semuList v.unProc = v.unEnt := by
      unfold vectorOf
      rw [ok.undo.distinct.get? mem]
      rfl
    have held := ok.aimed.held v.unProc e.unId e.unNum (by
      show entAdj (vectorOf s.semuList v.unProc) e.unId e.unNum ≠ 0
      rw [mine,vector.entry]
      exact mem_map_of_mem of)
    have live : (s.sema e.unId).alloc = true := held.1
    have low := held.2
    rw [world_sems live,view_length] at low
    exact ⟨live,low⟩
  exits p := by
    obtain ⟨w,ran,-⟩ := semexit_spec ok.inv fun ix n => ok.aimed.held p ix n
    exact ⟨w,ran⟩
  rmid ix live k ne := by
    refine ⟨fun used => ⟨?_,rmid_view ok live used ne⟩,fun p n => ?_⟩
    · rw [rmid_alloc,if_neg ne]
      exact used
    show adjOf (semundoClear ix none s.semuList) p k n = _
    rw [adjOf_clear ok.undo,hit_all,decide_eq_false ne]
    rfl
  realloc mni mns mnu k := by
    refine ⟨fun used => realloc_kept ok used,fun p n => ?_⟩
    unfold Store.semreallocEnd
    split
    · rfl
    unfold adjOf vectorOf
    rw [ok.undo.distinct.get?_perm (reverse_perm _).symm]
  state := state

theorem StoreRun.ok {calls : Bool} (run : StoreRun Roomy c s calls) : StoreOk c s ∧ s.semReallocState = calls := by
  induction run with
  | init mni mns mnu =>
    have inv := seminit_inv c mni mns mnu
    have aimed := seminit_aimed mni mns mnu
    exact ⟨⟨⟨nofun,nofun,fun j low => absurd low (not_lt_zero j),nofun⟩,⟨inv.sems,inv.undo⟩,aimed.low,aimed.held,aimed.inside⟩,rfl⟩
  | step before does roomy ih =>
    obtain ⟨ok,state⟩ := ih
    exact does.ok ok state roomy

theorem store_kept {calls : Bool} (run : StoreRun Roomy c s calls) : Stored c s calls ∧
    (s.semReallocState = true → ∀ mni mns mnu,(s.semreallocEnd mni mns mnu).semReallocState = false ↔ ¬s.tooSmall mni mns mnu) := by
  obtain ⟨ok,state⟩ := run.ok
  refine ⟨ok.stored state,fun busy mni mns mnu => ?_⟩
  unfold Store.semreallocEnd
  split
  · next small =>
    rw [busy]
    exact ⟨nofun,fun roomy => absurd small roomy⟩
  · next roomy => exact ⟨fun _ => roomy,fun _ => rfl⟩

def twoSet : Store :=
  { seminitStore 10 60 30 with
    sema := Function.update (fun _ => noSet) 0 { alloc := true, seq := 1, key := 7, base := 0, nsems := 2 }
    sem := fun j => if 0 ≤ j ∧ j < 0 + 2 then noSem else noSem
    semtot := 2 }

theorem twoSet_run {allows : Store → Event → Prop} (allowed : allows (seminitStore 10 60 30) (.semget 7 2)) : StoreRun allows seminfo twoSet false :=
  .step (.init 10 60 30) (.semget 7 2 rfl) allowed

theorem store_kept_two : ∃ s,Stored seminfo s false ∧ s.semmns = 2 := by
  have made : StoreRun Roomy seminfo twoSet false := twoSet_run fun _ _ _ mem => absurd mem not_mem_nil
  have started := made.step (.reallocStart rfl) trivial
  have roomy : ¬twoSet.semreallocStart.tooSmall 10 2 30 := by
    rintro (⟨ix,low,high,-⟩ | few | few)
    · exact absurd low (Nat.not_lt_of_le high)
    · exact absurd few (by decide)
    · exact absurd few (by decide)
  have ended := started.step (.reallocEnd 10 2 30 (by decide) rfl rfl) roomy
  refine ⟨_,(store_kept ended).1,?_⟩
  unfold Store.semreallocEnd
  rw [if_neg roomy]

theorem realloc_stays : ¬∀ s calls,StoreRun (fun _ _ => True) seminfo s calls → Stored seminfo s calls := by
  intro all
  have started := (@twoSet_run (fun _ _ => True) trivial).step (.reallocStart rfl) trivial
  have ended := started.step (.reallocEnd 10 1 30 (by decide) rfl rfl) trivial
  have small : twoSet.semreallocStart.tooSmall 10 1 30 := .inr (.inl (by decide))
  have state := (all _ _ ended).state
  unfold Store.semreallocEnd at state
  cases state
end Runs
end NetbsdAvr32.Sysvsem
