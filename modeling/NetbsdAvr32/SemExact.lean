import NetbsdAvr32.SemUndo

-- What every run of the calls keeps, and when sys_semop does all or nothing.
namespace NetbsdAvr32.Sysvsem
open Keyed List Function
variable {c : Seminfo} {w w' : World} {p semid semnum ix : Nat} {id : Int} {ents : List Undo} {l : List SemUndo} {sems : List Sem} {sops : List Sembuf} {ended : Ended}

structure Inv (c : Seminfo) (w : World) : Prop where
  sems : ∀ ix,SemsOk (w.sema ix).sems
  undo : UndoOk c w.semmnu w.semuList

theorem SemsOk.nil : SemsOk [] := fun _ mem => absurd mem not_mem_nil

theorem Inv.setSems (inv : Inv c w) (ok : SemsOk sems) : Inv c (w.setSems ix sems) := by
  refine ⟨fun i => ?_,inv.undo⟩
  unfold World.setSems
  by_cases same : i = ix
  · subst same
    simp only [update_self]
    exact ok
  simp only [update_of_ne same]
  exact inv.sems i

theorem Inv.withUndo (inv : Inv c w) (ok : UndoOk c w.semmnu l) : Inv c { w with semuList := l } := ⟨inv.sems,ok⟩

theorem UndoOk.sublist {mnu : Nat} {l' : List SemUndo} (ok : UndoOk c mnu l) (sub : l'.Sublist l) : UndoOk c mnu l' :=
  ⟨ok.distinct.sublist (sub.map _),fun v mem => ok.ents v (sub.subset mem),Nat.le_trans sub.length_le ok.room⟩

theorem EntsOk.sublist {ents' : List Undo} (ok : EntsOk c ents) (sub : ents'.Sublist ents) : EntsOk c ents' :=
  ⟨ok.distinct.sublist (sub.map _),fun e mem => ok.nonzero e (sub.subset mem),fun e mem => ok.range e (sub.subset mem),Nat.le_trans sub.length_le ok.room⟩

section Others
theorem EntsOk.clear (semnum : Option Nat) (fuel : Nat) (before after : List Undo) (ok : EntsOk c (before ++ after)) : EntsOk c (clearEnts semid semnum fuel before after) := by
  induction fuel generalizing before after with
  | zero => cases after <;> exact ok
  | succ fuel ih =>
    cases after with
    | nil => exact (append_nil before) ▸ ok
    | cons e after =>
      rw [clearEnts]
      split
      · have left : EntsOk c (before ++ after) := ok.sublist ((List.Sublist.refl before).append (sublist_cons_self e after))
        have moved := left.perm (swapOut_perm before after).symm
        unfold swapOut at moved
        cases last : after.getLast? with
        | none =>
          simp only [last] at moved ⊢
          exact moved
        | some x =>
          simp only [last] at moved ⊢
          split
          · exact moved
          · exact ih before _ moved
      · exact ih (before ++ [e]) after (by simpa using ok)

theorem UndoOk.clear {mnu : Nat} (semnum : Option Nat) (ok : UndoOk c mnu l) : UndoOk c mnu (semundoClear semid semnum l) := by
  refine ⟨?_,fun v mem => ?_,?_⟩
  · have same : (semundoClear semid semnum l).map SemUndo.unProc = l.map SemUndo.unProc := by
      unfold semundoClear
      rw [map_map]
      rfl
    unfold Distinct
    rw [same]
    exact ok.distinct
  · obtain ⟨old,mem',rfl⟩ := mem_map.mp mem
    exact .clear semnum _ [] _ (ok.ents old mem')
  have := ok.room
  rwa [semundoClear,length_map]

theorem setVals_ok (c : Seminfo) (sems : List Sem) (vals : List Nat) (ok : SemsOk sems) : SemsOk (setVals c sems vals) := by
  induction sems generalizing vals with
  | nil => cases vals <;> exact ok
  | cons s sems ih =>
    cases vals with
    | nil => exact ok
    | cons v vals =>
      rw [setVals]
      split
      · exact ok
      intro x mem
      rcases mem_cons.mp mem with rfl | mem
      · show ushort v < 65536
        exact ushort_lt _
      · exact ih vals (fun y mem => ok y (mem_cons_of_mem _ mem)) x mem

section
variable (inv : Inv c w)
include inv

theorem semgetNew_inv {key nsems : Nat} (ran : semgetNew c w key nsems = .ok w') : Inv c w' := by
  unfold semgetNew at ran
  split at ran
  · cases ran
  split at ran
  · cases ran
  split at ran
  · cases ran
  next ix _ =>
  cases ran
  refine ⟨fun i => ?_,inv.undo⟩
  by_cases same : i = ix
  · subst same
    simp only [update_self]
    intro s mem
    rw [(mem_replicate.mp mem).2]
    decide
  simp only [update_of_ne same]
  exact inv.sems i

theorem semctlRmid_inv (ix : Nat) : Inv c (semctlRmid w ix) := by
  refine ⟨fun i => ?_,inv.undo.clear none⟩
  unfold semctlRmid
  by_cases same : i = ix
  · subst same
    simp only [update_self]
    exact inv.sems i
  simp only [update_of_ne same]
  exact inv.sems i

theorem semctlSetval_inv {val : Nat} (ran : semctlSetval c w ix semnum val = .ok w') : Inv c w' := by
  unfold semctlSetval at ran
  split at ran
  · cases ran
  split at ran
  · cases ran
  cases ran
  have low : ∀ s : Sem,s.semval < 65536 → ({ s with semval := ushort val } : Sem).semval < 65536 := fun _ _ => ushort_lt (val : Int)
  exact (inv.setSems ((inv.sems ix).modify semnum low)).withUndo (inv.undo.clear (some semnum))

theorem semctlSetall_inv (ix : Nat) (vals : List Nat) : Inv c (semctlSetall c w ix vals) :=
  (inv.setSems (setVals_ok c _ vals (inv.sems ix))).withUndo (inv.undo.clear none)

theorem exitEntry_inv {e : Undo} (ran : exitEntry w e = .ok w') : Inv c w' ∧ w'.semuList = w.semuList := by
  unfold exitEntry at ran
  split at ran
  · cases ran
  split at ran
  · cases ran
  cases ran
  refine ⟨inv.setSems ((inv.sems _).modify _ fun s low => ?_),rfl⟩
  dsimp only
  split
  · decide
  · exact ushort_lt _

theorem semexit_inv (ran : semexit w p = .ok w') : Inv c w' := by
  unfold semexit at ran
  split at ran
  · cases ran
    exact inv
  next v _ =>
  obtain ⟨w₁,loop,rest⟩ := Outcome.bind_ok ran
  have exits : ∀ (ents : List Undo) (w : World),Inv c w → ents.foldlM exitEntry w = .ok w₁ → Inv c w₁ := by
    intro ents
    induction ents with
    | nil =>
      intro w inv ran
      cases ran
      exact inv
    | cons e ents ih =>
      intro w inv ran
      obtain ⟨w₂,first,rest⟩ := Outcome.bind_ok ran
      exact ih w₂ (exitEntry_inv inv first).1 rest
  have left := exits v.unEnt w inv loop
  cases rest
  exact left.withUndo (left.undo.sublist filter_sublist)

theorem semreallocEnd_inv (mni mns mnu : Nat) : Inv c (semreallocEnd w mni mns mnu) := by
  unfold semreallocEnd
  split
  · exact inv
  next fits =>
  have fits := not_or.mp fits
  have room := (not_or.mp fits.2).2
  refine ⟨fun i => ?_,inv.undo.distinct.perm (reverse_perm _).symm,fun v mem => inv.undo.ents v (mem_reverse.mp mem),?_⟩
  · dsimp only
    split
    · exact inv.sems i
    · exact .nil
  rw [length_reverse]
  exact Nat.not_lt.mp room
end
end Others
section Attempt
structure Unchanged (w w' : World) : Prop where
  values : ∀ ix n,semvalAt (w'.sema ix).sems n = semvalAt (w.sema ix).sems n
  adjusts : SameAdj w.semuList w'.semuList

structure Applied (w : World) (p : Nat) (id : Int) (sops : List Sembuf) (w' : World) : Prop where
  values : runOps (semvalAt (w.sema (ipcidToIx id)).sems) sops = some (semvalAt (w'.sema (ipcidToIx id)).sems)
  elsewhere : ∀ ix,ix ≠ ipcidToIx id → ∀ n,semvalAt (w'.sema ix).sems n = semvalAt (w.sema ix).sems n
  adjusts : ∀ q ix n,adjOf w'.semuList q ix n = adjOf w.semuList q ix n - if q = p ∧ ix = ipcidToIx id then undoTotal sops n else 0

def AllOrNothing (w : World) (p : Nat) (id : Int) (sops : List Sembuf) (ended : Ended) (w' : World) : Prop :=
  match ended with
  | .done _ => Applied w p id sops w'
  | .asleep | .error _ => Unchanged w w'

-- Nothing the vector adds up to leaves its 16 bits.
structure InRange (w : World) (p : Nat) (id : Int) (sops : List Sembuf) : Prop where
  values : ∀ n,semvalAt (w.sema (ipcidToIx id)).sems n + opTotal sops n ≤ 65535
  adjusts : ∀ n,-32768 ≤ adjOf w.semuList p (ipcidToIx id) n - undoTotal sops n ∧ adjOf w.semuList p (ipcidToIx id) n - undoTotal sops n ≤ 32767

theorem semvalAt_countWaiter (sems : List Sem) (sop : Sembuf) (by_ : Int) (n : Nat) : semvalAt (countWaiter sems sop by_) n = semvalAt sems n := by
  unfold semvalAt countWaiter
  rw [getElem?_modify]
  cases sems[n]? with
  | none => rfl
  | some s =>
    split
    · split <;> rfl
    · rfl

theorem SemsOk.countWaiter (ok : SemsOk sems) (sop : Sembuf) (by_ : Int) : SemsOk (countWaiter sems sop by_) := by
  refine ok.modify _ fun s low => ?_
  split <;> exact low

theorem setSems_here (w : World) (ix : Nat) (sems : List Sem) : ((w.setSems ix sems).sema ix).sems = sems := by
  simp [World.setSems]

theorem setSems_else (w : World) {ix i : Nat} (ne : i ≠ ix) (sems : List Sem) : (w.setSems ix sems).sema i = w.sema i := by
  simp [World.setSems,update_of_ne ne]

theorem setSems_same (same : ∀ n,semvalAt sems n = semvalAt (w.sema ix).sems n) : ∀ i n,semvalAt ((w.setSems ix sems).sema i).sems n = semvalAt (w.sema i).sems n := by
  intro i n
  by_cases here : i = ix
  · subst here
    rw [setSems_here]
    exact same n
  · rw [setSems_else w here]

structure Attempted (c : Seminfo) (w : World) (p : Nat) (id : Int) (sops : List Sembuf) (ended : Ended) (w' : World) : Prop where
  inv : Inv c w'
  failed : (∀ wakeup,ended ≠ .done wakeup) → Unchanged w w'
  done : (∀ sop ∈ sops,sop.semNum < (w.sema (ipcidToIx id)).sems.length) → ∀ wakeup,ended = .done wakeup → (AllOrNothing w p id sops ended w' ↔ InRange w p id sops)

theorem applied_iff {mnu : Nat} {l' : List SemUndo} {sems' : List Sem} (sems_ok : SemsOk sems') (undo_ok : UndoOk c mnu l')
    (runs : (∀ n,semvalAt (w.sema (ipcidToIx id)).sems n + opTotal sops n ≤ 65535) → runOps (semvalAt (w.sema (ipcidToIx id)).sems) sops = some (semvalAt sems'))
    (adjust : ∀ q ix n,adjOf l' q ix n = if q = p ∧ ix = ipcidToIx id then short (adjOf w.semuList q ix n - undoTotal sops n) else adjOf w.semuList q ix n) :
    Applied w p id sops { w.setSems (ipcidToIx id) sems' with semuList := l' } ↔ InRange w p id sops := by
  constructor
  · intro applied
    refine ⟨fun n => ?_,fun n => ?_⟩
    · have sum := runOps_total applied.values n
      rw [setSems_here] at sum
      have := semvalAt_range sems_ok n
      omega
    have moved := applied.adjusts p (ipcidToIx id) n
    have range := (undo_ok.vector p).adj_range (ipcidToIx id) n
    change adjOf l' p (ipcidToIx id) n = _ at moved
    change -32768 ≤ adjOf l' p (ipcidToIx id) n ∧ adjOf l' p (ipcidToIx id) n ≤ 32767 at range
    omega
  intro fits
  refine ⟨?_,fun ix ne n => ?_,fun q ix n => ?_⟩
  · rw [setSems_here]
    exact runs fits.values
  · rw [setSems_else w ne]
  rw [adjust]
  split
  · next mine =>
    obtain ⟨rfl,rfl⟩ := mine
    exact short_fits (fits.adjusts n).1 (fits.adjusts n).2
  · exact (Int.sub_zero _).symm

theorem semopAttempt_spec (p : Nat) (id : Int) (sops : List Sembuf) (inv : Inv c w) (doUndos : Bool) :
    ∃ ended w',semopAttempt c w p id sops doUndos = .ok (ended,w') ∧ Attempted c w p id sops ended w' := by
  have ok := inv.sems (ipcidToIx id)
  have start : Unwinds (w.sema (ipcidToIx id)).sems (w.sema (ipcidToIx id)).sems [] := ⟨ok,rfl⟩
  unfold semopAttempt
  dsimp only
  cases ran : semopScan (w.sema (ipcidToIx id)).sems false doUndos [] sops with
  | blocked left undos done at_ =>
    have back := semopScan_blocked ok start ran
    dsimp only
    rw [back]
    split
    · exact ⟨_,_,rfl,inv.setSems ok,fun _ => ⟨setSems_same fun _ => rfl,fun _ _ _ => rfl⟩,fun _ _ is => (by cases is)⟩
    refine ⟨_,_,rfl,?_,fun _ => ⟨setSems_same fun n => semvalAt_countWaiter ..,fun _ _ _ => rfl⟩,fun _ _ is => (by cases is)⟩
    have set : Inv c (w.setSems (ipcidToIx id) _) := inv.setSems (ok.countWaiter at_ 1)
    exact ⟨set.sems,set.undo⟩
  | through sems' wakeup' undos' =>
    have through := semopScan_through ok ran
    dsimp only
    have clean := through.undos
    cases undos' with
    | false =>
      have none := (clean rfl).2
      refine ⟨_,_,rfl,inv.setSems through.ok,fun ne => absurd rfl (ne wakeup'),fun inside _ _ => ?_⟩
      refine applied_iff through.ok inv.undo (semopScan_total ok inside ran).2 fun q ix n => ?_
      split
      · rw [none,Int.sub_zero]
        have range := (inv.undo.vector q).adj_range ix n
        exact (short_fits range.1 range.2).symm
      · rfl
    | true =>
      obtain ⟨r,l',undone,ok',same,adjust⟩ := undoAll_spec [] sops inv.undo (Returns.nil c w.semmnu p (ipcidToIx id) w.semuList) (fun ⟨_,mem,_⟩ => absurd mem not_mem_nil)
      rw [undone]
      cases r with
      | none =>
        refine ⟨.done wakeup',_,rfl,(inv.setSems through.ok).withUndo ok',fun ne => absurd rfl (ne wakeup'),fun inside _ _ => ?_⟩
        exact applied_iff through.ok ok' (semopScan_total ok inside ran).2 (adjust rfl)
      | some e =>
        have taken : unwind sems' sops = (w.sema (ipcidToIx id)).sems := by
          have whole := (through.back _ start).back
          rw [append_nil] at whole
          rw [← whole]
          exact unwind_perm (reverse_perm sops).symm sems'
        refine ⟨.error e,_,rfl,?_,fun _ => ?_,fun _ _ is => (by cases is)⟩
        · rw [taken]
          exact (inv.setSems ok).withUndo ok'
        rw [taken]
        exact ⟨setSems_same fun _ => rfl,same rfl⟩

theorem Attempted.exact {w' : World} (attempted : Attempted c w p id sops ended w') (inside : ∀ sop ∈ sops,sop.semNum < (w.sema (ipcidToIx id)).sems.length) :
    AllOrNothing w p id sops ended w' ↔ ((∃ wakeup,ended = .done wakeup) → InRange w p id sops) := by
  cases ended with
  | done wakeup =>
    rw [attempted.done inside wakeup rfl]
    exact ⟨fun fits _ => fits,fun fits => fits ⟨wakeup,rfl⟩⟩
  | asleep | error e => exact ⟨fun _ ⟨_,is⟩ => (by cases is),fun _ => attempted.failed fun _ is => (by cases is)⟩

theorem sysSemop_spec (p : Nat) (id : Int) (sops : List Sembuf) (inv : Inv c w) (granted : Bool) :
    ∃ ended w',sysSemop c w granted p id sops = .ok (ended,w') ∧ Inv c w' ∧ (AllOrNothing w p id sops ended w' ↔ ((∃ wakeup,ended = .done wakeup) → InRange w p id sops)) := by
  have refused : ∀ e,∃ ended w',(Except.ok (Ended.error e,w) : Except Halt _) = .ok (ended,w') ∧ Inv c w' ∧ (AllOrNothing w p id sops ended w' ↔ ((∃ wakeup,ended = .done wakeup) → InRange w p id sops)) :=
    fun e => ⟨.error e,w,rfl,inv,fun _ ⟨_,is⟩ => (by cases is),fun _ => ⟨fun _ _ => rfl,fun _ _ _ => rfl⟩⟩
  unfold sysSemop
  dsimp only
  split
  · exact refused _
  split
  · exact refused _
  split
  · exact refused _
  split
  · exact refused _
  split
  · exact refused _
  next inside =>
  obtain ⟨ended,w',ran,attempted⟩ := semopAttempt_spec p id sops inv false
  refine ⟨ended,w',ran,attempted.inv,attempted.exact fun sop mem => ?_⟩
  exact Nat.lt_of_not_le fun out => inside ⟨sop,mem,out⟩
end Attempt
section Runs
inductive Step (c : Seminfo) : World → World → Prop where
  | semget {w w' : World} (key nsems : Nat) (ran : semgetNew c w key nsems = .ok w') : Step c w w'
  | rmid (w : World) (ix : Nat) : Step c w (semctlRmid w ix)
  | setval {w w' : World} (ix semnum val : Nat) (ran : semctlSetval c w ix semnum val = .ok w') : Step c w w'
  | setall (w : World) (ix : Nat) (vals : List Nat) : Step c w (semctlSetall c w ix vals)
  | semop {w w' : World} {ended : Ended} (granted : Bool) (p : Nat) (id : Int) (sops : List Sembuf) (free : w.semReallocState = false)
      (ran : sysSemop c w granted p id sops = .ok (ended,w')) : Step c w w'
  | wake {w w' : World} {ended : Option Ended} (before after : List Waiter) (x : Waiter) (signal : Bool) (sleeps : w.waiters = before ++ x :: after)
      (ran : semopWake c w x (before ++ after) signal = .ok (ended,w')) : Step c w w'
  | exit {w w' : World} (p : Nat) (ran : semexit w p = .ok w') : Step c w w'
  | reallocStart (w : World) (free : w.semReallocState = false) : Step c w (semreallocStart w)
  | reallocEnd (w : World) (mni mns mnu : Nat) (busy : w.semReallocState = true) (none : w.waiters = []) : Step c w (semreallocEnd w mni mns mnu)

def seminit (mni mns mnu : Nat) : World :=
  { semmni := mni, semmns := mns, semmnu := mnu, sema := fun _ => { alloc := false, seq := 0, key := 0, sems := [] }, semtot := 0, semuList := [], waiters := [], semReallocState := false }

inductive Reachable (c : Seminfo) : World → Prop where
  | init (mni mns mnu : Nat) : Reachable c (seminit mni mns mnu)
  | step {w w' : World} (before : Reachable c w) (step : Step c w w') : Reachable c w'

theorem seminit_inv (c : Seminfo) (mni mns mnu : Nat) : Inv c (seminit mni mns mnu) :=
  ⟨fun _ => .nil,nodup_nil,fun _ mem => absurd mem not_mem_nil,Nat.zero_le _⟩

theorem semopWake_inv {x : Waiter} {rest : List Waiter} {signal : Bool} {r : Option Ended} (inv : Inv c w) (ran : semopWake c w x rest signal = .ok (r,w')) : Inv c w' := by
  have left : Inv c { w with waiters := rest } := ⟨inv.sems,inv.undo⟩
  have counted : Inv c ({ w with waiters := rest }.setSems (ipcidToIx x.semid) _) := left.setSems ((left.sems (ipcidToIx x.semid)).countWaiter x.sop (-1))
  unfold semopWake at ran
  dsimp only at ran
  split at ran
  · cases ran
    exact left
  split at ran
  · cases ran
    exact counted
  split at ran
  · cases ran
    exact counted
  obtain ⟨ended,w₁,attempt,attempted⟩ := semopAttempt_spec x.proc x.semid x.sops counted x.doUndos
  rw [attempt] at ran
  cases ran
  exact attempted.inv

theorem Step.inv (step : Step c w w') (inv : Inv c w) : Inv c w' := by
  cases step with
  | semget key nsems ran => exact semgetNew_inv inv ran
  | rmid ix => exact semctlRmid_inv inv ix
  | setval ix semnum val ran => exact semctlSetval_inv inv ran
  | setall ix vals => exact semctlSetall_inv inv ix vals
  | semop granted p id sops free ran =>
    obtain ⟨ended,w₁,call,inv₁,_⟩ := sysSemop_spec p id sops inv granted
    rw [call] at ran
    cases ran
    exact inv₁
  | wake before after x signal sleeps ran => exact semopWake_inv inv ran
  | exit p ran => exact semexit_inv inv ran
  | reallocStart free => exact ⟨inv.sems,inv.undo⟩
  | reallocEnd mni mns mnu busy none => exact semreallocEnd_inv inv mni mns mnu

theorem Reachable.inv (reach : Reachable c w) : Inv c w := by
  induction reach with
  | init mni mns mnu => exact seminit_inv c mni mns mnu
  | step _ step ih => exact step.inv ih

theorem semop_exact (c : Seminfo) (w : World) (reach : Reachable c w) :
    (∀ v ∈ w.semuList,Distinct undoKey v.unEnt ∧ ∀ e ∈ v.unEnt,e.unAdjval ≠ 0) ∧
    (∀ granted p id sops,∃ ended w',sysSemop c w granted p id sops = .ok (ended,w') ∧
      (AllOrNothing w p id sops ended w' ↔ ((∃ wakeup,ended = .done wakeup) → InRange w p id sops))) ∧
    (∀ p id sops doUndos,(∀ sop ∈ sops,sop.semNum < (w.sema (ipcidToIx id)).sems.length) →
      ∃ ended w',semopAttempt c w p id sops doUndos = .ok (ended,w') ∧
        (AllOrNothing w p id sops ended w' ↔ ((∃ wakeup,ended = .done wakeup) → InRange w p id sops))) := by
  refine ⟨fun v mem => ?_,fun granted p id sops => ?_,fun p id sops doUndos inside => ?_⟩
  · exact ⟨(reach.inv.undo.ents v mem).distinct,(reach.inv.undo.ents v mem).nonzero⟩
  · obtain ⟨ended,w',ran,_,exact_⟩ := sysSemop_spec p id sops reach.inv granted
    exact ⟨ended,w',ran,exact_⟩
  · obtain ⟨ended,w',ran,attempted⟩ := semopAttempt_spec p id sops reach.inv doUndos
    exact ⟨ended,w',ran,attempted.exact inside⟩

def oneSem : World :=
  { seminit 10 60 30 with
    sema := Function.update (seminit 10 60 30).sema 0 { alloc := true, seq := 1, key := 7, sems := [{ semval := 0, semncnt := 0, semzcnt := 0 }] }
    semtot := 1 }

theorem oneSem_reached : Reachable seminfo oneSem := .step (.init 10 60 30) (.semget 7 1 rfl)

theorem semop_exact_one :
    ∃ ended w',sysSemop seminfo oneSem true 5 65536 [⟨0,1,true,false,by decide⟩] = .ok (ended,w') ∧
      (AllOrNothing oneSem 5 65536 [⟨0,1,true,false,by decide⟩] ended w' ↔ ((∃ wakeup,ended = .done wakeup) → InRange oneSem 5 65536 [⟨0,1,true,false,by decide⟩])) :=
  (semop_exact seminfo oneSem oneSem_reached).2.1 true 5 65536 _

-- Up, down without SEM_UNDO, and up again: the adjustment becomes 2.
def updown : List Sembuf := [⟨0,32767,true,false,by decide⟩,⟨0,-32767,false,false,by decide⟩,⟨0,32767,true,false,by decide⟩]

theorem semop_wraps :
    ¬∀ c w,Reachable c w → ∀ p id sops ended w',sysSemop c w true p id sops = .ok (ended,w') → AllOrNothing w p id sops ended w' := by
  intro all
  have ran : sysSemop seminfo oneSem true 5 65536 updown =
      .ok (.done false,{ oneSem.setSems 0 [{ semval := 32767, semncnt := 0, semzcnt := 0 }] with semuList := [{ unProc := 5, unEnt := [{ unAdjval := 2, unNum := 0, unId := 0 }] }] }) := by
    rfl
  have applied := all seminfo oneSem oneSem_reached 5 65536 updown _ _ ran
  have adjusted := applied.adjusts 5 0 0
  revert adjusted
  decide
end Runs
end NetbsdAvr32.Sysvsem
