import NetbsdAvr32.SemEvent

-- What an attempt does to the sleepers of its set when it wakes nobody.
namespace NetbsdAvr32.Sysvsem
open List
variable {c : Seminfo} {w w' : World} {p ix n num : Nat} {id : Int} {sems sems' left : List Sem} {sops passed done : List Sembuf} {sop at_ : Sembuf} {a : Int}
  {wakeup wakeup' undos undos' : Bool} {v v' : Nat → Int} {ended : Ended}

-- Where a sleeper waits for a semaphore to rise, it has not; where one waits
-- for zero, it has not become zero.
def Quietly (sems sems' : List Sem) : Prop :=
  ∀ n a b,(counts sems)[n]? = some (a,b) → (0 < a → semvalAt sems' n ≤ semvalAt sems n) ∧ (0 < b → 0 < semvalAt sems n → 0 < semvalAt sems' n)

theorem counts_at (sems : List Sem) (n : Nat) : (counts sems)[n]? = (sems[n]?).map fun s => (s.semncnt,s.semzcnt) := getElem?_map ..
theorem Quietly.refl (sems : List Sem) : Quietly sems sems := fun _ _ _ _ => ⟨fun _ => Int.le_refl _,fun _ up => up⟩

theorem Quietly.trans {sems₁ : List Sem} (first : Quietly sems sems₁) (same : counts sems₁ = counts sems) (second : Quietly sems₁ sems') : Quietly sems sems' := by
  intro n a b found
  obtain ⟨rises,empties⟩ := first n a b found
  obtain ⟨rises',empties'⟩ := second n a b (same ▸ found)
  exact ⟨fun some_ => Int.le_trans (rises' some_) (rises some_),fun some_ up => empties' some_ (empties some_ up)⟩

theorem quietly_bump (here : num < sems.length) (rises : 0 < ((sems[num]?).getD ⟨0,0,0⟩).semncnt → semvalAt (bump sems num a) num ≤ semvalAt sems num)
    (empties : 0 < ((sems[num]?).getD ⟨0,0,0⟩).semzcnt → 0 < semvalAt sems num → 0 < semvalAt (bump sems num a) num) : Quietly sems (bump sems num a) := by
  intro n x y found
  by_cases same : n = num
  · subst same
    rw [counts_at] at found
    obtain ⟨s,at_,is⟩ := Option.map_eq_some_iff.mp found
    obtain ⟨rfl,rfl⟩ := Prod.mk.inj is
    rw [at_] at rises empties
    exact ⟨rises,empties⟩
  rw [semvalAt_bump here,if_neg same]
  exact ⟨fun _ => Int.le_refl _,fun _ up => up⟩

theorem semopScan_wakes (ok : SemsOk sems) (goes : ¬Stops sems sop) (here : sop.semNum < sems.length) (fits : addOp (semvalAt sems) sop sop.semNum ≤ 65535)
    (passed sops : List Sembuf) (wakeup undos : Bool) : ∃ wakeup',semopScan sems wakeup undos passed (sop :: sops) =
      semopScan (bump sems sop.semNum sop.semOp) wakeup' (undos || sop.undone) (sop :: passed) sops ∧
      (wakeup' = false → wakeup = false ∧ Quietly sems (bump sems sop.semNum sop.semOp)) := by
  have now := congrFun (semvalAt_goes ok here goes fits) sop.semNum
  rw [addOp_eq,if_pos rfl] at now
  have goes := not_or.mp goes
  rw [semopScan]
  by_cases down : sop.semOp < 0
  · have undone : sop.undone = sop.undo := by
      have ne : sop.semOp ≠ 0 := by omega
      simp [Sembuf.undone,ne]
    rw [if_pos down,semvalAt_getD,if_neg fun short_ => goes.1 ⟨down,short_⟩,undone]
    refine ⟨_,rfl,fun quiet => ?_⟩
    obtain ⟨before,still⟩ := Bool.or_eq_false_iff.mp quiet
    have still := of_decide_eq_false still
    refine ⟨before,quietly_bump here (fun _ => by omega) fun some_ _ => ?_⟩
    have cast := ushort_cast (semvalAt sems sop.semNum + sop.semOp)
    omega
  rw [if_neg down]
  by_cases zero : sop.semOp = 0
  · have undone : sop.undone = false := by simp [Sembuf.undone,zero]
    have empty : ¬0 < ((sems[sop.semNum]?).getD ⟨0,0,0⟩).semval := by
      intro up
      have := semvalAt_getD sems sop.semNum
      exact goes.2 ⟨zero,by omega⟩
    rw [if_pos zero,if_neg empty,undone,Bool.or_false,zero,bump_zero ok]
    exact ⟨_,rfl,fun quiet => ⟨quiet,.refl sems⟩⟩
  have undone : sop.undone = sop.undo := by simp [Sembuf.undone,zero]
  rw [if_neg zero,undone]
  refine ⟨_,rfl,fun quiet => ?_⟩
  obtain ⟨before,still⟩ := Bool.or_eq_false_iff.mp quiet
  have still := of_decide_eq_false still
  exact ⟨before,quietly_bump here (fun some_ => absurd some_ still) fun _ _ => by have := (semvalAt_range ok sop.semNum).1; omega⟩

theorem quiet_scan (ok : SemsOk sems) (inside : ∀ sop ∈ sops,sop.semNum < sems.length) (steady : Steady (semvalAt sems) sops)
    (ran : semopScan sems wakeup undos passed sops = .through sems' false undos') : wakeup = false ∧ Quietly sems sems' := by
  induction sops generalizing sems wakeup undos passed with
  | nil =>
    cases ran
    exact ⟨rfl,.refl _⟩
  | cons sop sops ih =>
    by_cases stops : Stops sems sop
    · rw [semopScan_stop stops] at ran
      cases ran
    obtain ⟨fits,steady⟩ := steady.resolve_left stops
    have here := inside sop mem_cons_self
    obtain ⟨wakeup₁,step,quiet⟩ := semopScan_wakes ok stops here fits passed sops wakeup undos
    rw [step] at ran
    rw [← semvalAt_goes ok here stops fits] at steady
    obtain ⟨none_,rest⟩ := ih (ok.bump _ _) (fun x mem => bump_length.symm ▸ inside x (mem_cons_of_mem _ mem)) steady ran
    obtain ⟨before,first⟩ := quiet none_
    exact ⟨before,first.trans (counts_bump ..) rest⟩

-- What a caller can do in this state: values stay in 16 bits, it does not go to
-- sleep for zero on a semaphore it has itself lowered, and it can be counted.
structure Restful (w : World) (id : Int) (sops : List Sembuf) : Prop where
  steady : Steady (semvalAt (w.sema (ipcidToIx id)).sems) sops
  zero : ∀ u pre at_,BlockedAt (semvalAt (w.sema (ipcidToIx id)).sems) sops at_ u pre → at_.semOp = 0 → 0 ≤ opTotal pre at_.semNum
  room : ∀ sop ∈ sops,∀ a b,(counts (w.sema (ipcidToIx id)).sems)[sop.semNum]? = some (a,b) → a < 65535 ∧ b < 65535

inductive Tries (w : World) (id : Int) (sops : List Sembuf) : Ended → World → Prop where
  | done {w' : World} {sems' : List Sem} {wakeup : Bool} (sema : w'.sema = (w.setSems (ipcidToIx id) sems').sema) (sleepers : w'.waiters = w.waiters)
      (same : counts sems' = counts (w.sema (ipcidToIx id)).sems) (quiet : wakeup = false → Quietly (w.sema (ipcidToIx id)).sems sems') :
      Tries w id sops (.done wakeup) w'
  | error {w' : World} {e : Errno} (sema : w'.sema = w.sema) (sleepers : w'.waiters = w.waiters) : Tries w id sops (.error e) w'
  | asleep {w' : World} {x : Waiter} {u : Nat → Int} {pre : List Sembuf} (named : x.semid = id) (vector : x.sops = sops)
      (blocked : BlockedAt (semvalAt (w.sema (ipcidToIx id)).sems) sops x.sop u pre)
      (sema : w'.sema = (w.setSems (ipcidToIx id) (countWaiter (w.sema (ipcidToIx id)).sems x.sop 1)).sema) (sleepers : w'.waiters = x :: w.waiters) :
      Tries w id sops .asleep w'

theorem setSems_self (w : World) (ix : Nat) : (w.setSems ix (w.sema ix).sems).sema = w.sema := Function.update_eq_self ..

theorem attempt_tries (inv : Inv c w) (inside : ∀ sop ∈ sops,sop.semNum < (w.sema (ipcidToIx id)).sems.length) (steady : Steady (semvalAt (w.sema (ipcidToIx id)).sems) sops)
    {doUndos : Bool} (ran : semopAttempt c w p id sops doUndos = .ok (ended,w')) : Tries w id sops ended w' := by
  have ok := inv.sems (ipcidToIx id)
  have start : Unwinds (w.sema (ipcidToIx id)).sems (w.sema (ipcidToIx id)).sems [] := ⟨ok,rfl⟩
  have ends := @steady_scan (w.sema (ipcidToIx id)).sems sops [] false doUndos ok inside steady
  unfold semopAttempt at ran
  dsimp only at ran
  cases scan : semopScan (w.sema (ipcidToIx id)).sems false doUndos [] sops with
  | blocked left undos done at_ =>
    rw [scan] at ran ends
    dsimp only at ran
    rw [semopScan_blocked ok start scan] at ran
    obtain ⟨u,pre,blocked⟩ := ends
    split at ran
    · cases ran
      exact .error (setSems_self ..) rfl
    cases ran
    exact .asleep rfl rfl blocked rfl rfl
  | through sems' wakeup' undos' =>
    rw [scan] at ran
    have same := semopScan_counts ok scan
    have quiet (is : wakeup' = false) : Quietly (w.sema (ipcidToIx id)).sems sems' := by
      subst is
      exact (quiet_scan ok inside steady scan).2
    dsimp only at ran
    split at ran
    · obtain ⟨⟨r,l⟩,-,rest⟩ := Outcome.bind_ok ran
      cases r with
      | none =>
        cases rest
        exact .done rfl rfl same quiet
      | some e =>
        have taken : unwind sems' sops = (w.sema (ipcidToIx id)).sems := by
          have whole := ((semopScan_through ok scan).back _ start).back
          rw [append_nil] at whole
          rw [← whole]
          exact unwind_perm (reverse_perm sops).symm sems'
        rw [taken] at rest
        cases rest
        exact .error (setSems_self ..) rfl
    cases ran
    exact .done rfl rfl same quiet

open Keyed
variable {c : Seminfo} {w w' : World} {p q ix n : Nat} {id : Int} {sops : List Sembuf} {sems : List Sem} {ended : Ended} {result : Option Ended} {event : Event}

-- For a process, a set and a semaphore: what its successful SEM_UNDO operations
-- add up to since they were last cleared.
def Sums := Nat → Nat → Nat → Int

def went : Option Ended → Bool
  | some (.done _) => true
  | _ => false

def Sums.add (sums : Sums) (p ix : Nat) (sops : List Sembuf) : Sums := fun q i n => sums q i n + if q = p ∧ i = ix then undoTotal sops n else 0

def Sums.after (sums : Sums) (result : Option Ended) : Event → Sums
  | .rmid ix => fun q i n => if i = ix then 0 else sums q i n
  | .setall ix _ => fun q i n => if i = ix then 0 else sums q i n
  | .setval ix m _ => fun q i n => if i = ix ∧ n = m then 0 else sums q i n
  | .exit p => fun q i n => if q = p then 0 else sums q i n
  | .semop _ p id sops => if went result then sums.add p (ipcidToIx id) sops else sums
  | .wake _ _ x _ => if went result then sums.add x.proc (ipcidToIx x.semid) x.sops else sums
  | .semget .. | .reallocStart | .reallocEnd .. => sums

-- The vector stops before a value passes 65535, or it leaves every value at
-- SEMVMX at most and every adjustment of the caller in a short.
structure Fits (c : Seminfo) (w : World) (p : Nat) (id : Int) (sops : List Sembuf) : Prop where
  steady : Steady (semvalAt (w.sema (ipcidToIx id)).sems) sops
  through : ∀ v,runOps (semvalAt (w.sema (ipcidToIx id)).sems) sops = some v → ∀ n,v n ≤ c.semvmx ∧
    -32768 ≤ adjOf w.semuList p (ipcidToIx id) n - undoTotal sops n ∧ adjOf w.semuList p (ipcidToIx id) n - undoTotal sops n ≤ 32767

def Within (c : Seminfo) (w : World) : Event → Prop
  | .semget .. => Unclaimed w
  | .semop _ p id sops => w.serves id → (∀ sop ∈ sops,sop.semNum < (w.sema (ipcidToIx id)).sems.length) → Fits c w p id sops
  | .wake _ _ x signal => w.serves x.semid → signal = false → Fits c w x.proc x.semid x.sops
  | .exit p => ∀ ix n,semvalAt (w.sema ix).sems n + adjOf w.semuList p ix n ≤ c.semvmx
  | _ => True

inductive Audit (c : Seminfo) : World → Sums → Prop where
  | init (mni mns mnu : Nat) : Audit c (seminit mni mns mnu) fun _ _ _ => 0
  | step {w w' : World} {sums : Sums} {event : Event} {result : Option Ended} (before : Audit c w sums) (does : Does c w event result w')
      (within : Within c w event) : Audit c w' (sums.after result event)

structure Right (c : Seminfo) (w : World) (sums : Sums) : Prop where
  values : ∀ ix,∀ s ∈ (w.sema ix).sems,s.semval ≤ c.semvmx
  adjusts : ∀ p ix n,adjOf w.semuList p ix n = -sums p ix n

theorem values_iff {vmx : Nat} : (∀ s ∈ sems,s.semval ≤ vmx) ↔ ∀ n,semvalAt sems n ≤ vmx := by
  constructor
  · intro small n
    unfold semvalAt
    cases found : sems[n]? with
    | none => exact Int.natCast_nonneg vmx
    | some s => exact Int.ofNat_le.mpr (small s (mem_of_getElem? found))
  intro small s mem
  obtain ⟨n,at_⟩ := mem_iff_getElem?.mp mem
  have here := small n
  unfold semvalAt at here
  rw [at_] at here
  exact Int.ofNat_le.mp here

theorem Right.same {sums : Sums} (right : Right c w sums) (values : ∀ ix n,semvalAt (w'.sema ix).sems n = semvalAt (w.sema ix).sems n)
    (adjusts : SameAdj w.semuList w'.semuList) : Right c w' sums where
  values ix := by
    rw [values_iff]
    intro n
    rw [values]
    exact values_iff.mp (right.values ix) n
  adjusts q ix n := by
    rw [adjusts]
    exact right.adjusts q ix n

theorem attempt_runs (inv : Inv c w) (inside : ∀ sop ∈ sops,sop.semNum < (w.sema (ipcidToIx id)).sems.length) (steady : Steady (semvalAt (w.sema (ipcidToIx id)).sems) sops)
    {doUndos wakeup : Bool} (ran : semopAttempt c w p id sops doUndos = .ok (.done wakeup,w')) :
    runOps (semvalAt (w.sema (ipcidToIx id)).sems) sops = some (semvalAt (w'.sema (ipcidToIx id)).sems) := by
  have ends := @steady_scan (w.sema (ipcidToIx id)).sems sops [] false doUndos (inv.sems _) inside steady
  unfold semopAttempt at ran
  dsimp only at ran
  cases scan : semopScan (w.sema (ipcidToIx id)).sems false doUndos [] sops with
  | blocked left undos done at_ =>
    rw [scan] at ran
    dsimp only at ran
    split at ran <;> cases ran
  | through sems' wakeup' undos' =>
    rw [scan] at ran ends
    dsimp only at ran
    split at ran
    · obtain ⟨⟨r,l⟩,-,rest⟩ := Outcome.bind_ok ran
      cases r with
      | none =>
        cases rest
        rw [setSems_here]
        exact ends
      | some e => cases rest
    cases ran
    rw [setSems_here]
    exact ends

theorem Fits.attempt {sums : Sums} (fits : Fits c w p id sops) (inv : Inv c w) (right : Right c w sums) (inside : ∀ sop ∈ sops,sop.semNum < (w.sema (ipcidToIx id)).sems.length)
    {doUndos : Bool} (ran : semopAttempt c w p id sops doUndos = .ok (ended,w')) :
    Right c w' (if went (some ended) then sums.add p (ipcidToIx id) sops else sums) := by
  obtain ⟨ended₁,w₁,ran₁,attempted⟩ := semopAttempt_spec p id sops inv doUndos
  rw [ran] at ran₁
  cases ran₁
  cases how : ended with
  | asleep | error e =>
    have kept := attempted.failed fun _ is => by rw [how] at is; cases is
    exact right.same kept.values kept.adjusts
  | done wakeup =>
    subst how
    have runs := attempt_runs inv inside fits.steady ran
    have range : InRange w p id sops := by
      refine ⟨fun n => ?_,fun n => (fits.through _ runs n).2⟩
      rw [← runOps_total runs n]
      have := semvalAt_range (attempted.inv.sems (ipcidToIx id)) n
      omega
    have applied : Applied w p id sops w' := (attempted.done inside wakeup rfl).mpr range
    constructor
    · intro ix
      rw [values_iff]
      intro n
      by_cases here : ix = ipcidToIx id
      · rw [here]
        exact (fits.through _ runs n).1
      rw [applied.elsewhere ix here]
      exact values_iff.mp (right.values ix) n
    intro q ix n
    rw [applied.adjusts,right.adjusts]
    show _ = -(sums q ix n + _)
    split
    · rw [Int.neg_add]
      rfl
    · rw [Int.sub_zero,Int.add_zero]

theorem setVals_small {vmx : Nat} (vals : List Nat) (limit : vmx = c.semvmx) (small : ∀ s ∈ sems,s.semval ≤ vmx) : ∀ s ∈ setVals c sems vals,s.semval ≤ vmx := by
  induction sems generalizing vals with
  | nil => cases vals <;> exact small
  | cons s sems ih =>
    cases vals with
    | nil => exact small
    | cons v vals =>
      rw [setVals]
      split
      · exact small
      next low =>
      intro x mem
      rcases mem_cons.mp mem with rfl | mem
      · show ushort v ≤ vmx
        have := ushort_cast v
        omega
      · exact ih vals (fun y mem => small y (mem_cons_of_mem _ mem)) x mem

theorem Does.right {sums : Sums} (does : Does c w event result w') (inv : Inv c w) (aimed : Aimed w) (right : Right c w sums) (within : Within c w event) :
    Right c w' (sums.after result event) := by
  cases does with
  | semget key nsems ran =>
    obtain ⟨i,-,-,-,-,rfl⟩ := semgetNew_shape ran
    refine ⟨fun ix s mem => ?_,right.adjusts⟩
    by_cases here : ix = i
    · dsimp only at mem
      rw [here,Function.update_self] at mem
      rw [(mem_replicate.mp mem).2]
      exact Nat.zero_le _
    dsimp only at mem
    rw [Function.update_of_ne here] at mem
    exact right.values ix s mem
  | rmid i live =>
    constructor
    · intro ix s mem
      unfold semctlRmid at mem
      dsimp only at mem
      by_cases here : ix = i
      · rw [here,Function.update_self] at mem
        exact right.values i s mem
      rw [Function.update_of_ne here] at mem
      exact right.values ix s mem
    intro q ix n
    show adjOf (semundoClear i none w.semuList) q ix n = -(if ix = i then 0 else sums q ix n)
    rw [adjOf_clear inv.undo,hit_all,right.adjusts]
    by_cases here : ix = i <;> simp [here]
  | setval i m val live ran =>
    unfold semctlSetval at ran
    split at ran
    · cases ran
    split at ran
    · cases ran
    next low =>
    cases ran
    constructor
    · intro ix s mem
      by_cases here : ix = i
      · rw [here,setSems_here] at mem
        obtain ⟨k,at_⟩ := mem_iff_getElem?.mp mem
        rw [getElem?_modify] at at_
        obtain ⟨t,found,rfl⟩ := Option.map_eq_some_iff.mp at_
        split
        · show ushort val ≤ c.semvmx
          have := ushort_cast val
          omega
        · exact right.values i t (mem_of_getElem? found)
      rw [setSems_else w here] at mem
      exact right.values ix s mem
    intro q ix n
    show adjOf (semundoClear i (some m) w.semuList) q ix n = -(if ix = i ∧ n = m then 0 else sums q ix n)
    rw [adjOf_clear inv.undo,right.adjusts]
    by_cases here : (ix,n) = (i,m)
    · rw [if_pos (hit_some.mpr here),if_pos (Prod.mk.inj here)]
      rfl
    · rw [if_neg (fun on => here (hit_some.mp on)),if_neg fun both => here (Prod.ext both.1 both.2)]
  | setall i vals live =>
    constructor
    · intro ix s mem
      have mem : s ∈ ((w.setSems i (setVals c (w.sema i).sems vals)).sema ix).sems := mem
      by_cases here : ix = i
      · rw [here,setSems_here] at mem
        exact setVals_small vals rfl (right.values i) s mem
      rw [setSems_else w here] at mem
      exact right.values ix s mem
    intro q ix n
    show adjOf (semundoClear i none w.semuList) q ix n = -(if ix = i then 0 else sums q ix n)
    rw [adjOf_clear inv.undo,hit_all,right.adjusts]
    by_cases here : ix = i <;> simp [here]
  | semop granted p id sops free ran =>
    rcases sysSemop_cases ran with ⟨rfl,e,rfl⟩ | ⟨live,inside,attempt⟩
    · exact right
    · exact (within live inside).attempt inv right inside attempt
  | wake before after x signal sleeps ran =>
    have up : Right c (w.awake x (before ++ after)) sums := right.same (fun ix n => congrFun (awake_values ..) n) fun _ _ _ => rfl
    rcases semopWake_cases ran with ⟨-,rfl,rfl⟩ | ⟨live,⟨rfl,how⟩ | ⟨ended,rfl,goes,attempt⟩⟩
    · exact right.same (fun _ _ => rfl) fun _ _ _ => rfl
    · rcases how with ⟨rfl,-⟩ | ⟨rfl,-⟩
      · exact up
      · exact up
    obtain ⟨steady,through⟩ := within live goes
    have fits : Fits c (w.awake x (before ++ after)) x.proc x.semid x.sops := by
      constructor
      · rw [awake_values]
        exact steady
      rw [awake_values]
      exact through
    refine fits.attempt (inv.awake x _) up (fun sop of => ?_) attempt
    rw [(awake_sets w x _ _).2.2]
    exact aimed.inside x (by rw [sleeps]; simp) live sop of
  | exit p ran =>
    obtain ⟨w₁,ran₁,-,-,values,adjusts⟩ := semexit_spec inv fun ix n => aimed.held p ix n
    rw [ran] at ran₁
    cases ran₁
    constructor
    · intro ix
      rw [values_iff]
      intro n
      rw [values]
      have low := semvalAt_range (inv.sems ix) n
      have high : semvalAt (w.sema ix).sems n + adjOf w.semuList p ix n ≤ c.semvmx := within ix n
      unfold exitVal
      split <;> omega
    intro q ix n
    show _ = -(if q = p then 0 else sums q ix n)
    rw [adjusts,right.adjusts]
    split <;> rfl
  | reallocStart free => exact ⟨right.values,right.adjusts⟩
  | reallocEnd mni mns mnu busy asleep =>
    unfold semreallocEnd
    split
    · exact right
    constructor
    · intro ix s mem
      dsimp only at mem
      split at mem
      · exact right.values ix s mem
      · cases mem
    intro q ix n
    unfold adjOf vectorOf
    rw [inv.undo.distinct.get?_perm (reverse_perm _).symm]
    exact right.adjusts q ix n

theorem Audit.sound {sums : Sums} (audit : Audit c w sums) : Inv c w ∧ Aimed w ∧ Right c w sums := by
  induction audit with
  | init mni mns mnu => exact ⟨seminit_inv c mni mns mnu,seminit_aimed mni mns mnu,nofun,fun _ _ _ => rfl⟩
  | @step w w' sums event result before does within ih =>
    obtain ⟨inv,aimed,right⟩ := ih
    refine ⟨does.step.inv inv,does.aimed inv aimed fun key nsems is => ?_,does.right inv aimed right within⟩
    subst is
    exact within

theorem sem_values {sums : Sums} (audit : Audit c w sums) :
    (∀ ix n,0 ≤ semvalAt (w.sema ix).sems n ∧ semvalAt (w.sema ix).sems n ≤ c.semvmx) ∧
    (∀ p ix n,adjOf w.semuList p ix n = -sums p ix n) ∧
    ∀ p,∃ w',semexit w p = .ok w' ∧ ((∀ ix n,semvalAt (w'.sema ix).sems n = max 0 (semvalAt (w.sema ix).sems n + adjOf w.semuList p ix n)) ↔
      ∀ ix n,semvalAt (w.sema ix).sems n + adjOf w.semuList p ix n ≤ 65535) := by
  obtain ⟨inv,aimed,right⟩ := audit.sound
  refine ⟨fun ix n => ⟨(semvalAt_range (inv.sems ix) n).1,values_iff.mp (right.values ix) n⟩,right.adjusts,fun p => ?_⟩
  obtain ⟨w',ran,-,-,values,-⟩ := semexit_spec inv fun ix n => aimed.held p ix n
  refine ⟨w',ran,fun exact_ ix n => ?_,fun fits ix n => ?_⟩
  · have here := exact_ ix n
    rw [values] at here
    unfold exitVal at here
    split at here <;> omega
  · rw [values]
    exact exitVal_exact (semvalAt_range (inv.sems ix) n).1 (fits ix n)

def raise : List Sembuf := [⟨0,1,true,false,by decide⟩]
def raised : World := { oneSem.setSems 0 [{ semval := 1, semncnt := 0, semzcnt := 0 }] with semuList := [{ unProc := 5, unEnt := [{ unAdjval := -1, unNum := 0, unId := 0 }] }] }

theorem raise_fits : Fits seminfo oneSem 5 65536 raise := by
  refine ⟨.inr ⟨by decide,trivial⟩,fun v ran n => ?_⟩
  have total := runOps_total ran n
  have start : semvalAt (oneSem.sema (ipcidToIx 65536)).sems n = 0 := by
    cases n <;> rfl
  have none_ : adjOf oneSem.semuList 5 (ipcidToIx 65536) n = 0 := rfl
  have limit : seminfo.semvmx = 32767 := rfl
  rw [total,start,none_,limit]
  cases n with
  | zero => decide
  | succ n =>
    have ops : opTotal raise (n + 1) = 0 := rfl
    have undos : undoTotal raise (n + 1) = 0 := rfl
    rw [ops,undos]
    decide

theorem raised_audit : ∃ sums,Audit seminfo raised sums := by
  have made : Audit seminfo oneSem _ := .step (.init 10 60 30) (.semget 7 1 rfl) fun _ _ _ mem => absurd mem not_mem_nil
  exact ⟨_,made.step (.semop true 5 65536 raise rfl rfl) fun _ _ => raise_fits⟩

theorem sem_values_raised : ∃ w',semexit raised 5 = .ok w' ∧ ((∀ ix n,semvalAt (w'.sema ix).sems n = max 0 (semvalAt (raised.sema ix).sems n + adjOf raised.semuList 5 ix n)) ↔
    ∀ ix n,semvalAt (raised.sema ix).sems n + adjOf raised.semuList 5 ix n ≤ 65535) := by
  obtain ⟨sums,audit⟩ := raised_audit
  exact (sem_values audit).2.2 5

theorem semval_passes : ¬∀ w,Reachable seminfo w → ∀ ix,∀ s ∈ (w.sema ix).sems,s.semval ≤ seminfo.semvmx := by
  intro all
  have first : sysSemop seminfo oneSem true 5 65536 [⟨0,32767,false,false,by decide⟩] = .ok (.done false,oneSem.setSems 0 [{ semval := 32767, semncnt := 0, semzcnt := 0 }]) := rfl
  have second : sysSemop seminfo (oneSem.setSems 0 [{ semval := 32767, semncnt := 0, semzcnt := 0 }]) true 5 65536 [⟨0,1,false,false,by decide⟩] =
      .ok (.done false,(oneSem.setSems 0 [{ semval := 32767, semncnt := 0, semzcnt := 0 }]).setSems 0 [{ semval := 32768, semncnt := 0, semzcnt := 0 }]) := rfl
  have reached := Reachable.step (.step oneSem_reached (.semop true 5 65536 _ rfl first)) (.semop true 5 65536 _ rfl second)
  have small := all _ reached 0 { semval := 32768, semncnt := 0, semzcnt := 0 } (by rw [setSems_here]; exact mem_singleton.mpr rfl)
  revert small
  decide
end NetbsdAvr32.Sysvsem
