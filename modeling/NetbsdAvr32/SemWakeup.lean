import NetbsdAvr32.SemValues

-- Sleepers and wake-ups over whole runs.
namespace NetbsdAvr32.Sysvsem
open Keyed List Function
variable {c : Seminfo} {w w' : World} {p ix seq n : Nat} {id : Int} {sems sems' : List Sem} {sops : List Sembuf} {sop : Sembuf} {ended : Ended} {result : Option Ended}
  {event : Event} {x : Waiter} {ws front back : List Waiter} {v v' : Nat → Int}

-- The sleepers, each with whether there has been a wake-up of its set since.
abbrev Log := List (Waiter × Bool)

def rings (w : World) (result : Option Ended) (ix : Nat) : Event → Bool
  | .semop _ _ id _ => decide (result = some (.done true) ∧ ix = ipcidToIx id)
  | .wake _ _ x _ => decide (result = some (.done true) ∧ ix = ipcidToIx x.semid)
  | .rmid i => decide (ix = i)
  | .setval i _ _ => decide (ix = i)
  | .setall i _ => decide (ix = i)
  | .exit p => (vectorOf w.semuList p).any fun e => decide (e.unId = ix)
  | .reallocStart => true
  | .semget .. | .reallocEnd .. => false

def Log.ring (l : Log) (wakes : Nat → Bool) : Log := l.map fun (x,woken) => (x,woken || wakes (ipcidToIx x.semid))

-- Those that go to sleep come first in the list of sleepers.
def Log.sleep (l : Log) (ws : List Waiter) : Log := (ws.take (ws.length - l.length)).map (·,false) ++ l

def Log.after (l : Log) (w : World) (result : Option Ended) (event : Event) (ws : List Waiter) : Log :=
  match event with
  | .wake before _ _ _ => (Log.ring (l.eraseIdx before.length) fun ix => rings w result ix event).sleep ws
  | _ => (l.ring fun ix => rings w result ix event).sleep ws

inductive Watch (allows : World → Event → Prop) (c : Seminfo) : World → Log → Prop where
  | init (mni mns mnu : Nat) : Watch allows c (seminit mni mns mnu) []
  | step {w w' : World} {l : Log} {event : Event} {result : Option Ended} (before : Watch allows c w l) (does : Does c w event result w') (allowed : allows w event) :
      Watch allows c w' (l.after w result event w'.waiters)

def waitsOn (ix seq n : Nat) (zero : Bool) (x : Waiter) : Bool :=
  decide (ipcidToIx x.semid = ix ∧ ipcidToSeq x.semid = seq ∧ x.sop.semNum = n ∧ decide (x.sop.semOp = 0) = zero)

def Tally (ws : List Waiter) (ix seq : Nat) (sems : List Sem) : Prop :=
  ∀ n a b,(counts sems)[n]? = some (a,b) → (a < 65536 ∧ b < 65536) ∧ a = ws.countP (waitsOn ix seq n false) ∧ b = ws.countP (waitsOn ix seq n true)

-- No change that is not announced lets the sleeper go on.
structure Stuck (v : Nat → Int) (x : Waiter) (pre : List Sembuf) : Prop where
  split : ∃ post,x.sops = pre ++ x.sop :: post
  waits : x.sop.semOp < 0 ∧ v x.sop.semNum + opTotal pre x.sop.semNum + x.sop.semOp < 0 ∨
    x.sop.semOp = 0 ∧ 0 ≤ opTotal pre x.sop.semNum ∧ 0 < v x.sop.semNum + opTotal pre x.sop.semNum

structure Watched (w : World) (l : Log) : Prop where
  names : l.map Prod.fst = w.waiters
  own : ∀ x ∈ w.waiters,x.sop ∈ x.sops
  tally : ∀ ix,(w.sema ix).alloc = true → Tally w.waiters ix (w.sema ix).seq (w.sema ix).sems
  stuck : ∀ x,(x,false) ∈ l → w.serves x.semid ∧ ∃ pre,Stuck (semvalAt (w.sema (ipcidToIx x.semid)).sems) x pre

theorem Stuck.cannot {pre : List Sembuf} (stuck : Stuck v x pre) : runOps v x.sops = none := by
  obtain ⟨post,split⟩ := stuck.split
  rw [split,runOps_append]
  cases ran : runOps v pre with
  | none => rfl
  | some u =>
    refine runOps_stop ?_
    have sum := runOps_total ran x.sop.semNum
    unfold StopsAt
    rw [sum]
    rcases stuck.waits with down | ⟨zero,-,up⟩
    · exact .inl down
    · exact .inr ⟨zero,up⟩

theorem BlockedAt.stuck {u : Nat → Int} {pre : List Sembuf} (blocked : BlockedAt v x.sops x.sop u pre) (zero : x.sop.semOp = 0 → 0 ≤ opTotal pre x.sop.semNum) :
    Stuck v x pre := by
  have sum := runOps_total blocked.ran x.sop.semNum
  have stops := blocked.stops
  unfold StopsAt at stops
  rw [sum] at stops
  exact ⟨blocked.split,stops.imp_right fun ⟨none_,up⟩ => ⟨none_,zero none_,up⟩⟩

theorem Stuck.quiet {pre : List Sembuf} (stuck : Stuck (semvalAt sems) x pre) (mem : x ∈ ws) (tally : Tally ws (ipcidToIx x.semid) (ipcidToSeq x.semid) sems)
    (inside : x.sop.semNum < sems.length) (quiet : Quietly sems sems') (ok : SemsOk sems') : Stuck (semvalAt sems') x pre := by
  obtain ⟨a,b,found⟩ : ∃ a b,(counts sems)[x.sop.semNum]? = some (a,b) := by
    rw [counts_at,getElem?_eq_getElem inside]
    exact ⟨_,_,rfl⟩
  obtain ⟨-,risers,zeros⟩ := tally _ a b found
  obtain ⟨rises,empties⟩ := quiet _ a b found
  have low := (semvalAt_range ok x.sop.semNum).1
  refine ⟨stuck.split,?_⟩
  rcases stuck.waits with ⟨down,short_⟩ | ⟨zero,raised,up⟩
  · have counted : 0 < a := by
      rw [risers]
      refine countP_pos_iff.mpr ⟨x,mem,decide_eq_true ⟨rfl,rfl,rfl,decide_eq_false (by omega)⟩⟩
    exact .inl ⟨down,by omega⟩
  have counted : 0 < b := by
    rw [zeros]
    refine countP_pos_iff.mpr ⟨x,mem,decide_eq_true ⟨rfl,rfl,rfl,decide_eq_true zero⟩⟩
  refine .inr ⟨zero,raised,?_⟩
  by_cases some_ : 0 < semvalAt sems x.sop.semNum
  · omega
  · omega

theorem counts_countWaiter (sems : List Sem) (sop : Sembuf) (k : Int) (n : Nat) : (counts (countWaiter sems sop k))[n]? =
    ((counts sems)[n]?).map fun (a,b) => if n = sop.semNum then (if sop.semOp = 0 then (a,ushort (b + k)) else (ushort (a + k),b)) else (a,b) := by
  rw [counts_at,counts_at]
  unfold countWaiter
  rw [getElem?_modify]
  cases sems[n]? with
  | none => rfl
  | some s =>
    simp only [Option.map_eq_map,Option.map_some]
    split
    · next same =>
      rw [if_pos same.symm]
      split <;> rfl
    next same =>
    rw [if_neg (Ne.symm same)]

theorem ushort_small {k : Int} (low : 0 ≤ k) (high : k < 65536) : (ushort k : Int) = k := by
  rw [ushort_cast]
  exact Int.emod_eq_of_lt low high

theorem waitsOn_here (x : Waiter) (n : Nat) (zero : Bool) : waitsOn (ipcidToIx x.semid) (ipcidToSeq x.semid) n zero x =
    decide (n = x.sop.semNum ∧ decide (x.sop.semOp = 0) = zero) := by
  refine decide_eq_decide.mpr ⟨fun all => ⟨all.2.2.1.symm,all.2.2.2⟩,fun both => ⟨rfl,rfl,both.1.symm,both.2⟩⟩

theorem Tally.add (tally : Tally ws (ipcidToIx x.semid) (ipcidToSeq x.semid) sems)
    (room : ∀ a b,(counts sems)[x.sop.semNum]? = some (a,b) → a < 65535 ∧ b < 65535) :
    Tally (x :: ws) (ipcidToIx x.semid) (ipcidToSeq x.semid) (countWaiter sems x.sop 1) := by
  intro n a' b' found
  rw [counts_countWaiter] at found
  obtain ⟨⟨a,b⟩,at_,is⟩ := Option.map_eq_some_iff.mp found
  obtain ⟨small,risers,zeros⟩ := tally n a b at_
  rw [countP_cons,countP_cons,waitsOn_here,waitsOn_here,← risers,← zeros]
  by_cases same : n = x.sop.semNum
  · subst same
    have few := room a b at_
    dsimp only at is
    rw [if_pos rfl] at is
    split_ifs at is with zero
    · obtain ⟨rfl,rfl⟩ := Prod.mk.inj is
      have now := @ushort_small (b + 1) (by omega) (by omega)
      simp only [zero,true_and,decide_true,Bool.true_eq_false,decide_false,Bool.false_eq_true,if_false,if_true]
      omega
    obtain ⟨rfl,rfl⟩ := Prod.mk.inj is
    have now := @ushort_small (a + 1) (by omega) (by omega)
    simp only [zero,true_and,decide_true,Bool.false_eq_true,decide_false,if_false,if_true]
    omega
  dsimp only at is
  rw [if_neg same] at is
  obtain ⟨rfl,rfl⟩ := Prod.mk.inj is
  simp only [same,false_and,decide_false,Bool.false_eq_true,if_false]
  exact ⟨small,rfl,rfl⟩

theorem Tally.remove (tally : Tally (front ++ x :: back) (ipcidToIx x.semid) (ipcidToSeq x.semid) sems) :
    Tally (front ++ back) (ipcidToIx x.semid) (ipcidToSeq x.semid) (countWaiter sems x.sop (-1)) := by
  intro n a' b' found
  rw [counts_countWaiter] at found
  obtain ⟨⟨a,b⟩,at_,is⟩ := Option.map_eq_some_iff.mp found
  obtain ⟨small,risers,zeros⟩ := tally n a b at_
  rw [countP_append,countP_cons,waitsOn_here] at risers zeros
  rw [countP_append,countP_append]
  by_cases same : n = x.sop.semNum
  · subst same
    dsimp only at is
    rw [if_pos rfl] at is
    split_ifs at is with zero
    · obtain ⟨rfl,rfl⟩ := Prod.mk.inj is
      simp only [zero,true_and,decide_true,Bool.true_eq_false,decide_false,Bool.false_eq_true,if_false,if_true] at risers zeros
      have now := @ushort_small (b + -1) (by omega) (by omega)
      omega
    obtain ⟨rfl,rfl⟩ := Prod.mk.inj is
    simp only [zero,true_and,decide_true,Bool.false_eq_true,decide_false,if_false,if_true] at risers zeros
    have now := @ushort_small (a + -1) (by omega) (by omega)
    omega
  dsimp only at is
  rw [if_neg same] at is
  obtain ⟨rfl,rfl⟩ := Prod.mk.inj is
  simp only [same,false_and,decide_false,Bool.false_eq_true,if_false] at risers zeros
  omega

theorem waitsOn_else (apart : ¬(ipcidToIx x.semid = ix ∧ ipcidToSeq x.semid = seq)) (n : Nat) (zero : Bool) : waitsOn ix seq n zero x = false :=
  decide_eq_false fun all => apart ⟨all.1,all.2.1⟩

theorem Tally.skip (apart : ¬(ipcidToIx x.semid = ix ∧ ipcidToSeq x.semid = seq)) : Tally (front ++ x :: back) ix seq sems ↔ Tally (front ++ back) ix seq sems := by
  unfold Tally
  simp only [countP_append,countP_cons,waitsOn_else apart,Bool.false_eq_true,if_false,Nat.add_zero]

theorem Tally.same (tally : Tally ws ix seq sems) (equal : counts sems' = counts sems) : Tally ws ix seq sems' := by
  unfold Tally
  rw [equal]
  exact tally

theorem Tally.other (tally : Tally ws ix seq sems) (apart : ¬(ipcidToIx x.semid = ix ∧ ipcidToSeq x.semid = seq)) : Tally (x :: ws) ix seq sems :=
  (@Tally.skip ix seq sems x [] ws apart).mpr tally

section Log
variable {l : Log} {wakes : Nat → Bool}

theorem ring_names (l : Log) (wakes : Nat → Bool) : (l.ring wakes).map Prod.fst = l.map Prod.fst := by
  unfold Log.ring
  rw [map_map]
  rfl

theorem ring_quiet (mem : (x,false) ∈ l.ring wakes) : (x,false) ∈ l ∧ wakes (ipcidToIx x.semid) = false := by
  obtain ⟨⟨y,woken⟩,of,is⟩ := mem_map.mp mem
  obtain ⟨rfl,quiet⟩ := Prod.mk.inj is
  obtain ⟨rfl,still⟩ := Bool.or_eq_false_iff.mp quiet
  exact ⟨of,still⟩

theorem sleep_same (names : l.map Prod.fst = ws) : l.sleep ws = l := by
  have length : l.length = ws.length := by rw [← names,length_map]
  unfold Log.sleep
  rw [length,Nat.sub_self]
  rfl

theorem sleep_one (names : l.map Prod.fst = ws) : l.sleep (x :: ws) = (x,false) :: l := by
  have length : l.length = ws.length := by rw [← names,length_map]
  unfold Log.sleep
  rw [length,length_cons,Nat.add_sub_cancel_left]
  rfl

theorem mem_names (names : l.map Prod.fst = ws) {woken : Bool} (mem : (x,woken) ∈ l) : x ∈ ws := names ▸ mem_map_of_mem mem

theorem names_erase (names : l.map Prod.fst = front ++ x :: back) : (l.eraseIdx front.length).map Prod.fst = front ++ back := by
  rw [← eraseIdx_map,names,eraseIdx_append_of_length_le (Nat.le_refl _),Nat.sub_self]
  rfl
end Log
section Events
variable {l : Log} {wakes : Nat → Bool}

section
variable (watched : Watched w l)
include watched

theorem Watched.others (same : w'.waiters = w.waiters)
    (sets : ∀ ix,(w'.sema ix).alloc = true → ((w.sema ix).alloc = true ∧ (w'.sema ix).seq = (w.sema ix).seq ∧ counts (w'.sema ix).sems = counts (w.sema ix).sems) ∨
      Tally w.waiters ix (w'.sema ix).seq (w'.sema ix).sems)
    (quiet : ∀ ix,wakes ix = false → (w.sema ix).alloc = true → (w'.sema ix).alloc = true ∧ (w'.sema ix).seq = (w.sema ix).seq ∧
      semvalAt (w'.sema ix).sems = semvalAt (w.sema ix).sems) : Watched w' ((l.ring wakes).sleep w'.waiters) := by
  have names : (l.ring wakes).map Prod.fst = w'.waiters := by rw [ring_names,same,watched.names]
  rw [sleep_same names]
  refine ⟨names,by rw [same]; exact watched.own,fun ix used => ?_,fun x mem => ?_⟩
  · rw [same]
    rcases sets ix used with ⟨was,number,equal⟩ | fresh
    · rw [number]
      exact (watched.tally ix was).same equal
    · exact fresh
  obtain ⟨mem,still⟩ := ring_quiet mem
  obtain ⟨serves,pre,stuck⟩ := watched.stuck x mem
  obtain ⟨used,number,equal⟩ := quiet _ still serves.1
  refine ⟨⟨used,number.trans serves.2⟩,pre,?_⟩
  rw [equal]
  exact stuck

theorem Watched.tries (aimed : Aimed w) (live : w.serves id) (inside : ∀ sop ∈ sops,sop.semNum < (w.sema (ipcidToIx id)).sems.length)
    (restful : Restful w id sops) (inv : Inv c w') (tries : Tries w id sops ended w')
    (when_ : ∀ ix,wakes ix = decide (some ended = some (.done true) ∧ ix = ipcidToIx id)) : Watched w' ((l.ring wakes).sleep w'.waiters) := by
  cases tries with
  | @done w' sems' wakeup sema sleepers same quiet =>
    have names : (l.ring wakes).map Prod.fst = w'.waiters := by rw [ring_names,sleepers,watched.names]
    rw [sleep_same names]
    refine ⟨names,by rw [sleepers]; exact watched.own,fun ix used => ?_,fun x mem => ?_⟩
    · rw [sema] at used ⊢
      rw [sleepers]
      by_cases here : ix = ipcidToIx id
      · subst here
        rw [setSems_here]
        have number : ((w.setSems (ipcidToIx id) sems').sema (ipcidToIx id)).seq = (w.sema (ipcidToIx id)).seq := (setSems_sets (counts_length same) _).2.1
        rw [number]
        exact (watched.tally _ live.1).same same
      rw [setSems_else w here] at used ⊢
      exact watched.tally ix used
    obtain ⟨mem,still⟩ := ring_quiet mem
    obtain ⟨serves,pre,stuck⟩ := watched.stuck x mem
    rw [when_,decide_eq_false_iff_not] at still
    have sets := setSems_sets (counts_length same) (ipcidToIx x.semid)
    unfold World.serves
    rw [sema,sets.1,sets.2.1]
    refine ⟨serves,pre,?_⟩
    by_cases here : ipcidToIx x.semid = ipcidToIx id
    · have silent : wakeup = false := by
        cases wakeup with
        | true => exact absurd ⟨rfl,here⟩ still
        | false => rfl
      have mem := mem_names watched.names mem
      have tally := watched.tally _ serves.1
      rw [serves.2] at tally
      have ok := inv.sems (ipcidToIx id)
      rw [sema,setSems_here] at ok
      have moved := stuck.quiet mem tally (aimed.inside x mem serves _ (watched.own x mem)) (here ▸ quiet silent) ok
      rw [here,setSems_here]
      exact moved
    rw [setSems_else w here]
    exact stuck
  | error sema sleepers =>
    have names : (l.ring wakes).map Prod.fst = w'.waiters := by rw [ring_names,sleepers,watched.names]
    rw [sleep_same names]
    refine ⟨names,by rw [sleepers]; exact watched.own,fun ix used => ?_,fun x mem => ?_⟩
    · rw [sema] at used ⊢
      rw [sleepers]
      exact watched.tally ix used
    unfold World.serves
    rw [sema]
    exact watched.stuck x (ring_quiet mem).1
  | @asleep w' x u pre named vector blocked sema sleepers =>
    subst named
    subst vector
    have names : (l.ring wakes).map Prod.fst = w.waiters := by rw [ring_names,watched.names]
    have sets := setSems_sets (countWaiter_length (w.sema (ipcidToIx x.semid)).sems x.sop 1)
    have own : x.sop ∈ x.sops := by
      obtain ⟨post,split⟩ := blocked.split
      rw [split]
      simp
    have values (ix : Nat) : semvalAt (w'.sema ix).sems = semvalAt (w.sema ix).sems := by
      rw [sema]
      exact funext fun n => setSems_same (fun n => semvalAt_countWaiter ..) ix n
    rw [sleepers,sleep_one names]
    refine ⟨?_,fun y mem => ?_,fun ix used => ?_,fun y mem => ?_⟩
    · rw [map_cons,names,sleepers]
    · rw [sleepers] at mem
      rcases mem_cons.mp mem with rfl | mem
      · exact own
      · exact watched.own y mem
    · rw [sema] at used ⊢
      rw [sleepers]
      rw [(sets ix).1] at used
      rw [(sets ix).2.1]
      by_cases here : ix = ipcidToIx x.semid
      · subst here
        rw [setSems_here]
        have tally := watched.tally _ live.1
        rw [live.2] at tally ⊢
        exact tally.add (restful.room x.sop own)
      rw [setSems_else w here]
      exact (watched.tally ix used).other fun both => here both.1.symm
    have serves (y : Waiter) (was : w.serves y.semid) : w'.serves y.semid := by
      unfold World.serves
      rw [sema,(sets _).1,(sets _).2.1]
      exact was
    rw [values]
    rcases mem_cons.mp mem with is | mem
    · obtain ⟨rfl,-⟩ := Prod.mk.inj is
      exact ⟨serves _ live,pre,blocked.stuck (restful.zero u pre _ blocked)⟩
    obtain ⟨was,stuck⟩ := watched.stuck y (ring_quiet mem).1
    exact ⟨serves y was,stuck⟩

theorem Watched.awake (sleeps : w.waiters = front ++ x :: back) (live : w.serves x.semid) :
    Watched (w.awake x (front ++ back)) (l.eraseIdx front.length) := by
  have sets := awake_sets w x (front ++ back)
  refine ⟨names_erase (watched.names.trans sleeps),fun y mem => ?_,fun ix used => ?_,fun y mem => ?_⟩
  · refine watched.own y ?_
    rw [sleeps]
    exact mem_append.mpr ((mem_append.mp mem).imp_right (mem_cons_of_mem _))
  · rw [(sets ix).1] at used
    rw [(sets ix).2.1]
    have tally := watched.tally ix used
    rw [sleeps] at tally
    by_cases here : ix = ipcidToIx x.semid
    · subst here
      rw [live.2] at tally ⊢
      unfold World.awake
      rw [setSems_here]
      exact tally.remove
    unfold World.awake
    rw [setSems_else _ here]
    exact (Tally.skip fun both => here both.1.symm).mp tally
  unfold World.serves
  rw [(sets _).1,(sets _).2.1,awake_values]
  exact watched.stuck y (mem_of_mem_eraseIdx mem)

theorem Watched.gone (sleeps : w.waiters = front ++ x :: back) (gone : ¬w.serves x.semid) :
    Watched { w with waiters := front ++ back } (l.eraseIdx front.length) := by
  refine ⟨names_erase (watched.names.trans sleeps),fun y mem => ?_,fun ix used => ?_,fun y mem => watched.stuck y (mem_of_mem_eraseIdx mem)⟩
  · refine watched.own y ?_
    rw [sleeps]
    exact mem_append.mpr ((mem_append.mp mem).imp_right (mem_cons_of_mem _))
  have tally := watched.tally ix used
  rw [sleeps] at tally
  refine (Tally.skip fun both => gone ?_).mp tally
  unfold World.serves
  rw [both.1]
  exact ⟨used,both.2.symm⟩
end
end Events

variable {c : Seminfo} {w w' : World} {result : Option Ended} {event : Event} {l : Log}

def NoRealloc : Event → Prop
  | .reallocStart | .reallocEnd .. => False
  | _ => True

def Calm (w : World) : Event → Prop
  | .semget .. => Unclaimed w
  | .semop _ _ id sops => w.serves id → (∀ sop ∈ sops,sop.semNum < (w.sema (ipcidToIx id)).sems.length) → Restful w id sops
  | .wake before after x signal => w.serves x.semid → signal = false → Restful (w.awake x (before ++ after)) x.semid x.sops
  | .reallocStart | .reallocEnd .. => False
  | _ => True

theorem counts_replicate (nsems n a b : Nat) (found : (counts (replicate nsems { semval := 0, semncnt := 0, semzcnt := 0 }))[n]? = some (a,b)) : a = 0 ∧ b = 0 := by
  have mem := mem_of_getElem? found
  unfold counts at mem
  rw [map_replicate] at mem
  exact Prod.mk.inj (mem_replicate.mp mem).2

theorem counts_setVals (c : Seminfo) (sems : List Sem) (vals : List Nat) : counts (setVals c sems vals) = counts sems := by
  induction sems generalizing vals with
  | nil => cases vals <;> rfl
  | cons s sems ih =>
    cases vals with
    | nil => rfl
    | cons v vals =>
      rw [setVals]
      split
      · rfl
      · exact congrArg (cons _) (ih vals)

theorem Watched.set (watched : Watched w l) {ix : Nat} {sems : List Sem} {undos : List SemUndo} (same : counts sems = counts (w.sema ix).sems) (wakes : Nat → Bool)
    (wake : wakes ix = true) : Watched { w.setSems ix sems with semuList := undos } ((l.ring wakes).sleep w.waiters) := by
  have sets := setSems_sets (counts_length same)
  refine watched.others rfl (fun i used => .inl ?_) fun i still used => ?_
  · refine ⟨(sets i).1.symm.trans used,(sets i).2.1,?_⟩
    by_cases here : i = ix
    · subst here
      rw [setSems_here,same]
    · rw [setSems_else w here]
  have apart : i ≠ ix := by
    rintro rfl
    rw [wake] at still
    cases still
  refine ⟨(sets i).1.trans used,(sets i).2.1,?_⟩
  rw [setSems_else w apart]

theorem Does.watched (does : Does c w event result w') (inv : Inv c w) (aimed : Aimed w) (watched : Watched w l) (calm : Calm w event) :
    Watched w' (l.after w result event w'.waiters) := by
  cases does with
  | semget key nsems ran =>
    obtain ⟨i,found,-,-,-,rfl⟩ := semgetNew_shape ran
    have free : (w.sema i).alloc = false := by simpa using find?_some found
    refine watched.others rfl (fun ix used => ?_) fun ix _ used => ?_
    · by_cases here : ix = i
      · subst here
        right
        dsimp only
        rw [update_self]
        intro n a b at_
        obtain ⟨rfl,rfl⟩ := counts_replicate nsems n a b at_
        have none_ (zero : Bool) : w.waiters.countP (waitsOn ix (((w.sema ix).seq + 1) % 32768) n zero) = 0 := by
          refine countP_eq_zero.mpr fun x mem => ?_
          rw [waitsOn_else (calm ix found x mem)]
          exact Bool.false_ne_true
        exact ⟨⟨by decide,by decide⟩,(none_ false).symm,(none_ true).symm⟩
      left
      dsimp only at used ⊢
      rw [update_of_ne here] at used ⊢
      exact ⟨used,rfl,rfl⟩
    have apart : ix ≠ i := by
      rintro rfl
      rw [used] at free
      cases free
    dsimp only
    rw [update_of_ne apart]
    exact ⟨used,rfl,rfl⟩
  | rmid i live =>
    refine watched.others rfl (fun ix used => .inl ?_) fun ix still used => ?_
    · unfold semctlRmid at used ⊢
      dsimp only at used ⊢
      by_cases here : ix = i
      · rw [here,update_self] at used
        cases used
      rw [update_of_ne here] at used ⊢
      exact ⟨used,rfl,rfl⟩
    unfold semctlRmid
    dsimp only
    rw [update_of_ne (of_decide_eq_false still)]
    exact ⟨used,rfl,rfl⟩
  | setval i m val live ran =>
    unfold semctlSetval at ran
    split at ran
    · cases ran
    split at ran
    · cases ran
    cases ran
    have same : counts ((w.sema i).sems.modify m fun s => { s with semval := ushort val }) = counts (w.sema i).sems := counts_modify m fun s => ⟨rfl,rfl⟩
    exact watched.set same (fun ix => decide (ix = i)) (decide_eq_true rfl)
  | setall i vals live => exact watched.set (counts_setVals c _ vals) (fun ix => decide (ix = i)) (decide_eq_true rfl)
  | semop granted p id sops free ran =>
    rcases sysSemop_cases ran with ⟨rfl,e,rfl⟩ | ⟨live,inside,attempt⟩
    · exact watched.others rfl (fun ix used => .inl ⟨used,rfl,rfl⟩) fun ix _ used => ⟨used,rfl,rfl⟩
    have restful := calm live inside
    obtain ⟨ended₁,w₁,ran₁,attempted⟩ := semopAttempt_spec p id sops inv false
    rw [attempt] at ran₁
    cases ran₁
    exact watched.tries aimed live inside restful attempted.inv (attempt_tries inv inside restful.steady attempt) fun ix => rfl
  | wake before after x signal sleeps ran =>
    rcases semopWake_cases ran with ⟨gone,rfl,rfl⟩ | ⟨live,⟨rfl,how⟩ | ⟨ended,rfl,goes,attempt⟩⟩
    · exact (watched.gone sleeps gone).others rfl (fun ix used => .inl ⟨used,rfl,rfl⟩) fun ix _ used => ⟨used,rfl,rfl⟩
    · exact (watched.awake sleeps live).others rfl (fun ix used => .inl ⟨used,rfl,rfl⟩) fun ix _ used => ⟨used,rfl,rfl⟩
    have sets := awake_sets w x (before ++ after)
    have sub : ∀ y ∈ before ++ after,y ∈ w.waiters := by
      intro y mem
      rw [sleeps]
      exact mem_append.mpr ((mem_append.mp mem).imp_right (mem_cons_of_mem _))
    have up : Aimed (w.awake x (before ++ after)) := aimed.mono sets rfl (fun _ _ _ some_ => some_) sub
    have inside : ∀ sop ∈ x.sops,sop.semNum < ((w.awake x (before ++ after)).sema (ipcidToIx x.semid)).sems.length := by
      rw [(sets _).2.2]
      exact aimed.inside x (by rw [sleeps]; simp) live
    have there : (w.awake x (before ++ after)).serves x.semid := by
      unfold World.serves
      rw [(sets _).1,(sets _).2.1]
      exact live
    have restful := calm live goes
    have inv := inv.awake x (before ++ after)
    obtain ⟨ended₁,w₁,ran₁,attempted⟩ := semopAttempt_spec x.proc x.semid x.sops inv x.doUndos
    rw [attempt] at ran₁
    cases ran₁
    exact (watched.awake sleeps live).tries up there inside restful attempted.inv (attempt_tries inv inside restful.steady attempt) fun ix => rfl
  | exit p ran =>
    obtain ⟨w₁,ran₁,-,same,values,-⟩ := semexit_spec inv fun ix n => aimed.held p ix n
    rw [ran] at ran₁
    cases ran₁
    obtain ⟨sema,shape⟩ := same.rest
    have sleepers : w'.waiters = w.waiters := by rw [shape]
    refine watched.others sleepers (fun ix used => .inl ?_) fun ix still used => ?_
    · obtain ⟨alloc,number,equal⟩ := same.sets ix
      exact ⟨alloc.symm.trans used,number,equal⟩
    obtain ⟨alloc,number,-⟩ := same.sets ix
    refine ⟨alloc.trans used,number,funext fun n => ?_⟩
    have none_ : adjOf w.semuList p ix n = 0 := by
      by_contra some_
      obtain ⟨e,mem,key⟩ := mem_map.mp ((inv.undo.vector p).entry.mp some_)
      have quiet := any_eq_false.mp still e mem
      exact quiet (decide_eq_true (Prod.mk.inj key).1)
    have low := semvalAt_range (inv.sems ix) n
    rw [values,none_,exitVal,if_neg (fun both => absurd both.1 (by decide)),Int.add_zero,Int.emod_eq_of_lt low.1 low.2]
  | reallocStart free => exact calm.elim
  | reallocEnd mni mns mnu busy asleep => exact calm.elim

theorem Watch.sound (watch : Watch Calm c w l) : Inv c w ∧ Aimed w ∧ Watched w l := by
  induction watch with
  | init mni mns mnu =>
    refine ⟨seminit_inv c mni mns mnu,seminit_aimed mni mns mnu,rfl,fun x mem => absurd mem not_mem_nil,fun ix used => absurd used Bool.false_ne_true,
      fun x mem => absurd mem not_mem_nil⟩
  | @step w w' l event result before does calm ih =>
    obtain ⟨inv,aimed,watched⟩ := ih
    refine ⟨does.step.inv inv,does.aimed inv aimed fun key nsems is => ?_,does.watched inv aimed watched calm⟩
    subst is
    exact calm

-- The list of sleepers, whose vectors are stuck where no wake-up has come, and the two counts.
structure Awaited (w : World) (l : Log) : Prop where
  sleepers : l.map Prod.fst = w.waiters
  stuck : ∀ x,(x,false) ∈ l → w.serves x.semid ∧ runOps (semvalAt (w.sema (ipcidToIx x.semid)).sems) x.sops = none
  counted : ∀ ix,(w.sema ix).alloc = true → ∀ n s,(w.sema ix).sems[n]? = some s →
    s.semncnt = w.waiters.countP (waitsOn ix (w.sema ix).seq n false) ∧ s.semzcnt = w.waiters.countP (waitsOn ix (w.sema ix).seq n true)

theorem no_lost_wakeup (watch : Watch Calm c w l) : Awaited w l := by
  obtain ⟨-,-,watched⟩ := watch.sound
  refine ⟨watched.names,fun x mem => ?_,fun ix used n s at_ => ?_⟩
  · obtain ⟨serves,pre,stuck⟩ := watched.stuck x mem
    exact ⟨serves,stuck.cannot⟩
  have found : (counts (w.sema ix).sems)[n]? = some (s.semncnt,s.semzcnt) := by
    rw [counts_at,at_]
    rfl
  exact (watched.tally ix used n _ _ found).2

def lower : List Sembuf := [⟨0,-1,false,false,by decide⟩]

theorem lower_restful : Restful oneSem 65536 lower := by
  refine ⟨.inl (.inl ⟨by decide,by decide⟩),fun u pre at_ blocked none_ => ?_,fun sop mem a b found => ?_⟩
  · obtain ⟨post,split⟩ := blocked.split
    have mem : at_ ∈ lower := by rw [split]; simp
    rw [mem_singleton.mp mem] at none_
    exact absurd none_ (by decide)
  rw [mem_singleton.mp mem] at found
  obtain ⟨rfl,rfl⟩ : a = 0 ∧ b = 0 := Prod.mk.inj (Option.some.inj found.symm)
  decide

theorem no_lost_wakeup_one : ∃ w l,w.waiters.length = 1 ∧ Awaited w l := by
  have made : Watch Calm seminfo oneSem [] := .step (.init 10 60 30) (.semget 7 1 rfl) fun _ _ _ mem => absurd mem not_mem_nil
  have slept := made.step (.semop true 5 65536 lower rfl rfl) fun _ _ => lower_restful
  exact ⟨_,_,rfl,no_lost_wakeup slept⟩

def twoOps : List Sembuf := [⟨0,-1,false,false,by decide⟩,⟨0,0,false,false,by decide⟩]
def sleeper : Waiter := { proc := 5, semid := 65536, sops := twoOps, sop := ⟨0,0,false,false,by decide⟩, doUndos := false }

theorem wakeup_lost : ¬∀ w l,Watch (fun _ event => NoRealloc event) seminfo w l → Awaited w l := by
  intro all
  have made : Watch (fun _ event => NoRealloc event) seminfo oneSem [] := .step (.init 10 60 30) (.semget 7 1 rfl) trivial
  have set := made.step (.setval 0 0 2 rfl rfl) trivial
  have slept := set.step (.semop true 5 65536 twoOps rfl rfl) trivial
  have lowered := slept.step (.semop true 6 65536 [⟨0,-1,false,false,by decide⟩] rfl rfl) trivial
  obtain ⟨-,stuck⟩ := (all _ _ lowered).stuck sleeper (mem_cons_self ..)
  have goes : (runOps (semvalAt [{ semval := 1, semncnt := 0, semzcnt := 1 }]) twoOps).isSome = true := by decide
  exact Bool.noConfusion (goes.symm.trans (congrArg Option.isSome stuck))
end NetbsdAvr32.Sysvsem
