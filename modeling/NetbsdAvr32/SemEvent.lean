import NetbsdAvr32.SemExact

-- Vectors whose values never leave 16 bits: the loop does what the same operations do over the integers.
namespace NetbsdAvr32.Sysvsem
open List Function Int
variable {sems sems' left : List Sem} {sops passed done : List Sembuf} {sop at_ : Sembuf} {n : Nat} {a : Int} {wakeup undos undos' : Bool} {v v' : Nat → Int}

def StopsAt (v : Nat → Int) (sop : Sembuf) : Prop := sop.semOp < 0 ∧ v sop.semNum + sop.semOp < 0 ∨ sop.semOp = 0 ∧ 0 < v sop.semNum
def addOp (v : Nat → Int) (sop : Sembuf) : Nat → Int := Function.update v sop.semNum (v sop.semNum + sop.semOp)

-- No value passes 65535 before the vector stops or is through.
def Steady (v : Nat → Int) : List Sembuf → Prop
  | [] => True
  | sop :: sops => StopsAt v sop ∨ (addOp v sop sop.semNum ≤ 65535 ∧ Steady (addOp v sop) sops)

theorem addOp_eq (v : Nat → Int) (sop : Sembuf) (n : Nat) : addOp v sop n = v n + if n = sop.semNum then sop.semOp else 0 := by
  unfold addOp
  by_cases same : n = sop.semNum
  · subst same
    rw [update_self,if_pos rfl]
  · rw [update_of_ne same,if_neg same,add_zero]

theorem runOps_stop (stops : StopsAt v sop) : runOps v (sop :: sops) = none := if_pos stops
theorem runOps_go (goes : ¬StopsAt v sop) : runOps v (sop :: sops) = runOps (addOp v sop) sops := if_neg goes

theorem runOps_append (first rest : List Sembuf) : runOps v (first ++ rest) = (runOps v first).bind fun v => runOps v rest := by
  induction first generalizing v with
  | nil => rfl
  | cons sop first ih =>
    rw [cons_append]
    by_cases stops : StopsAt v sop
    · rw [runOps_stop stops,runOps_stop stops]
      rfl
    · rw [runOps_go stops,runOps_go stops,ih]

def counts (sems : List Sem) : List (Nat × Nat) := sems.map fun s => (s.semncnt,s.semzcnt)

theorem counts_bump (sems : List Sem) (num : Nat) (a : Int) : counts (bump sems num a) = counts sems := by
  apply ext_getElem?
  intro n
  unfold counts
  rw [getElem?_map,getElem?_map,bump_getElem?]
  split
  · cases sems[n]? <;> rfl
  · rfl

theorem counts_length (same : counts sems' = counts sems) : sems'.length = sems.length := by
  have := congrArg length same
  rwa [counts,counts,length_map,length_map] at this

theorem semopScan_counts {wakeup' : Bool} (ok : SemsOk sems) (ran : semopScan sems wakeup undos passed sops = .through sems' wakeup' undos') : counts sems' = counts sems := by
  induction sops generalizing sems wakeup undos passed with
  | nil =>
    cases ran
    rfl
  | cons sop sops ih =>
    by_cases stops : Stops sems sop
    · rw [semopScan_stop stops] at ran
      cases ran
    obtain ⟨wakeup₁,step⟩ := semopScan_go ok stops passed sops wakeup undos
    rw [step] at ran
    exact (ih (ok.bump _ _) ran).trans (counts_bump ..)

theorem semvalAt_goes (ok : SemsOk sems) (here : sop.semNum < sems.length) (goes : ¬StopsAt (semvalAt sems) sop) (fits : addOp (semvalAt sems) sop sop.semNum ≤ 65535) :
    semvalAt (bump sems sop.semNum sop.semOp) = addOp (semvalAt sems) sop := by
  funext n
  rw [semvalAt_bump here]
  have low := semvalAt_range ok sop.semNum
  split
  · next same =>
    subst same
    have sum := addOp_eq (semvalAt sems) sop sop.semNum
    rw [if_pos rfl] at sum
    rw [sum] at fits ⊢
    refine emod_eq_of_lt ?_ (by omega)
    by_cases down : sop.semOp < 0
    · exact Int.not_lt.mp fun short_ => goes (.inl ⟨down,short_⟩)
    · omega
  · next ne => rw [addOp_eq,if_neg ne,add_zero]

structure BlockedAt (v : Nat → Int) (sops : List Sembuf) (at_ : Sembuf) (u : Nat → Int) (pre : List Sembuf) : Prop where
  split : ∃ post,sops = pre ++ at_ :: post
  ran : runOps v pre = some u
  stops : StopsAt u at_

theorem BlockedAt.cons {u : Nat → Int} {pre : List Sembuf} (goes : ¬StopsAt v sop) (blocked : BlockedAt (addOp v sop) sops at_ u pre) :
    BlockedAt v (sop :: sops) at_ u (sop :: pre) := by
  obtain ⟨post,split⟩ := blocked.split
  refine ⟨⟨post,?_⟩,?_,blocked.stops⟩
  · rw [split]
    rfl
  rw [runOps_go goes]
  exact blocked.ran

def Ends (sems : List Sem) (sops : List Sembuf) : Scan → Prop
  | .through sems' _ _ => runOps (semvalAt sems) sops = some (semvalAt sems')
  | .blocked _ _ _ at_ => ∃ u pre,BlockedAt (semvalAt sems) sops at_ u pre

theorem steady_scan (ok : SemsOk sems) (inside : ∀ sop ∈ sops,sop.semNum < sems.length) (steady : Steady (semvalAt sems) sops) :
    Ends sems sops (semopScan sems wakeup undos passed sops) := by
  induction sops generalizing sems wakeup undos passed with
  | nil => rfl
  | cons sop sops ih =>
    by_cases stops : Stops sems sop
    · rw [semopScan_stop stops]
      exact ⟨semvalAt sems,[],⟨sops,rfl⟩,rfl,stops⟩
    obtain ⟨fits,steady⟩ := steady.resolve_left stops
    have now := semvalAt_goes ok (inside sop mem_cons_self) stops fits
    obtain ⟨wakeup₁,step⟩ := semopScan_go ok stops passed sops wakeup undos
    rw [step]
    have ends := @ih (bump sems sop.semNum sop.semOp) (sop :: passed) wakeup₁ (undos || sop.undone) (ok.bump _ _)
      (fun x mem => bump_length.symm ▸ inside x (mem_cons_of_mem _ mem)) (now.symm ▸ steady)
    cases result : semopScan (bump sems sop.semNum sop.semOp) wakeup₁ (undos || sop.undone) (sop :: passed) sops with
    | through sems' _ _ =>
      rw [result] at ends
      show runOps (semvalAt sems) (sop :: sops) = _
      rw [runOps_go stops,← now]
      exact ends
    | blocked _ _ _ at_ =>
      rw [result] at ends
      obtain ⟨u,pre,blocked⟩ := ends
      rw [now] at blocked
      exact ⟨u,sop :: pre,blocked.cons stops⟩

open Keyed
variable {c : Seminfo} {mnu p q semid ix n : Nat} {semnum : Option Nat} {ents before after : List Undo} {l : List SemUndo} {w w' : World} {e : Undo} {sems : List Sem}

def hit (semid : Nat) (semnum : Option Nat) (k : Nat × Nat) : Bool := decide (k.1 = semid ∧ (semnum = none ∨ semnum = some k.2))

theorem hit_some {m : Nat} {k : Nat × Nat} : hit semid (some m) k = true ↔ k = (semid,m) := by
  unfold hit
  rw [decide_eq_true_iff,Prod.ext_iff]
  exact and_congr_right fun _ => ⟨fun either => (Option.some.inj (either.resolve_left nofun)).symm,fun same => .inr (congrArg some same.symm)⟩

theorem filter_clean (clean : ∀ x ∈ before,hit semid semnum (undoKey x) = false) : before.filter (fun x => !hit semid semnum (undoKey x)) = before :=
  filter_eq_self.mpr fun x mem => by rw [clean x mem]; rfl

theorem clearEnts_perm (fuel : Nat) (distinct : Distinct undoKey (before ++ after)) (few : after.length ≤ fuel)
    (clean : ∀ x ∈ before,hit semid semnum (undoKey x) = false) :
    (clearEnts semid semnum fuel before after).Perm ((before ++ after).filter fun x => !hit semid semnum (undoKey x)) := by
  induction fuel generalizing before after with
  | zero =>
    obtain rfl : after = [] := length_eq_zero_iff.mp (Nat.le_zero.mp few)
    rw [append_nil,filter_clean clean]
    exact .of_eq (append_nil _)
  | succ fuel ih =>
    cases after with
    | nil =>
      rw [append_nil,filter_clean clean]
      exact .refl _
    | cons e after =>
      have few : after.length ≤ fuel := Nat.le_of_succ_le_succ few
      rw [filter_append,filter_clean clean,clearEnts]
      split
      · next out =>
        have out : hit semid semnum (undoKey e) = true := decide_eq_true out
        have moved := swapOut_perm before after
        unfold swapOut at moved
        have left := distinct.skip
        rw [filter_cons_of_neg (by rw [out]; exact Bool.false_ne_true)]
        have rest : (before ++ after).filter (fun x => !hit semid semnum (undoKey x)) = before ++ after.filter fun x => !hit semid semnum (undoKey x) := by
          rw [filter_append,filter_clean clean]
        cases last : after.getLast? with
        | none =>
          rw [getLast?_eq_none_iff] at last
          subst last
          exact .of_eq (append_nil _).symm
        | some x =>
          simp only [last] at moved ⊢
          split
          · next one =>
            obtain ⟨m,rfl⟩ := Option.isSome_iff_exists.mp one
            have others : after.filter (fun x => !hit semid (some m) (undoKey x)) = after := by
              refine filter_clean fun x mem => ?_
              rw [← Bool.not_eq_true,hit_some]
              intro same
              refine distinct.absent (mem_map.mpr ⟨x,mem_append_right _ mem,?_⟩)
              rw [same,hit_some.mp out]
            rw [others]
            exact moved
          have again := @ih before (x :: after.dropLast) (left.perm moved.symm) (by
            have ne : after ≠ [] := by
              rintro rfl
              cases last
            rw [length_cons,length_dropLast]
            have := length_pos_iff.mpr ne
            omega) clean
          exact again.trans ((moved.filter _).trans (.of_eq rest))
      next stays =>
      have stays : hit semid semnum (undoKey e) = false := decide_eq_false stays
      have again := @ih (before ++ [e]) after (by simpa using distinct) few (by
        intro x mem
        rcases mem_append.mp mem with mem | mem
        · exact clean x mem
        rw [mem_singleton.mp mem]
        exact stays)
      refine again.trans (.of_eq ?_)
      rw [append_assoc,filter_append,filter_clean clean]
      rfl

theorem entAdj_filter (ents : List Undo) (keep : Nat × Nat → Bool) (id num : Nat) :
    entAdj (ents.filter fun x => keep (undoKey x)) id num = if keep (id,num) then entAdj ents id num else 0 := by
  unfold entAdj get?
  rw [find?_filter]
  split
  · next kept =>
    congr 2
    funext x
    by_cases same : undoKey x = (id,num)
    · rw [same,kept]
      simp
    · simp [same]
  next gone =>
  have none_ : ents.find? (fun x => decide (keep (undoKey x) = true ∧ decide (undoKey x = (id,num)) = true)) = none := by
    refine find?_eq_none.mpr fun x _ both => ?_
    obtain ⟨kept,same⟩ := of_decide_eq_true both
    rw [of_decide_eq_true same] at kept
    exact gone kept
  rw [none_]
  rfl

theorem vectorOf_clear (p : Nat) (l : List SemUndo) :
    vectorOf (semundoClear semid semnum l) p = clearEnts semid semnum (vectorOf l p).length [] (vectorOf l p) := by
  have same : get? SemUndo.unProc p (semundoClear semid semnum l) =
      (get? SemUndo.unProc p l).map fun v => { v with unEnt := clearEnts semid semnum v.unEnt.length [] v.unEnt } := by
    unfold get? semundoClear
    rw [find?_map]
    rfl
  unfold vectorOf
  rw [same]
  cases get? SemUndo.unProc p l <;> rfl

theorem adjOf_clear (ok : UndoOk c mnu l) (p id num : Nat) :
    adjOf (semundoClear semid semnum l) p id num = if hit semid semnum (id,num) then 0 else adjOf l p id num := by
  have vector := ok.vector p
  have perm := @clearEnts_perm semid semnum [] (vectorOf l p) (vectorOf l p).length vector.distinct (Nat.le_refl _) nofun
  have left : EntsOk c ((vectorOf l p).filter fun x => !hit semid semnum (undoKey x)) := vector.sublist filter_sublist
  unfold adjOf
  rw [vectorOf_clear,entAdj_perm left perm.symm,entAdj_filter _ fun k => !hit semid semnum k]
  cases hit semid semnum (id,num) <;> rfl

section Exit
def exitVal (v adj : Int) : Int := if adj < 0 ∧ v < -adj then 0 else (v + adj) % 65536

theorem exitVal_exact {v adj : Int} (low : 0 ≤ v) (fits : v + adj ≤ 65535) : exitVal v adj = max 0 (v + adj) := by
  unfold exitVal
  split <;> omega

structure SameSets (w w' : World) : Prop where
  rest : ∃ sema,w' = { w with sema := sema }
  sets : ∀ ix,(w'.sema ix).alloc = (w.sema ix).alloc ∧ (w'.sema ix).seq = (w.sema ix).seq ∧ counts (w'.sema ix).sems = counts (w.sema ix).sems

theorem SameSets.refl (w : World) : SameSets w w := ⟨⟨_,rfl⟩,fun _ => ⟨rfl,rfl,rfl⟩⟩

theorem SameSets.trans {w'' : World} (first : SameSets w w') (second : SameSets w' w'') : SameSets w w'' := by
  obtain ⟨⟨sema,rfl⟩,same⟩ := first
  obtain ⟨⟨sema',rfl⟩,same'⟩ := second
  refine ⟨⟨_,rfl⟩,fun ix => ?_⟩
  obtain ⟨alloc,seq,sleepers⟩ := same ix
  obtain ⟨alloc',seq',sleepers'⟩ := same' ix
  exact ⟨alloc'.trans alloc,seq'.trans seq,sleepers'.trans sleepers⟩

theorem SameSets.setSems (same : counts sems = counts (w.sema ix).sems) : SameSets w (w.setSems ix sems) := by
  refine ⟨⟨_,rfl⟩,fun i => ?_⟩
  unfold World.setSems
  by_cases here : i = ix
  · subst here
    dsimp only
    rw [update_self]
    exact ⟨rfl,rfl,same⟩
  dsimp only
  rw [update_of_ne here]
  exact ⟨rfl,rfl,rfl⟩

theorem SameSets.length (same : SameSets w w') (ix : Nat) : (w'.sema ix).sems.length = (w.sema ix).sems.length := counts_length (same.sets ix).2.2
def Held (w : World) (k : Nat × Nat) : Prop := (w.sema k.1).alloc = true ∧ k.2 < (w.sema k.1).sems.length

theorem SameSets.held (same : SameSets w w') {k : Nat × Nat} (held : Held w k) : Held w' k := by
  unfold Held
  rw [(same.sets k.1).1,same.length k.1]
  exact held

theorem semvalAt_modify {f : Sem → Sem} (g : Int → Int) (num : Nat) (here : num < sems.length) (acts : ∀ s ∈ sems,((f s).semval : Int) = g s.semval) (n : Nat) :
    semvalAt (sems.modify num f) n = if n = num then g (semvalAt sems n) else semvalAt sems n := by
  unfold semvalAt
  rw [getElem?_modify]
  by_cases same : n = num
  · subst same
    rw [if_pos rfl,getElem?_eq_getElem here]
    simp only [if_true,Option.map_eq_map,Option.map_some,Option.elim_some]
    exact acts _ (getElem_mem here)
  rw [if_neg same]
  simp only [if_neg (Ne.symm same)]
  cases sems[n]? <;> rfl

theorem counts_modify {f : Sem → Sem} (num : Nat) (same : ∀ s,(f s).semncnt = s.semncnt ∧ (f s).semzcnt = s.semzcnt) : counts (sems.modify num f) = counts sems := by
  apply ext_getElem?
  intro n
  unfold counts
  rw [getElem?_map,getElem?_map,getElem?_modify]
  cases sems[n]? with
  | none => rfl
  | some s =>
    simp only [Option.map_eq_map,Option.map_some]
    split
    · rw [(same s).1,(same s).2]
    · rfl

theorem exitEntry_spec (inv : Inv c w) (held : Held w (undoKey e)) : ∃ w',exitEntry w e = .ok w' ∧ SameSets w w' ∧
    ∀ ix n,semvalAt (w'.sema ix).sems n = if (ix,n) = undoKey e then exitVal (semvalAt (w.sema ix).sems n) e.unAdjval else semvalAt (w.sema ix).sems n := by
  unfold exitEntry
  have alloc : (w.sema e.unId).alloc = true := held.1
  have within : e.unNum < (w.sema e.unId).sems.length := held.2
  rw [if_neg (by rw [alloc]; decide),if_neg (Nat.not_le_of_lt within)]
  refine ⟨_,rfl,.setSems (counts_modify _ fun s => ⟨rfl,rfl⟩),fun ix n => ?_⟩
  change _ = if (ix,n) = (e.unId,e.unNum) then _ else _
  by_cases same : ix = e.unId
  · subst same
    have acts (s : Sem) (_ : s ∈ (w.sema e.unId).sems) :
        (({ s with semval := if e.unAdjval < 0 ∧ s.semval < -e.unAdjval then 0 else ushort (s.semval + e.unAdjval) } : Sem).semval : Int) =
          exitVal s.semval e.unAdjval := by
      unfold exitVal
      split
      · rfl
      · exact ushort_cast _
    rw [setSems_here,semvalAt_modify (fun v => exitVal v e.unAdjval) _ within acts]
    split
    · next here =>
      rw [if_pos (congrArg (Prod.mk e.unId) here)]
    next here =>
    rw [if_neg (fun both : (e.unId,n) = (e.unId,e.unNum) => here (Prod.mk.inj both).2)]
  · rw [setSems_else w same,if_neg (fun both : (ix,n) = (e.unId,e.unNum) => same (Prod.mk.inj both).1)]

theorem exitEntries_spec (inv : Inv c w) (distinct : Distinct undoKey ents) (held : ∀ e ∈ ents,Held w (undoKey e)) :
    ∃ w',ents.foldlM exitEntry w = .ok w' ∧ Inv c w' ∧ SameSets w w' ∧
      ∀ ix n,semvalAt (w'.sema ix).sems n = exitVal (semvalAt (w.sema ix).sems n) (entAdj ents ix n) := by
  induction ents generalizing w with
  | nil =>
    refine ⟨w,rfl,inv,.refl w,fun ix n => ?_⟩
    have low := semvalAt_range (inv.sems ix) n
    show _ = exitVal _ 0
    rw [exitVal,if_neg (fun both => absurd both.1 (by decide)),add_zero,emod_eq_of_lt low.1 low.2]
  | cons e ents ih =>
    have absent := (nodup_cons.mp distinct).1
    obtain ⟨w₁,first,same,values⟩ := exitEntry_spec inv (held e mem_cons_self)
    obtain ⟨w',rest,inv',same',values'⟩ := ih (exitEntry_inv inv first).1 (nodup_cons.mp distinct).2 fun x mem => same.held (held x (mem_cons_of_mem _ mem))
    refine ⟨w',?_,inv',same.trans same',fun ix n => ?_⟩
    · rw [foldlM_cons,first]
      exact rest
    rw [values',values]
    by_cases here : (ix,n) = undoKey e
    · -- the key stands nowhere else
      have adj : entAdj (e :: ents) ix n = e.unAdjval := by
        unfold entAdj
        rw [here,distinct.get? mem_cons_self]
        rfl
      have none_ : entAdj ents ix n = 0 := by
        unfold entAdj
        rw [here,get?_none absent]
        rfl
      have range : 0 ≤ exitVal (semvalAt (w.sema ix).sems n) e.unAdjval ∧ exitVal (semvalAt (w.sema ix).sems n) e.unAdjval < 65536 := by
        unfold exitVal
        split <;> omega
      rw [if_pos here,adj,none_]
      rw [exitVal,if_neg (fun both => absurd both.1 (by decide)),add_zero,emod_eq_of_lt range.1 range.2]
    have adj : entAdj (e :: ents) ix n = entAdj ents ix n := by
      unfold entAdj get?
      rw [find?_cons_of_neg (by simpa using Ne.symm here)]
    rw [if_neg here,adj]

theorem semexit_spec (inv : Inv c w) (held : ∀ ix n,adjOf w.semuList p ix n ≠ 0 → Held w (ix,n)) :
    ∃ w',semexit w p = .ok w' ∧ Inv c w' ∧ SameSets { w with semuList := w'.semuList } w' ∧
      (∀ ix n,semvalAt (w'.sema ix).sems n = exitVal (semvalAt (w.sema ix).sems n) (adjOf w.semuList p ix n)) ∧
      ∀ q ix n,adjOf w'.semuList q ix n = if q = p then 0 else adjOf w.semuList q ix n := by
  unfold semexit
  cases found : get? SemUndo.unProc p w.semuList with
  | none =>
    have none_ (ix n : Nat) : adjOf w.semuList p ix n = 0 := by
      unfold adjOf vectorOf
      rw [found]
      rfl
    refine ⟨w,rfl,inv,.refl w,fun ix n => ?_,fun q ix n => ?_⟩
    · have low := semvalAt_range (inv.sems ix) n
      rw [none_,exitVal,if_neg (fun both => absurd both.1 (by decide)),add_zero,emod_eq_of_lt low.1 low.2]
    split
    · next same => rw [same,none_]
    · rfl
  | some v =>
    have vector : vectorOf w.semuList p = v.unEnt := by
      unfold vectorOf
      rw [found]
      rfl
    have ok := inv.undo.vector p
    rw [vector] at ok
    obtain ⟨w₁,ran,inv₁,same,values⟩ := exitEntries_spec inv ok.distinct fun e mem => by
      refine held e.unId e.unNum ?_
      unfold adjOf
      rw [vector,ok.entry]
      exact mem_map_of_mem mem
    obtain ⟨sema,shape⟩ := same.rest
    have left : UndoOk c w₁.semmnu (w₁.semuList.filter fun v => v.unProc ≠ p) := inv₁.undo.sublist filter_sublist
    refine ⟨{ w₁ with semuList := w₁.semuList.filter fun v => v.unProc ≠ p },?_,inv₁.withUndo left,?_,fun ix n => ?_,fun q ix n => ?_⟩
    · dsimp only
      rw [ran]
      rfl
    · subst shape
      exact ⟨⟨_,rfl⟩,same.sets⟩
    · rw [values]
      unfold adjOf
      rw [vector]
    subst shape
    unfold adjOf vectorOf get?
    rw [find?_filter]
    split
    · next mine =>
      have none_ : w.semuList.find? (fun v => decide (decide (v.unProc ≠ p) = true ∧ decide (v.unProc = q) = true)) = none := by
        refine find?_eq_none.mpr fun v _ both => ?_
        obtain ⟨other,same⟩ := of_decide_eq_true both
        exact of_decide_eq_true other ((of_decide_eq_true same).trans mine)
      rw [none_]
      rfl
    next other =>
    congr 3
    funext v
    by_cases same : v.unProc = q
    · simp [same,other]
    · simp [same]
end Exit

-- The calls as events of a run, and which undo entries and sleepers there can be.
variable {id : Int} {sops : List Sembuf} {ended : Ended} {result : Option Ended}

-- A call that is refused changes nothing and is no event.
inductive Event where
  | semget (key nsems : Nat)
  | rmid (ix : Nat)
  | setval (ix semnum val : Nat)
  | setall (ix : Nat) (vals : List Nat)
  | semop (granted : Bool) (p : Nat) (id : Int) (sops : List Sembuf)
  | wake (before after : List Waiter) (x : Waiter) (signal : Bool)
  | exit (p : Nat)
  | reallocStart
  | reallocEnd (mni mns mnu : Nat)

inductive Does (c : Seminfo) (w : World) : Event → Option Ended → World → Prop where
  | semget {w' : World} (key nsems : Nat) (ran : semgetNew c w key nsems = .ok w') : Does c w (.semget key nsems) none w'
  | rmid (ix : Nat) (live : (w.sema ix).alloc = true) : Does c w (.rmid ix) none (semctlRmid w ix)
  | setval {w' : World} (ix semnum val : Nat) (live : (w.sema ix).alloc = true) (ran : semctlSetval c w ix semnum val = .ok w') :
      Does c w (.setval ix semnum val) none w'
  | setall (ix : Nat) (vals : List Nat) (live : (w.sema ix).alloc = true) : Does c w (.setall ix vals) none (semctlSetall c w ix vals)
  | semop {w' : World} {ended : Ended} (granted : Bool) (p : Nat) (id : Int) (sops : List Sembuf) (free : w.semReallocState = false)
      (ran : sysSemop c w granted p id sops = .ok (ended,w')) : Does c w (.semop granted p id sops) (some ended) w'
  | wake {w' : World} {ended : Option Ended} (before after : List Waiter) (x : Waiter) (signal : Bool) (sleeps : w.waiters = before ++ x :: after)
      (ran : semopWake c w x (before ++ after) signal = .ok (ended,w')) : Does c w (.wake before after x signal) ended w'
  | exit {w' : World} (p : Nat) (ran : semexit w p = .ok w') : Does c w (.exit p) none w'
  | reallocStart (free : w.semReallocState = false) : Does c w .reallocStart none (semreallocStart w)
  | reallocEnd (mni mns mnu : Nat) (busy : w.semReallocState = true) (asleep : w.waiters = []) :
      Does c w (.reallocEnd mni mns mnu) none (semreallocEnd w mni mns mnu)

theorem Does.step {event : Event} (does : Does c w event result w') : Step c w w' := by
  cases does with
  | semget key nsems ran => exact .semget key nsems ran
  | rmid ix live => exact .rmid w ix
  | setval ix semnum val live ran => exact .setval ix semnum val ran
  | setall ix vals live => exact .setall w ix vals
  | semop granted p id sops free ran => exact .semop granted p id sops free ran
  | wake before after x signal sleeps ran => exact .wake before after x signal sleeps ran
  | exit p ran => exact .exit p ran
  | reallocStart free => exact .reallocStart w free
  | reallocEnd mni mns mnu busy asleep => exact .reallocEnd w mni mns mnu busy asleep

-- The set that a call with this identifier found is still there.
def World.serves (w : World) (id : Int) : Prop := (w.sema (ipcidToIx id)).alloc = true ∧ (w.sema (ipcidToIx id)).seq = ipcidToSeq id

-- No sleeper bears the identifier that the next set will have: of 2 ^ 15 sets
-- in one slot two have the same.
def Unclaimed (w : World) : Prop :=
  ∀ ix,(List.range w.semmni).find? (fun ix => (w.sema ix).alloc = false) = some ix →
    ∀ x ∈ w.waiters,¬(ipcidToIx x.semid = ix ∧ ipcidToSeq x.semid = ((w.sema ix).seq + 1) % 32768)

-- Every adjustment names a semaphore that is there, and so does every operation
-- of a sleeper whose set is.
structure Aimed (w : World) : Prop where
  low : ∀ ix,(w.sema ix).alloc = true → ix < w.semmni
  held : ∀ p ix n,adjOf w.semuList p ix n ≠ 0 → Held w (ix,n)
  inside : ∀ x ∈ w.waiters,w.serves x.semid → ∀ sop ∈ x.sops,sop.semNum < (w.sema (ipcidToIx x.semid)).sems.length

structure Tried (w : World) (p : Nat) (id : Int) (sops : List Sembuf) (ended : Ended) (w' : World) : Prop where
  sets : ∀ ix,(w'.sema ix).alloc = (w.sema ix).alloc ∧ (w'.sema ix).seq = (w.sema ix).seq ∧ (w'.sema ix).sems.length = (w.sema ix).sems.length
  fixed : w'.semmni = w.semmni ∧ w'.semmnu = w.semmnu
  sleepers : w'.waiters = w.waiters ∨ ∃ x : Waiter,x.semid = id ∧ x.sops = sops ∧ w'.waiters = x :: w.waiters
  failed : (∀ wakeup,ended ≠ .done wakeup) → SameAdj w.semuList w'.semuList
  adjusts : ∀ wakeup,ended = .done wakeup → ∀ q ix n,adjOf w'.semuList q ix n =
    if q = p ∧ ix = ipcidToIx id then short (adjOf w.semuList q ix n - undoTotal sops n) else adjOf w.semuList q ix n

theorem setSems_sets (same : sems.length = (w.sema ix).sems.length) (i : Nat) :
    ((w.setSems ix sems).sema i).alloc = (w.sema i).alloc ∧ ((w.setSems ix sems).sema i).seq = (w.sema i).seq ∧
      ((w.setSems ix sems).sema i).sems.length = (w.sema i).sems.length := by
  by_cases here : i = ix
  · subst here
    rw [setSems_here]
    refine ⟨?_,?_,same⟩ <;> simp [World.setSems]
  rw [setSems_else w here]
  exact ⟨rfl,rfl,rfl⟩

theorem countWaiter_length (sems : List Sem) (sop : Sembuf) (by_ : Int) : (countWaiter sems sop by_).length = sems.length := length_modify ..

theorem attempt_tried (inv : Inv c w) {doUndos : Bool} (ran : semopAttempt c w p id sops doUndos = .ok (ended,w')) : Tried w p id sops ended w' := by
  have ok := inv.sems (ipcidToIx id)
  have start : Unwinds (w.sema (ipcidToIx id)).sems (w.sema (ipcidToIx id)).sems [] := ⟨ok,rfl⟩
  unfold semopAttempt at ran
  dsimp only at ran
  cases scan : semopScan (w.sema (ipcidToIx id)).sems false doUndos [] sops with
  | blocked left undos done at_ =>
    rw [scan] at ran
    dsimp only at ran
    rw [semopScan_blocked ok start scan] at ran
    split at ran
    · cases ran
      exact ⟨setSems_sets rfl,⟨rfl,rfl⟩,.inl rfl,fun _ _ _ _ => rfl,fun _ is => (by cases is)⟩
    cases ran
    exact ⟨setSems_sets (countWaiter_length ..),⟨rfl,rfl⟩,.inr ⟨_,rfl,rfl,rfl⟩,fun _ _ _ _ => rfl,fun _ is => (by cases is)⟩
  | through sems' wakeup' undos' =>
    rw [scan] at ran
    have through := semopScan_through ok scan
    have length := counts_length (semopScan_counts ok scan)
    dsimp only at ran
    cases undos' with
    | false =>
      cases ran
      refine ⟨setSems_sets length,⟨rfl,rfl⟩,.inl rfl,fun ne => absurd rfl (ne wakeup'),fun _ _ q ix n => ?_⟩
      have range := (inv.undo.vector q).adj_range ix n
      rw [(through.undos rfl).2 n,sub_zero]
      split
      · exact (short_fits range.1 range.2).symm
      · rfl
    | true =>
      obtain ⟨r,l',undone,ok',same,adjust⟩ := undoAll_spec [] sops inv.undo (Returns.nil c w.semmnu p (ipcidToIx id) w.semuList) (fun ⟨_,mem,_⟩ => absurd mem not_mem_nil)
      rw [undone] at ran
      cases r with
      | none =>
        cases ran
        exact ⟨setSems_sets length,⟨rfl,rfl⟩,.inl rfl,fun ne => absurd rfl (ne wakeup'),fun _ _ => adjust rfl⟩
      | some e =>
        have taken : unwind sems' sops = (w.sema (ipcidToIx id)).sems := by
          have whole := (through.back _ start).back
          rw [append_nil] at whole
          rw [← whole]
          exact unwind_perm (reverse_perm sops).symm sems'
        cases ran
        exact ⟨setSems_sets (congrArg List.length taken),⟨rfl,rfl⟩,.inl rfl,fun _ => same rfl,fun _ is => (by cases is)⟩

theorem undoTotal_inside (inside : ∀ sop ∈ sops,sop.semNum < n) {m : Nat} (some_ : undoTotal sops m ≠ 0) : m < n := by
  by_contra out
  refine some_ ?_
  unfold undoTotal
  rw [filter_eq_nil_iff.mpr]
  · rfl
  intro sop mem
  have := inside sop mem
  simp only [Bool.and_eq_true,decide_eq_true_eq,not_and]
  omega

theorem Tried.serves (tried : Tried w p id sops ended w') (i : Int) : w'.serves i ↔ w.serves i := by
  unfold World.serves
  rw [(tried.sets _).1,(tried.sets _).2.1]

theorem Tried.aimed (tried : Tried w p id sops ended w') (aimed : Aimed w) (live : w.serves id) (inside : ∀ sop ∈ sops,sop.semNum < (w.sema (ipcidToIx id)).sems.length) :
    Aimed w' where
  low ix used := by
    rw [(tried.sets ix).1] at used
    rw [tried.fixed.1]
    exact aimed.low ix used
  held q ix n some_ := by
    have held : Held w (ix,n) := by
      cases how : ended with
      | done wakeup =>
        rw [tried.adjusts wakeup how] at some_
        split at some_
        · next mine =>
          by_cases had : adjOf w.semuList q ix n = 0
          · have total : undoTotal sops n ≠ 0 := by
              intro none_
              rw [had,none_] at some_
              exact some_ rfl
            rw [mine.2]
            exact ⟨live.1,undoTotal_inside inside total⟩
          · exact aimed.held q ix n had
        · exact aimed.held q ix n some_
      | asleep | error e =>
        rw [tried.failed (fun _ is => by rw [how] at is; cases is)] at some_
        exact aimed.held q ix n some_
    unfold Held
    rw [(tried.sets _).1,(tried.sets _).2.2]
    exact held
  inside x mem serves sop of := by
    rw [tried.serves] at serves
    rw [(tried.sets _).2.2]
    rcases tried.sleepers with same | ⟨y,named,vector,more⟩
    · rw [same] at mem
      exact aimed.inside x mem serves sop of
    rw [more] at mem
    rcases mem_cons.mp mem with rfl | mem
    · rw [named]
      rw [vector] at of
      exact inside sop of
    · exact aimed.inside x mem serves sop of

theorem sysSemop_cases {granted : Bool} (ran : sysSemop c w granted p id sops = .ok (ended,w')) : (w' = w ∧ ∃ e,ended = .error e) ∨
    w.serves id ∧ (∀ sop ∈ sops,sop.semNum < (w.sema (ipcidToIx id)).sems.length) ∧ semopAttempt c w p id sops false = .ok (ended,w') := by
  unfold sysSemop at ran
  dsimp only at ran
  split at ran
  · cases ran
    exact .inl ⟨rfl,_,rfl⟩
  split at ran
  · cases ran
    exact .inl ⟨rfl,_,rfl⟩
  split at ran
  · cases ran
    exact .inl ⟨rfl,_,rfl⟩
  next found =>
    split at ran
    · cases ran
      exact .inl ⟨rfl,_,rfl⟩
    split at ran
    · cases ran
      exact .inl ⟨rfl,_,rfl⟩
    next inside =>
      have found := not_or.mp found
      exact .inr ⟨⟨eq_true_of_ne_false found.1,not_not.mp found.2⟩,fun sop mem => Nat.lt_of_not_le fun out => inside ⟨sop,mem,out⟩,ran⟩

-- A sleeper that goes on has left the list; it is no longer counted where its set is there.
def World.awake (w : World) (x : Waiter) (rest : List Waiter) : World :=
  { w with waiters := rest }.setSems (ipcidToIx x.semid) (countWaiter (w.sema (ipcidToIx x.semid)).sems x.sop (-1))

theorem semopWake_cases {x : Waiter} {rest : List Waiter} {signal : Bool} (ran : semopWake c w x rest signal = .ok (result,w')) :
    (¬w.serves x.semid ∧ w' = { w with waiters := rest } ∧ result = some (.error .eidrm)) ∨
    w.serves x.semid ∧ (w' = w.awake x rest ∧ (result = none ∧ w.semReallocState = true ∨ result = some (.error .eintr) ∧ signal = true) ∨
      ∃ ended,result = some ended ∧ signal = false ∧ semopAttempt c (w.awake x rest) x.proc x.semid x.sops x.doUndos = .ok (ended,w')) := by
  unfold semopWake at ran
  dsimp only at ran
  split at ran
  · next gone =>
    cases ran
    refine .inl ⟨fun serves => ?_,rfl,rfl⟩
    rcases gone with free | other
    · rw [serves.1] at free
      cases free
    · exact other serves.2
  next found =>
  have found := not_or.mp found
  refine .inr ⟨⟨eq_true_of_ne_false found.1,not_not.mp found.2⟩,?_⟩
  split at ran
  · next busy =>
    cases ran
    exact .inl ⟨rfl,.inl ⟨rfl,busy⟩⟩
  split at ran
  · next stopped =>
    cases ran
    exact .inl ⟨rfl,.inr ⟨rfl,stopped⟩⟩
  next going =>
  obtain ⟨⟨ended,w₁⟩,attempt,rest⟩ := Outcome.bind_ok ran
  cases rest
  exact .inr ⟨ended,rfl,eq_false_of_ne_true going,attempt⟩

theorem awake_sets (w : World) (x : Waiter) (rest : List Waiter) (ix : Nat) : ((w.awake x rest).sema ix).alloc = (w.sema ix).alloc ∧
    ((w.awake x rest).sema ix).seq = (w.sema ix).seq ∧ ((w.awake x rest).sema ix).sems.length = (w.sema ix).sems.length :=
  setSems_sets (w := { w with waiters := rest }) (countWaiter_length ..) ix

theorem awake_values (w : World) (x : Waiter) (rest : List Waiter) (ix : Nat) : semvalAt ((w.awake x rest).sema ix).sems = semvalAt (w.sema ix).sems :=
  funext fun n => setSems_same (w := { w with waiters := rest }) (fun n => semvalAt_countWaiter ..) ix n

theorem Inv.awake (inv : Inv c w) (x : Waiter) (rest : List Waiter) : Inv c (w.awake x rest) := by
  have left : Inv c { w with waiters := rest } := ⟨inv.sems,inv.undo⟩
  exact left.setSems ((left.sems (ipcidToIx x.semid)).countWaiter x.sop (-1))

theorem Aimed.mono (aimed : Aimed w) (sets : ∀ ix,(w'.sema ix).alloc = (w.sema ix).alloc ∧ (w'.sema ix).seq = (w.sema ix).seq ∧ (w'.sema ix).sems.length = (w.sema ix).sems.length)
    (same : w'.semmni = w.semmni) (undo : ∀ q ix n,adjOf w'.semuList q ix n ≠ 0 → adjOf w.semuList q ix n ≠ 0) (sub : ∀ x ∈ w'.waiters,x ∈ w.waiters) :
    Aimed w' where
  low ix used := by
    rw [(sets ix).1] at used
    rw [same]
    exact aimed.low ix used
  held q ix n some_ := by
    unfold Held
    rw [(sets _).1,(sets _).2.2]
    exact aimed.held q ix n (undo q ix n some_)
  inside x mem serves sop of := by
    unfold World.serves at serves
    rw [(sets _).1,(sets _).2.1] at serves
    rw [(sets _).2.2]
    exact aimed.inside x (sub x mem) serves sop of

theorem setVals_length (c : Seminfo) (sems : List Sem) (vals : List Nat) : (setVals c sems vals).length = sems.length := by
  induction sems generalizing vals with
  | nil => cases vals <;> rfl
  | cons s sems ih =>
    cases vals with
    | nil => rfl
    | cons v vals =>
      rw [setVals]
      split
      · rfl
      · rw [length_cons,ih,length_cons]

theorem clear_some {mnu semid : Nat} {semnum : Option Nat} {l : List SemUndo} (ok : UndoOk c mnu l) (some_ : adjOf (semundoClear semid semnum l) q ix n ≠ 0) :
    adjOf l q ix n ≠ 0 ∧ hit semid semnum (ix,n) = false := by
  rw [adjOf_clear ok] at some_
  split at some_
  · exact absurd rfl some_
  · next stays => exact ⟨some_,eq_false_of_ne_true stays⟩

theorem hit_all (m : Nat) : hit ix none (m,n) = decide (m = ix) := by
  unfold hit
  simp

theorem semgetNew_shape {key nsems : Nat} (ran : semgetNew c w key nsems = .ok w') : ∃ i,(List.range w.semmni).find? (fun ix => (w.sema ix).alloc = false) = some i ∧
    0 < nsems ∧ nsems ≤ c.semmsl ∧ nsems ≤ w.semmns - w.semtot ∧
    w' = { w with
      sema := update w.sema i
        { alloc := true, seq := ((w.sema i).seq + 1) % 32768, key := key, sems := replicate nsems { semval := 0, semncnt := 0, semzcnt := 0 } }
      semtot := w.semtot + nsems } := by
  unfold semgetNew at ran
  split at ran
  · cases ran
  next bounds =>
    split at ran
    · cases ran
    next room =>
      split at ran
      · cases ran
      next i found =>
        cases ran
        have bounds := not_or.mp bounds
        exact ⟨i,found,Nat.pos_of_ne_zero bounds.1,Nat.le_of_not_lt bounds.2,Nat.le_of_not_lt room,rfl⟩

theorem Does.aimed {event : Event} (does : Does c w event result w') (inv : Inv c w) (aimed : Aimed w) (fresh : ∀ key nsems,event = .semget key nsems → Unclaimed w) :
    Aimed w' := by
  cases does with
  | semget key nsems ran =>
    obtain ⟨i,found,-,-,-,rfl⟩ := semgetNew_shape ran
    have free : (w.sema i).alloc = false := by simpa using find?_some found
    constructor
    · intro ix used
      by_cases here : ix = i
      · rw [here]
        exact mem_range.mp (mem_of_find?_eq_some found)
      dsimp only at used
      rw [update_of_ne here] at used
      exact aimed.low ix used
    · intro q ix n some_
      have held := aimed.held q ix n some_
      have ne : ix ≠ i := by
        rintro rfl
        rw [held.1] at free
        cases free
      unfold Held
      dsimp only
      rw [update_of_ne ne]
      exact held
    intro x mem serves sop of
    by_cases here : ipcidToIx x.semid = i
    · refine absurd ⟨here,?_⟩ (fresh key nsems rfl i found x mem)
      have same := serves.2
      dsimp only at same
      rw [here,update_self] at same
      exact same.symm
    unfold World.serves at serves
    dsimp only at serves ⊢
    rw [update_of_ne here] at serves ⊢
    exact aimed.inside x mem serves sop of
  | rmid i live =>
    constructor
    · intro ix used
      unfold semctlRmid at used
      dsimp only at used
      by_cases here : ix = i
      · rw [here,update_self] at used
        cases used
      rw [update_of_ne here] at used
      exact aimed.low ix used
    · intro q ix n some_
      obtain ⟨had,apart⟩ := clear_some inv.undo some_
      rw [hit_all,decide_eq_false_iff_not] at apart
      unfold Held semctlRmid
      dsimp only
      rw [update_of_ne apart]
      exact aimed.held q ix n had
    intro x mem serves sop of
    unfold World.serves semctlRmid at serves
    unfold semctlRmid
    dsimp only at serves ⊢
    by_cases here : ipcidToIx x.semid = i
    · rw [here,update_self] at serves
      cases serves.1
    rw [update_of_ne here] at serves ⊢
    exact aimed.inside x mem serves sop of
  | setval i m val live ran =>
    unfold semctlSetval at ran
    split at ran
    · cases ran
    split at ran
    · cases ran
    cases ran
    exact aimed.mono (setSems_sets (length_modify ..)) rfl (fun q ix n some_ => (clear_some inv.undo some_).1) fun x mem => mem
  | setall i vals live => exact aimed.mono (setSems_sets (setVals_length ..)) rfl (fun q ix n some_ => (clear_some inv.undo some_).1) fun x mem => mem
  | semop granted p id sops free ran =>
    rcases sysSemop_cases ran with ⟨rfl,-⟩ | ⟨live,inside,attempt⟩
    · exact aimed
    · exact (attempt_tried inv attempt).aimed aimed live inside
  | wake before after x signal sleeps ran =>
    have sub : ∀ y ∈ before ++ after,y ∈ w.waiters := by
      intro y mem
      rw [sleeps]
      rcases mem_append.mp mem with mem | mem
      · exact mem_append_left _ mem
      · exact mem_append_right _ (mem_cons_of_mem _ mem)
    rcases semopWake_cases ran with ⟨-,rfl,-⟩ | ⟨live,⟨rfl,-⟩ | ⟨ended,-,-,attempt⟩⟩
    · exact aimed.mono (fun _ => ⟨rfl,rfl,rfl⟩) rfl (fun _ _ _ some_ => some_) sub
    · exact aimed.mono (awake_sets w x _) rfl (fun _ _ _ some_ => some_) sub
    have up := aimed.mono (awake_sets w x (before ++ after)) rfl (fun _ _ _ some_ => some_) sub
    refine (attempt_tried (inv.awake x _) attempt).aimed up ?_ fun sop of => ?_
    · unfold World.serves
      rw [(awake_sets w x _ _).1,(awake_sets w x _ _).2.1]
      exact live
    rw [(awake_sets w x _ _).2.2]
    exact aimed.inside x (by rw [sleeps]; simp) live sop of
  | exit p ran =>
    obtain ⟨w₁,ran₁,-,same,-,adjusts⟩ := semexit_spec inv fun ix n => aimed.held p ix n
    rw [ran] at ran₁
    cases ran₁
    refine aimed.mono (fun ix => ⟨(same.sets ix).1,(same.sets ix).2.1,same.length ix⟩) ?_ (fun q ix n some_ => ?_) fun x mem => ?_
    · obtain ⟨sema,shape⟩ := same.rest
      rw [shape]
    · rw [adjusts] at some_
      split at some_
      · exact absurd rfl some_
      · exact some_
    obtain ⟨sema,shape⟩ := same.rest
    rw [shape] at mem
    exact mem
  | reallocStart free => exact ⟨aimed.low,aimed.held,aimed.inside⟩
  | reallocEnd mni mns mnu busy asleep =>
    unfold semreallocEnd
    split
    · exact aimed
    next fits =>
    have kept := (not_or.mp fits).1
    constructor
    · intro ix used
      dsimp only at used ⊢
      split at used
      · next both => exact Nat.lt_of_not_le fun high => kept ⟨ix,both.1,high,both.2⟩
      · cases used
    · intro q ix n some_
      have had : adjOf w.semuList q ix n ≠ 0 := by
        unfold adjOf vectorOf at some_ ⊢
        rw [inv.undo.distinct.get?_perm (reverse_perm _).symm] at some_
        exact some_
      have held := aimed.held q ix n had
      unfold Held
      dsimp only
      rw [if_pos ⟨aimed.low ix held.1,held.1⟩]
      exact held
    intro x mem
    rw [asleep] at mem
    cases mem

theorem seminit_aimed (mni mns mnu : Nat) : Aimed (seminit mni mns mnu) where
  low ix used := absurd used Bool.false_ne_true
  held q ix n some_ := absurd rfl some_
  inside x mem := absurd mem not_mem_nil
end NetbsdAvr32.Sysvsem
