import NetbsdAvr32.PmapView

namespace NetbsdAvr32.Avr32
open Function Outcome Space Nat Option List
variable {m : Machine} {tab : PmapRef → Nat → Option Nat} {s s' : State} {v v' : Space} {pmap : PmapRef}
  {va asid sva eva : Nat} {flush : Bool} {pte : PteRef} {i : Info}

theorem or_keeps (x bit : Word) : (x ||| bit) &&& bit = bit := by
  ext i
  simp
  tauto

theorem has_or (x bit : Word) (nonzero : bit ≠ 0#32) : has (x ||| bit) bit = true := by
  simp [has,or_keeps,nonzero]

theorem tbisGlobal_ok (va asid : Nat) (u : Mmu) : tbisGlobal va asid u = .ok (u.flush va asid) := by
  have valid := has_or (BitVec.ofNat 32 va ||| BitVec.ofNat 32 asid) avr32PgValid (by decide)
  have global : (avr32PgGlobal ||| avr32PgSize4K) &&& avr32PgGlobal = avr32PgGlobal := by decide
  simp [tbisGlobal,avr32Tbis,valid,global,Mmu.flush]

theorem update_cur (tlbehi tlbelo : Word) (u : Mmu) : (machTlbUpdate tlbehi tlbelo u).cur = u.cur := by
  unfold machTlbUpdate
  split <;> rfl

theorem unmapPte_sim (rep : Rep m tab s v) (points : Points tab pte pmap va) :
    Simulates (Rep m tab) (pmapRemovePte m pmap va asid flush pte s) (v.unmapPte m pmap asid flush va) := by
  unfold pmapRemovePte unmapPte
  have read := getPte_sim rep points
  by_cases range : InRange m va pmap
  · rw [if_pos range] at read ⊢
    obtain ⟨entry,got,rfl⟩ := read.backward rfl
    rw [got,ok_bind]
    cases valid : has (v.pte pmap (va / nbpg)) avr32PteValid with
    | false => exact rep
    | true =>
      have owner := getPmap_sim rep pmap
      cases info : v.info pmap with
      | none =>
        rw [info] at owner
        obtain ⟨e,failed⟩ := owner.failed
        rw [failed]
        trivial
      | some i =>
        obtain ⟨p,held,live,rfl⟩ := owner.backward info
        rw [held,ok_bind,map_some]
        have counted := setPmap_rep rep live {p with toInfo := p.toInfo.unmapped (v.pte pmap (va / nbpg))} rfl
        unfold unmapped
        dsimp only
        -- Both sides now do the same three things: list, PTE, TLB.
        have finish : ∀ s' v', Rep m tab s' v' → Simulates (Rep m tab)
            (if flush = true then do
                let u ← tbisGlobal va asid (s'.setPte 0#32 pte).mmu
                .ok ((s'.setPte 0#32 pte).setMmu u)
              else .ok (s'.setPte 0#32 pte))
            (some (if flush = true then (v'.setPte pmap (va / nbpg) 0#32).setMmu
              ((v'.setPte pmap (va / nbpg) 0#32).mmu.flush va asid) else v'.setPte pmap (va / nbpg) 0#32)) := by
          intro s' v' rep'
          have cleared := setPte_rep rep' points range 0#32
          cases flush with
          | false => exact cleared
          | true =>
            have flushed := setMmu_rep (u := (s'.setPte 0#32 pte).mmu.flush va asid) cleared rfl
            simp only [↓reduceIte,tbisGlobal_ok,ok_bind]
            rw [← mmu_same cleared]
            exact flushed
        cases page : physToVmPage m (avr32TlbpfnToPaddr (v.pte pmap (va / nbpg))).toNat with
        | none => exact finish _ _ counted
        | some pg =>
          obtain ⟨s',ran,erased⟩ := pmapRemovePv_sim counted pmap va pg
          dsimp only
          rw [ran]
          exact finish _ _ erased
  · rw [if_neg range] at read ⊢
    obtain ⟨e,failed⟩ := read.failed
    rw [failed]
    trivial

theorem protectPte_sim (rep : Rep m tab s v) (points : Points tab pte pmap va) :
    Simulates (Rep m tab) (pmapProtectPte m code tlbehi needupdate va pte s)
      (v.protectPte m pmap code tlbehi needupdate va) := by
  unfold pmapProtectPte protectPte
  have read := getPte_sim rep points
  by_cases range : InRange m va pmap
  · rw [if_pos range] at read ⊢
    obtain ⟨entry,got,rfl⟩ := read.backward rfl
    rw [got,ok_bind]
    dsimp only
    cases valid : has (v.pte pmap (va / nbpg)) avr32PteValid with
    | false => exact rep
    | true =>
      have written := setPte_rep rep points range (reprotected code (v.pte pmap (va / nbpg)))
      cases needupdate with
      | false => exact written
      | true =>
        have updated := setMmu_rep written (update_cur (tlbehi va) (reprotected code (v.pte pmap (va / nbpg))) _)
        simp only [↓reduceIte]
        rw [← mmu_same written]
        exact updated
  rw [if_neg range] at read ⊢
  obtain ⟨e,failed⟩ := read.failed
  rw [failed]
  trivial

theorem pageList_append (sva k l : Nat) : pageList sva (k + l) = pageList sva k ++ pageList (sva + k * nbpg) l := by
  induction k generalizing sva with
  | zero => simp [pageList]
  | succ k ih =>
    have shift : sva + nbpg + k * nbpg = sva + (k + 1) * nbpg := by simp only [nbpg]; omega
    rw [add_right_comm,pageList,pageList,ih,shift]
    rfl

variable {bodyC : Nat → PteRef → State → Except Halt State} {bodyA : Space → Nat → Option Space}

-- The loop over PTEs visits the pages one by one; `advance` is why the pointer
-- keeps step with the address.
theorem eachPte_sim
    (body : ∀ va pte s v, Rep m tab s v → Points tab pte pmap va → Simulates (Rep m tab) (bodyC va pte s) (bodyA v va))
    (inside : ∀ va v v', bodyA v va = some v' → InRange m va pmap)
    (advance : ∀ va pte, sva ≤ va → Points tab pte pmap va → InRange m va pmap → va + nbpg < eva →
      Points tab pte.next pmap (va + nbpg))
    (rep : Rep m tab s v) (count : pageCount sva eva = k) (points : sva < eva → Points tab pte pmap sva) :
    Simulates (fun r v => r.1 = sva + k * nbpg ∧ Rep m tab r.2 v) (eachPte bodyC (k + 1) sva eva pte s)
      ((pageList sva k).foldlM bodyA v) := by
  induction k generalizing sva pte s v with
  | zero =>
    have done : ¬ sva < eva := by simp only [pageCount,nbpg] at count; omega
    simp only [eachPte,done,↓reduceIte,pageList]
    exact ⟨by simp,rep⟩
  | succ k ih =>
    have more : sva < eva := by simp only [pageCount,nbpg] at count; omega
    have rest : pageCount (sva + nbpg) eva = k := by simp only [pageCount,nbpg] at *; omega
    have here := points more
    unfold eachPte
    rw [if_pos more]
    simp only [pageList,foldlM_cons]
    have first := body sva pte s v rep here
    cases ran : bodyA v sva with
    | none =>
      rw [ran] at first
      obtain ⟨e,failed⟩ := first.failed
      rw [failed]
      trivial
    | some v' =>
      obtain ⟨s',ran',rep'⟩ := first.backward ran
      rw [ran',ok_bind]
      have shift : sva + nbpg + k * nbpg = sva + (k + 1) * nbpg := by simp only [nbpg]; omega
      have tail := ih (fun va pte low => advance va pte (le_trans (le_add_right _ _) low)) rep' rest
        (advance sva pte (le_refl _) here (inside sva v v' ran))
      rw [shift] at tail
      exact tail

theorem kernel_advance (here : Points tab pte .kernel va) (range : InRange m va .kernel) :
    Points tab pte.next .kernel (va + nbpg) := by
  have inside : kvInRange m va := range
  cases here
  have low : vmMinKernelAddress ≤ va := by
    simp only [kvInRange,kernelVpn,vmMinKernelAddress,nbpg] at *
    omega
  have high : vmMinKernelAddress ≤ va + nbpg := le_trans low (le_add_right _ _)
  have index : kvtopte (va + nbpg) = kvtopte va + 1 := by
    unfold kvtopte
    rw [if_pos low,if_pos high]
    simp only [vmMinKernelAddress,nbpg] at *
    omega
  simp [Points,sysPte,PteRef.next,index]

theorem user_advance (segment : eva ≤ (va / nbseg + 1) * nbseg) (here : Points tab pte (.user n) va)
    (more : va + nbpg < eva) : Points tab pte.next (.user n) (va + nbpg) := by
  obtain ⟨below,page,got,rfl⟩ := here
  have same : (va + nbpg) / nbseg = va / nbseg := by simp only [nbpg,nbseg] at *; omega
  have below' : va + nbpg < vmMaxuserAddress := by simp only [nbpg,nbseg,vmMaxuserAddress] at *; omega
  refine ⟨below',page,by rw [same]; exact got,?_⟩
  have index : (va + nbpg) / nbpg % nptepg = va / nbpg % nptepg + 1 := by
    simp only [nbpg,nbseg,nptepg] at *
    omega
  simp [userPte,PteRef.next,index]

theorem segmap_sim (rep : Rep m tab s v) (n va : Nat) :
    Simulates (fun found seg => found = seg) (pmapSegmap (.user n) va s)
      (if (v.info (.user n)).isSome ∧ va < vmMaxuserAddress then some (tab (.user n) (va / nbseg)) else none) := by
  obtain ⟨wf,rfl,rfl⟩ := rep
  have index : va / nbseg < pmapSegtabsize ↔ va < vmMaxuserAddress := by
    simp only [nbseg,pmapSegtabsize,vmMaxuserAddress]
    omega
  unfold pmapSegmap State.getPmap
  cases held : s.pmaps (.user n) with
  | none => simp [view,held,Simulates]
  | some p =>
    obtain ⟨_,t,owned⟩ := wf.owner n (by simp [held])
    have table : p.pmSegtab = some t := by simpa [segtabOf,held] using owned
    simp only [ok_bind,table,view,held,index]
    by_cases below : va < vmMaxuserAddress
    · have links := (wf.table n t owned).2 (va / nbseg) (index.mpr below)
      simp only [below,↓reduceIte,segPage,owned,index.mpr below,map_some,isSome_some,and_self]
      cases entry : s.segtab t (va / nbseg) with
      | null => rfl
      | ptes page => rfl
      | link t' => exact (links t' entry).elim
    · simp [below,Simulates]

theorem segmentEnd_spec (more : sva < eva) (below : sva < vmMaxuserAddress) :
    sva < segmentEnd sva eva ∧ segmentEnd sva eva ≤ eva ∧ segmentEnd sva eva ≤ (sva / nbseg + 1) * nbseg ∧
      (segmentEnd sva eva = eva ∨ segmentEnd sva eva = (sva / nbseg + 1) * nbseg) := by
  have bound : (avr32TruncSeg sva + nbseg) % 2 ^ 32 = (sva / nbseg + 1) * nbseg := by
    simp only [avr32TruncSeg,nbseg,vmMaxuserAddress] at *
    omega
  unfold segmentEnd
  rw [bound]
  by_cases short : (sva / nbseg + 1) * nbseg = 0 ∨ eva < (sva / nbseg + 1) * nbseg
  · rw [if_pos short]
    refine ⟨more,le_refl _,?_,.inl rfl⟩
    simp only [nbseg] at *
    omega
  rw [if_neg short]
  refine ⟨?_,?_,le_refl _,.inr rfl⟩
  all_goals simp only [nbseg] at *; omega

theorem skip_pages
    (skip : ∀ va v, va < vmMaxuserAddress → v.pte (.user n) (va / nbpg) = 0#32 → bodyA v va = some v)
    (empty : ∀ va, sva ≤ va → va < sva + k * nbpg → va < vmMaxuserAddress ∧ v.pte (.user n) (va / nbpg) = 0#32) :
    (pageList sva k).foldlM bodyA v = some v := by
  induction k generalizing sva with
  | zero => rfl
  | succ k ih =>
    have first := empty sva (le_refl _) (by simp only [nbpg] at *; omega)
    simp only [pageList,foldlM_cons,skip sva v first.1 first.2,some_bind]
    refine ih ?_
    intro va low high
    exact empty va (by simp only [nbpg] at *; omega) (by simp only [nbpg] at *; omega)

theorem fold_live
    (keeps : ∀ va v v', bodyA v va = some v' → (v'.info pmap).isSome = (v.info pmap).isSome)
    {l : List Nat} {v v' : Space} (ran : l.foldlM bodyA v = some v') :
    (v'.info pmap).isSome = (v.info pmap).isSome := by
  induction l generalizing v with
  | nil => cases ran; rfl
  | cons va l ih =>
    obtain ⟨next,first,rest⟩ := bind_some ran
    exact (ih rest).trans (keeps va v next first)

theorem eachPte_user
    (body : ∀ va pte s v, Rep m tab s v → Points tab pte (.user n) va →
      Simulates (Rep m tab) (bodyC va pte s) (bodyA v va))
    (inside : ∀ va v v', bodyA v va = some v' → InRange m va (.user n))
    (rep : Rep m tab s v) (segment : stop ≤ (sva / nbseg + 1) * nbseg)
    (points : sva < stop → Points tab pte (.user n) sva) :
    Simulates (fun r v => r.1 = sva + pageCount sva stop * nbpg ∧ Rep m tab r.2 v)
      (eachPte bodyC (pageCount sva stop + 1) sva stop pte s) ((pageList sva (pageCount sva stop)).foldlM bodyA v) := by
  refine eachPte_sim (k := pageCount sva stop) body inside ?_ rep (Eq.refl _) points
  intro va pte low here _ more
  refine user_advance (le_trans segment ?_) here more
  exact Nat.mul_le_mul_right _ (Nat.succ_le_succ (Nat.div_le_div_right low))

theorem eachSegment_sim
    (body : ∀ va pte s v, Rep m tab s v → Points tab pte (.user n) va →
      Simulates (Rep m tab) (bodyC va pte s) (bodyA v va))
    (inside : ∀ va v v', bodyA v va = some v' → InRange m va (.user n))
    (skip : ∀ va v, va < vmMaxuserAddress → v.pte (.user n) (va / nbpg) = 0#32 → bodyA v va = some v)
    (keeps : ∀ va v v', bodyA v va = some v' → (v'.info (.user n)).isSome = (v.info (.user n)).isSome)
    (rep : Rep m tab s v) (live : (v.info (.user n)).isSome) (aligned : sva < eva → sva % nbpg = 0)
    (enough : 0 < k ∧ (sva < eva → eva / nbseg + 2 ≤ k + sva / nbseg)) :
    Simulates (Rep m tab) (eachSegment bodyC (.user n) k sva eva s) ((pages sva eva).foldlM bodyA v) := by
  induction k generalizing sva s v with
  | zero => exact absurd enough.1 (lt_irrefl 0)
  | succ k ih =>
    unfold eachSegment
    split_ifs with more
    · have whole := aligned more
      have lookup := segmap_sim rep n sva
      by_cases below : sva < vmMaxuserAddress
      · simp only [live,below,and_self,↓reduceIte] at lookup
        obtain ⟨_,ran,rfl⟩ := lookup.backward rfl
        obtain ⟨ahead,cap,segment,shape⟩ := segmentEnd_spec more below
        rw [ran,ok_bind]
        generalize segmentEnd sva eva = stop at ahead cap segment shape
        -- The pages of this segment, then the rest of the range.
        have split : pages sva eva = pageList sva (pageCount sva stop) ++
            pages (sva + pageCount sva stop * nbpg) eva := by
          have counts : pageCount sva eva = pageCount sva stop + pageCount (sva + pageCount sva stop * nbpg) eva := by
            simp only [pageCount,nbpg,nbseg] at *
            omega
          rw [pages,counts,pageList_append]
          rfl
        have fuel : 0 < k := by simp only [nbseg] at *; omega
        have room : ∀ next, (sva / nbseg + 1) * nbseg ≤ next → next < eva → eva / nbseg + 2 ≤ k + next / nbseg := by
          intro next past inside
          simp only [nbseg] at *
          omega
        cases found : tab (.user n) (sva / nbseg) with
        | none =>
          have empty : ∀ va, sva ≤ va → va < sva + pageCount sva stop * nbpg →
              va < vmMaxuserAddress ∧ v.pte (.user n) (va / nbpg) = 0#32 := by
            intro va low high
            have seg : va / nbpg / nptepg = sva / nbseg := by
              simp only [pageCount,nbpg,nptepg,nbseg] at *
              omega
            refine ⟨by simp only [pageCount,nbpg,nbseg,vmMaxuserAddress] at *; omega,?_⟩
            obtain ⟨_,rfl,rfl⟩ := rep
            simp [view,pteAt,seg,found]
          rw [split,foldlM_append,skip_pages skip empty,some_bind]
          dsimp only
          rcases shape with last | boundary
          · -- The range ends in this segment.
            have passed : pages (sva + pageCount sva stop * nbpg) eva = pages stop eva := by
              have none : pageCount (sva + pageCount sva stop * nbpg) eva = 0 := by
                simp only [pageCount,nbpg] at *
                omega
              have none' : pageCount stop eva = 0 := by simp only [pageCount,nbpg] at *; omega
              simp [pages,none,none',pageList]
            rw [passed]
            refine ih rep live (fun again => ?_) ⟨fuel,fun again => ?_⟩ <;> omega
          have passed : sva + pageCount sva stop * nbpg = stop := by
            simp only [pageCount,nbpg,nbseg] at *
            omega
          rw [passed]
          refine ih rep live (fun _ => ?_) ⟨fuel,room stop (le_of_eq boundary.symm)⟩
          simp only [nbpg,nbseg] at *
          omega
        | some page =>
          dsimp only
          have points : sva < stop → Points tab (userPte page sva) (.user n) sva :=
            fun _ => ⟨below,page,found,rfl⟩
          have loop : Simulates (fun r v => r.1 = sva + pageCount sva stop * nbpg ∧ Rep m tab r.2 v)
              (eachPte bodyC (pageCount sva stop + 1) sva stop (userPte page sva) s)
              ((pageList sva (pageCount sva stop)).foldlM bodyA v) :=
            eachPte_user body inside rep segment points
          rw [split,foldlM_append]
          cases done : (pageList sva (pageCount sva stop)).foldlM bodyA v with
          | none =>
            rw [done] at loop
            obtain ⟨e,failed⟩ := loop.failed
            have unfolded : pteRounds sva stop = pageCount sva stop + 1 := rfl
            rw [unfolded,failed]
            trivial
          | some v' =>
            obtain ⟨⟨sva',s'⟩,ran',where',rep'⟩ := loop.backward done
            have unfolded : pteRounds sva stop = pageCount sva stop + 1 := rfl
            rw [unfolded,ran',ok_bind,some_bind]
            dsimp only at where' rep' ⊢
            subst where'
            have live' : (v'.info (.user n)).isSome := by
              rw [fold_live keeps done]
              exact live
            refine ih rep' live' (fun _ => ?_) ⟨fuel,fun again => room _ ?_ again⟩
            · simp only [nbpg] at *
              omega
            simp only [pageCount,nbpg,nbseg] at *
            omega
      · simp only [below,and_false,↓reduceIte] at lookup
        obtain ⟨e,failed⟩ := lookup.failed
        have first : ∃ rest, pages sva eva = sva :: rest := by
          have some : pageCount sva eva = (pageCount sva eva - 1) + 1 := by
            simp only [pageCount,nbpg]
            omega
          rw [pages,some]
          exact ⟨_,rfl⟩
        obtain ⟨rest,list⟩ := first
        have outside : bodyA v sva = none := by
          cases ran : bodyA v sva with
          | none => rfl
          | some v' => exact (below (inside sva v v' ran)).elim
        dsimp only
        rw [failed,list,foldlM_cons,outside]
        trivial
    · have none : pageCount sva eva = 0 := by simp only [pageCount,nbpg]; omega
      simp only [pages,none,pageList]
      exact rep

theorem unmapPte_inside (ran : unmapPte m pmap asid flush v va = some v') : InRange m va pmap := by
  unfold unmapPte at ran
  split at ran
  · assumption
  · cases ran

theorem unmapped_info (q : PmapRef) (held : v.info pmap = some i) :
    ((v.unmapped m pmap va asid flush i).info q).isSome = (v.info q).isSome := by
  have same : (v.unmapped m pmap va asid flush i).info =
      update v.info pmap (some (i.unmapped (v.pte pmap (va / nbpg)))) := by
    unfold unmapped
    dsimp only
    cases page : physToVmPage m (avr32TlbpfnToPaddr (v.pte pmap (va / nbpg))).toNat <;> cases flush <;> rfl
  rw [same]
  by_cases equal : q = pmap
  · subst q; simp [held]
  · simp [equal]

theorem unmapPte_live (q : PmapRef) (ran : unmapPte m pmap asid flush v va = some v') :
    (v'.info q).isSome = (v.info q).isSome := by
  unfold unmapPte at ran
  split at ran
  · split at ran
    · cases ran; rfl
    obtain ⟨i,held,rfl⟩ := map_eq_some_iff.mp ran
    exact unmapped_info q held
  · cases ran

theorem has_zero (bits : Word) : has 0#32 bits = false := by simp [has]

theorem unmapPte_empty (below : va < vmMaxuserAddress) (empty : v.pte (.user n) (va / nbpg) = 0#32) :
    unmapPte m (.user n) asid flush v va = some v := by
  simp [unmapPte,InRange,below,empty,has_zero]

theorem pmapRemove_sim (rep : Rep m tab s v) (aligned : sva % nbpg = 0) :
    Simulates (Rep m tab) (pmapRemove m pmap sva eva s) (v.remove m pmap sva eva) := by
  unfold pmapRemove remove
  cases pmap with
  | kernel =>
    have loop : Simulates (fun r v => r.1 = sva + pageCount sva eva * nbpg ∧ Rep m tab r.2 v)
        (eachPte (fun va pte s => pmapRemovePte m .kernel va 0 true pte s) (pageCount sva eva + 1) sva eva (sysPte sva) s)
        ((pageList sva (pageCount sva eva)).foldlM (unmapPte m .kernel 0 true) v) :=
      eachPte_sim (fun va pte s v rep points => unmapPte_sim rep points) (fun va v v' => unmapPte_inside)
        (fun va pte _ here range _ => kernel_advance here range) rep (Eq.refl _) (fun _ => rfl)
    exact loop.pick (fun r v done => done.2)
  | user n =>
    have owner := getPmap_sim rep (.user n)
    cases info : v.info (.user n) with
    | none =>
      rw [info] at owner
      obtain ⟨e,failed⟩ := owner.failed
      rw [failed]
      trivial
    | some i =>
      obtain ⟨p,held,live,rfl⟩ := owner.backward info
      rw [held,ok_bind,some_bind,mmu_same rep]
      exact eachSegment_sim (fun va pte s v rep points => unmapPte_sim rep points) (fun va v v' => unmapPte_inside)
        (fun va v => unmapPte_empty) (fun va v v' => unmapPte_live _) rep (by simp [info]) (fun _ => aligned)
        ⟨succ_pos _,fun _ => le_add_right _ _⟩

theorem protectPte_inside (ran : protectPte m pmap code tlbehi needupdate v va = some v') : InRange m va pmap := by
  unfold protectPte at ran
  split at ran
  · assumption
  · cases ran

theorem protectPte_info (ran : protectPte m pmap code tlbehi needupdate v va = some v') : v'.info = v.info := by
  unfold protectPte at ran
  dsimp only at ran
  split at ran
  · split at ran
    · cases ran; rfl
    · cases ran; cases needupdate <;> rfl
  · cases ran

theorem protectPte_empty (below : va < vmMaxuserAddress) (empty : v.pte (.user n) (va / nbpg) = 0#32) :
    protectPte m (.user n) code tlbehi needupdate v va = some v := by
  simp [protectPte,InRange,below,empty,has_zero]

theorem pmapProtect_sim (rep : Rep m tab s v) (aligned : sva % nbpg = 0) :
    Simulates (Rep m tab) (pmapProtect m pmap sva eva prot s) (v.protect m pmap sva eva prot) := by
  unfold pmapProtect protect
  by_cases impossible : 8 ≤ prot.toNat
  · simp [impossible,Simulates]
  simp only [impossible,↓reduceIte]
  cases readable : has prot vmProtRead with
  | false => exact pmapRemove_sim rep aligned
  | true =>
    cases chosen : pteProt pmap prot with
    | error e => simp [Except.toOption,Simulates]
    | ok code =>
      simp only [Except.toOption,ok_bind,some_bind]
      have owner := getPmap_sim rep pmap
      cases info : v.info pmap with
      | none =>
        rw [info] at owner
        obtain ⟨e,failed⟩ := owner.failed
        rw [failed]
        trivial
      | some i =>
        obtain ⟨p,held,live,rfl⟩ := owner.backward info
        rw [held,ok_bind,some_bind]
        cases pmap with
        | kernel =>
          have loop : Simulates (fun r v => r.1 = sva + pageCount sva eva * nbpg ∧ Rep m tab r.2 v)
              (eachPte (pmapProtectPte m code (fun va => avr32VaddrToTlbvpn (BitVec.ofNat 32 va) |||
                BitVec.ofNat 32 p.pmAsid) true) (pageCount sva eva + 1) sva eva (sysPte sva) s)
              ((pageList sva (pageCount sva eva)).foldlM (protectPte m .kernel code
                (fun va => avr32VaddrToTlbvpn (BitVec.ofNat 32 va) ||| BitVec.ofNat 32 p.pmAsid) true) v) :=
            eachPte_sim (fun va pte s v rep points => protectPte_sim rep points) (fun va v v' => protectPte_inside)
              (fun va pte _ here range _ => kernel_advance here range) rep (Eq.refl _) (fun _ => rfl)
          simp only [↓reduceIte]
          exact loop.pick (fun r v done => done.2)
        | user n =>
          simp only [reduceCtorEq,↓reduceIte]
          by_cases low : vmMaxuserAddress < sva
          · simp [low,Simulates]
          by_cases high : vmMaxuserAddress < eva
          · simp [low,high,Simulates]
          simp only [low,high,↓reduceIte]
          rw [mmu_same rep]
          exact eachSegment_sim (fun va pte s v rep points => protectPte_sim rep points)
            (fun va v v' => protectPte_inside) (fun va v => protectPte_empty)
            (fun va v v' ran => by rw [protectPte_info ran]) rep (by simp [info]) (fun _ => aligned)
            ⟨succ_pos _,fun _ => le_add_right _ _⟩

variable {pa pg : Nat} {key : PmapRef × Nat} {e : PvEntry}

theorem pvFind_spec {test : PvEntry → Bool} {good : PmapRef × Nat → Bool} {l : List Nat} (pv : PvPtr) (fuel : Nat)
    (wf : Wf s) (agree : ∀ e key, e.key = some key → test e = good key) (got : s.getPv pv = .ok e)
    (head : e.key = some key) (path : Linked.Path s.pvNode PvEntry.pvNext e.pvNext l none) (enough : l.length < fuel) :
    ∃ r, pvFind s test fuel pv = .ok r ∧
      r.map PvEntry.key = ((key :: l.filterMap (nodeKey s)).find? good).map some := by
  induction l generalizing pv e key fuel with
  | nil =>
    obtain ⟨fuel,rfl⟩ := exists_eq_succ_of_ne_zero (ne_of_gt (zero_lt_of_lt enough))
    unfold pvFind
    rw [got,ok_bind,agree e key head,path]
    cases hit : good key with
    | true => exact ⟨some e,rfl,by simp [hit,head]⟩
    | false => exact ⟨none,rfl,by simp [hit]⟩
  | cons n l ih =>
    obtain ⟨fuel,rfl⟩ := exists_eq_succ_of_ne_zero (ne_of_gt (zero_lt_of_lt enough))
    obtain ⟨link,e',live,rest⟩ := path
    unfold pvFind
    rw [got,ok_bind,agree e key head,link]
    cases hit : good key with
    | true => exact ⟨some e,rfl,by simp [hit,head]⟩
    | false =>
      obtain ⟨other,addr,second,_⟩ := wf.nodeKeys n e' live
      have node : s.getPv (.node n) = .ok e' := by simp [State.getPv,live]
      have keyed : nodeKey s n = some (other,addr) := (nodeKey_of live).trans second
      obtain ⟨r,ran,found⟩ := ih (.node n) fuel node second rest (by simpa using enough)
      refine ⟨r,ran,?_⟩
      have skipped : ∀ l, (key :: l).find? good = l.find? good := fun l => find?_cons_of_neg (by simp [hit])
      rw [found,skipped,filterMap_cons,keyed]

theorem pvFind_list (test : PvEntry → Bool) (good : PmapRef × Nat → Bool) (rep : Rep m tab s v)
    (agree : ∀ e key, e.key = some key → test e = good key) (head : (s.pvHead pg).key = some key) :
    ∃ r, pvFind s test (s.nextPv + 2) (.header pg) = .ok r ∧ r.map PvEntry.key = ((v.pv pg).find? good).map some := by
  obtain ⟨wf,rfl,_⟩ := rep
  have short := chain_length wf pg
  have found := pvFind_spec (.header pg) (s.nextPv + 2) wf agree rfl head (wf.chain pg) (by omega)
  have list : (view m s).pv pg = key :: (pvNodes s pg).filterMap (nodeKey s) := by simp [view,pvList,head]
  rw [list]
  exact found

theorem pv_head (rep : Rep m tab s v) : (s.pvHead pg).pvPmap = none ↔ v.pv pg = [] := by
  obtain ⟨_,rfl,_⟩ := rep
  cases owner : (s.pvHead pg).pvPmap <;> simp [view,pvList,PvEntry.key,owner]

theorem pv_aligned (rep : Rep m tab s v) (member : key ∈ v.pv pg) : key.2 % nbpg = 0 := by
  obtain ⟨wf,rfl,_⟩ := rep
  simp only [view,pvList] at member
  cases head : (s.pvHead pg).key with
  | none => simp [head] at member
  | some first =>
    simp only [head,mem_cons,mem_filterMap] at member
    rcases member with rfl | ⟨n,listed,keyed⟩
    · exact wf.headAligned pg _ _ head
    obtain ⟨e,live⟩ := (wf.chain pg).live listed
    obtain ⟨other,addr,second,aligned⟩ := wf.nodeKeys n e live
    rw [nodeKey_of live,second] at keyed
    cases keyed
    exact aligned

-- The first mapping of a page lives in the header, every further one is put
-- right behind it.
theorem enter_first (rep : Rep m tab s v) (aligned : va % nbpg = 0) (flags : Word) :
    Rep m tab (s.setPv ⟨none,some pmap,va,flags⟩ (.header pg)) {v with pv := update v.pv pg [(pmap,va)]} := by
  have wf := rep.1
  exact pv_rep rep pg ⟨none,some pmap,va,flags⟩ s.pvNode [] (le_refl _) rfl (by simp) (fun _ _ _ => rfl)
    (fun n e got => ⟨wf.nodeBelow n e got,wf.nodeKeys n e got⟩)
    (fun p w same => by cases same; exact aligned) (fun same => by cases same)

theorem enter_behind (pmap : PmapRef) (rep : Rep m tab s v) (aligned : va % nbpg = 0) (head : (s.pvHead pg).key = some key)
    (flags : Word) :
    Rep m tab (({s with nextPv := s.nextPv + 1}.setPv ⟨(s.pvHead pg).pvNext,some pmap,va,flags⟩
        (.node s.nextPv)).setPv {s.pvHead pg with pvNext := some s.nextPv} (.header pg))
      {v with pv := update v.pv pg (key :: (pmap,va) :: (v.pv pg).tail)} := by
  have wf := rep.1
  have off : s.nextPv ∉ pvNodes s pg := fun member => lt_irrefl _ (chain_below wf member)
  have done := pv_rep rep pg {s.pvHead pg with pvNext := some s.nextPv}
    (update s.pvNode s.nextPv (some ⟨(s.pvHead pg).pvNext,some pmap,va,flags⟩)) (s.nextPv :: pvNodes s pg)
    (le_succ s.nextPv) ⟨rfl,_,update_self _ _ _,(wf.chain pg).free off⟩
    (fun n member => by
      rcases mem_cons.mp member with rfl | old
      · exact .inr (le_refl _)
      · exact .inl old)
    (fun n _ below => update_of_ne (Nat.ne_of_lt below) _ _)
    (fun n e live => by
      by_cases equal : n = s.nextPv
      · subst n
        rw [update_self] at live
        cases live
        exact ⟨lt_succ_self _,pmap,va,rfl,aligned⟩
      rw [update_of_ne equal] at live
      exact ⟨lt_succ_of_lt (wf.nodeBelow n e live),wf.nodeKeys n e live⟩)
    (fun p w same => wf.headAligned pg p w same)
    (fun same => by
      have : (s.pvHead pg).key = none := same
      rw [head] at this
      cases this)
  have keys : keysOf {s.pvHead pg with pvNext := some s.nextPv}
      (update s.pvNode s.nextPv (some ⟨(s.pvHead pg).pvNext,some pmap,va,flags⟩)) (s.nextPv :: pvNodes s pg) =
      key :: (pmap,va) :: (v.pv pg).tail := by
    have headKey : PvEntry.key {s.pvHead pg with pvNext := some s.nextPv} = some key := head
    have list : v.pv pg = keysOf (s.pvHead pg) s.pvNode (pvNodes s pg) := by rw [← rep.2.1]; rfl
    have same : (pvNodes s pg).filterMap (fun n => (update s.pvNode s.nextPv
          (some ⟨(s.pvHead pg).pvNext,some pmap,va,flags⟩) n).bind PvEntry.key) =
        (pvNodes s pg).filterMap (fun n => (s.pvNode n).bind PvEntry.key) := by
      refine filterMap_congr ?_
      intro n member
      have apart : n ≠ s.nextPv := fun same => off (same ▸ member)
      rw [update_of_ne apart]
    rw [list]
    simp only [keysOf,headKey,head,filterMap_cons,update_self,Option.bind_some,same,tail_cons]
    simp [PvEntry.key]
  rw [← keys]
  exact done

theorem pmapEnterPv_sim (fuel : Nat) (rep : Rep m tab s v) (aligned : va % nbpg = 0) :
    Simulates (Rep m tab) (pmapEnterPv m fuel pmap va pg s) (v.enterPv m fuel pmap va pg) := by
  induction fuel generalizing s v with
  | zero => trivial
  | succ fuel ih =>
    unfold pmapEnterPv enterPv
    by_cases empty : (s.pvHead pg).pvPmap = none
    · have nil := (pv_head rep).mp empty
      rw [if_pos empty,nil]
      exact enter_first rep aligned _
    rw [if_neg empty]
    obtain ⟨key,head⟩ : ∃ key, (s.pvHead pg).key = some key := by
      cases owner : (s.pvHead pg).pvPmap with
      | none => exact absurd owner empty
      | some p => exact ⟨_,by simp [PvEntry.key,owner]; rfl⟩
    obtain ⟨rest,list⟩ : ∃ rest, v.pv pg = key :: rest := by
      rw [← rep.2.1]
      exact ⟨_,by simp [view,pvList,head]; rfl⟩
    obtain ⟨clash,ran,found⟩ := pvFind_list (fun e => avr32CacheIndexof m e.pvVa != avr32CacheIndexof m va)
      (fun key => avr32CacheIndexof m key.2 != avr32CacheIndexof m va) rep
      (fun e key keyed => by
        obtain ⟨p,_,rfl⟩ := map_eq_some_iff.mp keyed
        rfl) head
    rw [ran,ok_bind,list]
    rw [list] at found
    dsimp only
    cases hit : (key :: rest).find? (fun key => avr32CacheIndexof m key.2 != avr32CacheIndexof m va) with
    | some other =>
      rw [hit] at found
      obtain ⟨npv,rfl,keyed⟩ := map_eq_some_iff.mp found
      obtain ⟨p,owner,rfl⟩ := map_eq_some_iff.mp keyed
      dsimp only
      rw [owner]
      have member : (p,npv.pvVa) ∈ v.pv pg := by
        rw [list]
        exact mem_of_find?_eq_some hit
      have page : npv.pvVa % nbpg = 0 := pv_aligned rep member
      exact (pmapRemove_sim rep page).bind (fun s v rep => ih rep)
    | none =>
      rw [hit] at found
      cases map_eq_none_iff.mp found
      dsimp only
      obtain ⟨same,ran,found⟩ := pvFind_list (fun e => e.is pmap va) (fun key => key == (pmap,va)) rep
        (fun e key keyed => by
          have exact := is_exact e pmap va
          rw [keyed,some.injEq] at exact
          rw [Bool.eq_iff_iff,exact,beq_iff_eq]) head
      rw [ran,ok_bind]
      rw [list] at found
      split_ifs with listed
      · have hit : ((key :: rest).find? (fun key => key == (pmap,va))).isSome :=
          find?_isSome.mpr ⟨_,listed,by simp⟩
        cases same with
        | some e => exact rep
        | none =>
          rw [map_none,eq_comm,map_eq_none_iff] at found
          rw [found] at hit
          cases hit
      have missed : (key :: rest).find? (fun key => key == (pmap,va)) = none := by
        rw [find?_eq_none]
        intro other member equal
        rw [beq_iff_eq] at equal
        exact listed (equal ▸ member)
      rw [missed,map_none,map_eq_none_iff] at found
      subst same
      have done := enter_behind pmap rep aligned head (s.pvHead pg).pvFlags
      rw [list,tail_cons] at done
      exact done

theorem pmapEnterPte_sim (npte : Word) (wired : Bool) (rep : Rep m tab s v) (points : Points tab pte pmap va)
    (aligned : va % nbpg = 0) :
    Simulates (fun r q => r.1 = q.1 ∧ Rep m tab r.2 q.2) (pmapEnterPte m pmap va w npte wired pte s)
      (v.enterPte m pmap va w npte wired) := by
  refine (getPmap_sim rep pmap).bind (fun p i held => ?_)
  obtain ⟨live,rfl⟩ := held
  dsimp only
  have counted : Rep m tab (if wired = true then s.setPmap pmap {p with wiredCount := p.wiredCount + 1} else s)
      (if wired = true then v.setInfo pmap {p.toInfo with wiredCount := p.wiredCount + 1} else v) := by
    cases wired with
    | false => exact rep
    | true => exact setPmap_rep rep live {p with wiredCount := p.wiredCount + 1} rfl
  revert counted
  generalize (if wired = true then s.setPmap pmap {p with wiredCount := p.wiredCount + 1} else s) = s₁
  generalize (if wired = true then v.setInfo pmap {p.toInfo with wiredCount := p.wiredCount + 1} else v) = v₁
  generalize (if wired = true then npte ||| avr32PteWired else npte) = npte₁
  intro counted
  have read := getPte_sim counted points
  by_cases range : InRange m va pmap
  · rw [if_pos range] at read ⊢
    obtain ⟨entry,got,rfl⟩ := read.backward rfl
    rw [got,ok_bind]
    have finish : ∀ s₂ v₂, Rep m tab s₂ v₂ → Simulates (fun r q => r.1 = q.1 ∧ Rep m tab r.2 q.2)
        (do
          let entry ← getPte m s₂ pte
          let p ← s₂.getPmap pmap
          .ok (npte₁,(if has entry avr32PteValid = false then
            s₂.setPmap pmap {p with residentCount := p.residentCount + 1} else s₂).setPte npte₁ pte))
        (do
          let i ← v₂.info pmap
          some (npte₁,(if has (v₂.pte pmap (va / nbpg)) avr32PteValid = false then
            v₂.setInfo pmap {i with residentCount := i.residentCount + 1} else v₂).setPte pmap (va / nbpg) npte₁)) := by
      intro s₂ v₂ rep₂
      have again := getPte_sim rep₂ points
      rw [if_pos range] at again
      obtain ⟨entry,got,rfl⟩ := again.backward rfl
      rw [got,ok_bind]
      refine (getPmap_sim rep₂ pmap).bind (fun p i held => ?_)
      obtain ⟨live,rfl⟩ := held
      refine ⟨rfl,?_⟩
      dsimp only
      cases valid : has (v₂.pte pmap (va / nbpg)) avr32PteValid with
      | true => exact setPte_rep rep₂ points range npte₁
      | false =>
        exact setPte_rep (setPmap_rep rep₂ live {p with residentCount := p.residentCount + 1} rfl) points range npte₁
    split
    · exact (pmapRemove_sim counted aligned).bind finish
    · exact finish s₁ v₁ counted
  rw [if_neg range] at read ⊢
  obtain ⟨e,failed⟩ := read.failed
  rw [failed]
  trivial

theorem newSegmap_rep (rep : Rep m tab s v) (owned : segtabOf s (.user n) = some t) (index : j < pmapSegtabsize)
    (missing : tab (.user n) j = none) :
    Rep m (update tab (.user n) (update (tab (.user n)) j (some s.nextPt)))
      {s with
        nextPt := s.nextPt + 1
        ptpage := update s.ptpage s.nextPt (fun _ => 0#32)
        segtab := update s.segtab t (update (s.segtab t) j (.ptes s.nextPt))}
      {v with seg := update v.seg (.user n) (update (v.seg (.user n)) j true)} := by
  obtain ⟨wf,rfl,rfl⟩ := rep
  generalize reached : ({s with
        nextPt := s.nextPt + 1
        ptpage := update s.ptpage s.nextPt (fun _ => 0#32)
        segtab := update s.segtab t (update (s.segtab t) j (.ptes s.nextPt))} : State) = s'
  have tables : segtabOf s' = segtabOf s := by subst s'; rfl
  have pages : segPage s' = update (segPage s) (.user n) (update (segPage s (.user n)) j (some s.nextPt)) := by
    funext q k
    by_cases mine : q = .user n
    · subst q
      rw [update_self]
      by_cases here : k = j
      · subst k
        rw [update_self]
        simp only [segPage,tables,owned,index,↓reduceIte]
        subst s'
        simp
      rw [update_of_ne here]
      simp only [segPage,tables,owned]
      subst s'
      simp [here]
    rw [update_of_ne mine]
    simp only [segPage,tables]
    cases other : segtabOf s q with
    | none => rfl
    | some t' =>
      have apart : t' ≠ t := by
        rintro rfl
        cases q with
        | kernel => rw [wf.kernel.2] at other; cases other
        | user k => exact mine (by rw [wf.tables k n t' other owned])
      subst s'
      simp [apart]
  have fresh : ∀ q k, segPage s q k ≠ some s.nextPt := by
    intro q k found
    exact lt_irrefl _ (wf.pagesBelow q k s.nextPt found)
  have cases : ∀ q k page, segPage s' q k = some page →
      (q = .user n ∧ k = j ∧ page = s.nextPt) ∨ (segPage s q k = some page ∧ page ≠ s.nextPt) := by
    intro q k page found
    rw [pages] at found
    by_cases mine : q = .user n
    · subst q
      rw [update_self] at found
      by_cases here : k = j
      · subst k
        rw [update_self,some.injEq] at found
        exact .inl ⟨rfl,rfl,found.symm⟩
      rw [update_of_ne here] at found
      exact .inr ⟨found,fun equal => fresh _ _ (equal ▸ found)⟩
    rw [update_of_ne mine] at found
    exact .inr ⟨found,fun equal => fresh _ _ (equal ▸ found)⟩
  have shape : Wf s' := by
    refine ⟨?_,?_,?_,?_,?_,?_,?_,?_,?_,?_,?_,?_,?_,?_⟩
    · rw [tables]; subst s'; exact wf.kernel
    · rw [tables]; subst s'; exact wf.owner
    · rw [tables]
      intro n' t' other
      have old := wf.table n' t' other
      refine ⟨by subst s'; exact old.1,?_⟩
      intro k below link
      subst s'
      by_cases equal : t' = t
      · subst t'
        by_cases here : k = j
        · subst k; simp
        · simpa [here] using old.2 k below link
      · simpa [equal] using old.2 k below link
    · rw [tables]; exact wf.tables
    · intro q q' k k' page one two
      rcases cases q k page one with ⟨rfl,rfl,rfl⟩ | ⟨one,old⟩
      · rcases cases q' k' _ two with ⟨rfl,rfl,_⟩ | ⟨_,old⟩
        · exact ⟨rfl,rfl⟩
        · exact absurd rfl old
      rcases cases q' k' page two with ⟨_,_,equal⟩ | ⟨two,_⟩
      · exact absurd equal old
      · exact wf.pages _ _ _ _ _ one two
    · intro q k page found
      have grown : s'.nextPt = s.nextPt + 1 := by subst s'; rfl
      rw [grown]
      rcases cases q k page found with ⟨_,_,rfl⟩ | ⟨old,_⟩
      · exact lt_succ_self _
      · exact lt_succ_of_lt (wf.pagesBelow q k page old)
    · obtain ⟨l,path,members⟩ := wf.free
      have apart : ∀ t' ∈ l, s'.segtab t' = s.segtab t' := by
        intro t' member
        have other : t' ≠ t := fun equal => (members t' member).2.1 n (equal ▸ owned)
        subst s'
        simp [other]
      refine ⟨l,?_,?_⟩
      · have start : s'.freeSegtab = s.freeSegtab := by subst s'; rfl
        rw [start]
        exact path.frame (fun t' member => by rw [apart t' member])
      intro t' member
      rw [tables,apart t' member]
      have bound : s'.nextSeg = s.nextSeg := by subst s'; rfl
      rw [bound]
      exact members t' member
    · rw [tables]; subst s'; exact wf.segbase
    all_goals subst s'
    · exact wf.chain
    · exact wf.nodeBelow
    · exact wf.nodeKeys
    · exact wf.headAligned
    · exact wf.headEmpty
    · exact wf.disjoint
  refine ⟨shape,?_,pages⟩
  apply Space.ext
  · subst s'; rfl
  · funext q k
    simp only [view,pages]
    by_cases mine : q = .user n
    · subst q
      by_cases here : k = j
      · subst k; simp
      · simp [here]
    · simp [mine]
  · funext q vpn
    cases q with
    | kernel => subst s'; rfl
    | user k =>
      simp only [view,pteAt]
      cases found : segPage s' (.user k) (vpn / nptepg) with
      | none =>
        rw [pages] at found
        by_cases mine : k = n
        · subst k
          by_cases here : vpn / nptepg = j
          · simp [here] at found
          simp only [update_self,update_of_ne here] at found
          simp [found]
        have other : PmapRef.user k ≠ .user n := by simpa using mine
        rw [update_of_ne other] at found
        simp [found]
      | some page =>
        rcases cases _ _ _ found with ⟨same,here,rfl⟩ | ⟨old,other⟩
        · cases same
          rw [here,missing]
          subst s'
          simp
        rw [old]
        subst s'
        simp [other]
  all_goals subst s'; rfl

theorem userEnter_sim (fuel : Nat) (rep : Rep m tab s v) (aligned : va % nbpg = 0) (below : va < vmMaxuserAddress)
    (found : tab (.user n) (va / nbseg) = some page) (npte w : Word) (wired : Bool) :
    Simulates (fun r q => r.1 = q.1 ∧ ∃ tab, Rep m tab r.2 q.2)
      (do
        let s ← pmapEnterPv m fuel (.user n) va pg s
        let (npte,s) ← pmapEnterPte m (.user n) va w npte wired (userPte page va) s
        let p ← s.getPmap (.user n)
        .ok ((0 : Int),if p.pmAsidgen = s.mmu.asidGeneration then
            s.setMmu (machTlbUpdate (tlbehiOf va p.pmAsid) npte s.mmu) else s))
      (do
        let v ← v.enterPv m fuel (.user n) va pg
        let (npte,v) ← v.enterPte m (.user n) va w npte wired
        let i ← v.info (.user n)
        some ((0 : Int),if i.pmAsidgen = v.mmu.asidGeneration then
          v.setMmu (machTlbUpdate (tlbehiOf va i.pmAsid) npte v.mmu) else v)) := by
  refine (pmapEnterPv_sim fuel rep aligned).bind (fun s₁ v₁ rep₁ => ?_)
  have points : Points tab (userPte page va) (.user n) va := ⟨below,page,found,rfl⟩
  refine (pmapEnterPte_sim npte wired rep₁ points aligned).bind (fun r q written => ?_)
  obtain ⟨npte₂,v₂⟩ := q
  obtain ⟨rfl,rep₂⟩ := written
  refine (getPmap_sim rep₂ (.user n)).bind (fun p i held => ?_)
  obtain ⟨live,rfl⟩ := held
  refine ⟨rfl,tab,?_⟩
  rw [← mmu_same rep₂]
  split
  · exact setMmu_rep rep₂ (update_cur _ _ _)
  · exact rep₂

theorem kernelEnter_sim (fuel : Nat) (rep : Rep m tab s v) (aligned : va % nbpg = 0) (npte w : Word) (wired : Bool) :
    Simulates (fun r q => r.1 = q.1 ∧ ∃ tab, Rep m tab r.2 q.2)
      (do
        let s ← pmapEnterPv m fuel .kernel va pg s
        let (npte,s) ← pmapEnterPte m .kernel va w npte wired (sysPte va) s
        let p ← s.getPmap .kernel
        .ok ((0 : Int),s.setMmu (machTlbUpdate (tlbehiOf va p.pmAsid) npte s.mmu)))
      (do
        let v ← v.enterPv m fuel .kernel va pg
        let (npte,v) ← v.enterPte m .kernel va w npte wired
        let i ← v.info .kernel
        some ((0 : Int),v.setMmu (machTlbUpdate (tlbehiOf va i.pmAsid) npte v.mmu))) := by
  refine (pmapEnterPv_sim fuel rep aligned).bind (fun s₁ v₁ rep₁ => ?_)
  have points : Points tab (sysPte va) .kernel va := rfl
  refine (pmapEnterPte_sim npte wired rep₁ points aligned).bind (fun r q written => ?_)
  obtain ⟨npte₂,v₂⟩ := q
  obtain ⟨rfl,rep₂⟩ := written
  refine (getPmap_sim rep₂ .kernel).bind (fun p i held => ?_)
  obtain ⟨live,rfl⟩ := held
  refine ⟨rfl,tab,?_⟩
  rw [← mmu_same rep₂]
  exact setMmu_rep rep₂ (update_cur _ _ _)

theorem pmapEnter_sim (fuel : Nat) (rep : Rep m tab s v) (aligned : va % nbpg = 0) :
    Simulates (fun r q => r.1 = q.1 ∧ ∃ tab, Rep m tab r.2 q.2) (pmapEnter m fuel pmap va pa prot flags mem s)
      (v.enter m fuel pmap va pa prot flags mem) := by
  unfold pmapEnter enter
  cases page : physToVmPage m pa with
  | none => trivial
  | some pg =>
    have attrs : s.attrs = v.attrs := congrArg attrs rep.2.1
    rw [attrs]
    have marked : Rep m tab {s with attrs := update v.attrs pg (enterAttrs flags (v.attrs pg))}
        {v with attrs := update v.attrs pg (enterAttrs flags (v.attrs pg))} := attrs_rep rep
    cases chosen : pteProt pmap prot with
    | error e => trivial
    | ok code =>
      simp only [Except.toOption,ok_bind,some_bind]
      cases pmap with
      | kernel =>
        exact kernelEnter_sim fuel marked aligned _ _ _
      | user n =>
        simp only [reduceCtorEq,↓reduceIte]
        by_cases above : vmMaxuserAddress ≤ va
        · simp [above,Simulates]
        simp only [above,↓reduceIte]
        have below : va < vmMaxuserAddress := Nat.lt_of_not_le above
        have lookup := segmap_sim marked n va
        cases info : v.info (.user n) with
        | none =>
          simp only [info,isSome_none,Bool.false_eq_true,false_and,↓reduceIte] at lookup
          obtain ⟨e,failed⟩ := lookup.failed
          rw [failed]
          trivial
        | some i =>
          simp only [info,isSome_some,below,and_self,↓reduceIte] at lookup
          obtain ⟨found,ran,rfl⟩ := lookup.backward rfl
          rw [ran,ok_bind,some_bind]
          have seg : v.seg (.user n) (va / nbseg) = (tab (.user n) (va / nbseg)).isSome := by
            obtain ⟨_,rfl,rfl⟩ := rep
            rfl
          cases backed : tab (.user n) (va / nbseg) with
          | some page =>
            rw [backed] at seg
            have same : update v.seg (.user n) (update (v.seg (.user n)) (va / nbseg) true) = v.seg := by
              have inner : update (v.seg (.user n)) (va / nbseg) true = v.seg (.user n) := by
                rw [show true = v.seg (.user n) (va / nbseg) from seg.symm]
                exact update_eq_self _ _
              rw [inner]
              exact update_eq_self _ _
            simp only [seg,isSome_some,same,reduceCtorEq,Bool.true_eq_false,false_and,↓reduceIte]
            exact userEnter_sim fuel marked aligned below backed _ _ _
          | none =>
            rw [backed] at seg
            simp only [seg,isSome_none,true_and]
            cases mem with
            | false =>
              simp only [↓reduceIte]
              split
              · exact ⟨rfl,tab,marked⟩
              · trivial
            | true =>
              simp only [Bool.true_eq_false,↓reduceIte]
              obtain ⟨p,held,live,rfl⟩ := (getPmap_sim marked (.user n)).backward info
              obtain ⟨_,t,owned⟩ := marked.1.owner n (by rw [live]; rfl)
              have table : p.pmSegtab = some t := by
                rw [segtabOf,live] at owned
                exact owned
              have index : va / nbseg < pmapSegtabsize := by
                simp only [nbseg,pmapSegtabsize,vmMaxuserAddress] at *
                omega
              have grown := newSegmap_rep marked owned index backed
              rw [held,ok_bind,table]
              exact userEnter_sim fuel grown aligned below (by simp) _ _ _
end NetbsdAvr32.Avr32
