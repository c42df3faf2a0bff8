import NetbsdAvr32.PmapSteps

-- When pmap_enter_pv comes to an end.
namespace NetbsdAvr32.Avr32
open Function Outcome Relation PmapRef
variable {m : Machine} {s s' : State} {v v' v₁ : Space} {pmap : PmapRef} {n va vpn pa pg kva rolls fuel : Nat} {i : Info} {key : PmapRef × Nat}

structure Backed (m : Machine) (v : Space) : Prop where
  listed : Listed m v
  live : ∀ n vpn, v.pte (.user n) vpn ≠ 0#32 → (v.info (.user n)).isSome ∧ vpn * nbpg < vmMaxuserAddress

theorem view_backed (wf : Wf s) (ledger : Ledger m (view m s)) : Backed m (view m s) := by
  refine ⟨ledger.listed,fun n vpn some => ?_⟩
  obtain ⟨page,p,_,held,below⟩ := pte_backed (m := m) some
  exact ⟨by simp [view,held],below⟩

theorem Backed.evict (backed : Backed m v) (info : v.info (.user n) = some i) (aligned : va % nbpg = 0) : Backed m (v.evict m (.user n) va i) := by
  refine ⟨evict_listed backed.listed aligned,fun n' vpn some => ?_⟩
  have old : v.pte (.user n') vpn ≠ 0#32 := by
    intro zero
    apply some
    rw [Space.evict,unmapped_pte]
    by_cases mine : n' = n
    · subst n'
      rw [update_self]
      by_cases here : vpn = va / nbpg
      · rw [here,update_self]
      · rwa [update_of_ne here]
    · rwa [update_of_ne (by simpa using mine)]
  obtain ⟨live,below⟩ := backed.live n' vpn old
  refine ⟨?_,below⟩
  rw [Space.evict,unmapped_info (.user n') info]
  exact live

theorem evict_length (backed : Backed m v) (member : (user n,vpn * nbpg) ∈ v.pv pg) :
    ∃ i, v.info (.user n) = some i ∧ v.remove m (.user n) (vpn * nbpg) (vpn * nbpg + nbpg) = some (v.evict m (.user n) (vpn * nbpg) i) ∧
      ((v.evict m (.user n) (vpn * nbpg) i).pv pg).length + 1 = (v.pv pg).length ∧ (v.evict m (.user n) (vpn * nbpg) i).pv pg = (v.pv pg).erase (.user n,vpn * nbpg) := by
  have maps := (backed.listed.user pg n vpn).mp member
  have index : vpn * nbpg / nbpg = vpn := Nat.mul_div_cancel _ (by decide)
  have some : v.pte (.user n) vpn ≠ 0#32 := by
    intro zero
    rw [zero] at maps
    exact not_maps (has_zero _) maps
  obtain ⟨live,below⟩ := backed.live n vpn some
  obtain ⟨i,info⟩ := Option.isSome_iff_exists.mp live
  have list : (v.evict m (.user n) (vpn * nbpg) i).pv pg = (v.pv pg).erase (.user n,vpn * nbpg) := by
    rw [Space.evict,unmapped_pv,index,maps.2]
    exact update_self ..
  refine ⟨i,info,removeOne_valid info below (by rw [index]; exact maps.1),?_,list⟩
  rw [list]
  exact List.length_erase_add_one member

theorem enterPv_returns (pmap : PmapRef) (backed : Backed m v) (only : ∀ key ∈ v.pv pg, key.1 = .kernel ∨ ∃ n vpn, key = (user n,vpn * nbpg))
    (plain : ∀ kva, (kernel,kva) ∈ v.pv pg → avr32CacheIndexof m kva = avr32CacheIndexof m va) (length : (v.pv pg).length < fuel) :
    ∃ v', v.enterPv m fuel pmap va pg = some v' := by
  induction fuel generalizing v with
  | zero => exact absurd length (Nat.not_lt_zero _)
  | succ fuel ih =>
    unfold Space.enterPv
    cases list : v.pv pg with
    | nil => exact ⟨_,rfl⟩
    | cons head rest =>
      dsimp only
      cases found : (head :: rest).find? (fun key => avr32CacheIndexof m key.2 != avr32CacheIndexof m va) with
      | none =>
        dsimp only
        split
        · exact ⟨_,rfl⟩
        · exact ⟨_,rfl⟩
      | some key =>
        have member : key ∈ v.pv pg := by
          rw [list]
          exact List.mem_of_find?_eq_some found
        have clash : avr32CacheIndexof m key.2 ≠ avr32CacheIndexof m va := by simpa using List.find?_some found
        rcases only key member with kernel | ⟨n,vpn,rfl⟩
        · obtain ⟨pmap',kva⟩ := key
          cases kernel
          exact absurd (plain kva member) clash
        obtain ⟨i,info,removed,shorter,erased⟩ := evict_length backed member
        dsimp only
        rw [removed,some_bind]
        refine ih (backed.evict info (Nat.mul_mod_left ..)) (fun key kept => only key ?_) (fun kva kept => plain kva ?_) (by omega)
        · rw [erased] at kept
          exact List.mem_of_mem_erase kept
        rw [erased] at kept
        exact List.mem_of_mem_erase kept

theorem evicts_idle (idle : KernelIdle v) (steps : ReflTransGen (Evicts m va pg) v v') :
    KernelIdle v' ∧ ∀ kva, (kernel,kva) ∈ v.pv pg → (kernel,kva) ∈ v'.pv pg := by
  induction steps with
  | refl => exact ⟨idle,fun _ kept => kept⟩
  | tail _ last ih =>
    obtain ⟨idle₁,kept₁⟩ := ih
    have change : Change m False _ _ := evicts_change last
    refine ⟨idle₁.change change,fun kva kept => ?_⟩
    obtain ⟨⟨pmap,addr⟩,i,_,_,_,_,_,valid,_,rfl⟩ := last
    refine evict_listed_else (kept₁ kva kept) ?_
    intro equal
    cases equal
    rw [idle₁] at valid
    cases valid

theorem insert_colours {l : List (PmapRef × Nat)} (colours : ∀ key ∈ l, avr32CacheIndexof m key.2 = avr32CacheIndexof m va) :
    ∀ key ∈ insertPv (pmap,va) l, avr32CacheIndexof m key.2 = avr32CacheIndexof m va := by
  intro key member
  rcases insert_sub member with rfl | old
  · rfl
  · exact colours key old

theorem enterPv_exact (idle : KernelIdle v) (sound : Sound v) (backed : Backed m v)
    (only : ∀ key ∈ v.pv pg, key.1 = .kernel ∨ ∃ n vpn, key = (user n,vpn * nbpg)) :
    (∃ fuel v', v.enterPv m fuel pmap va pg = some v' ∧ ∀ key ∈ v'.pv pg, avr32CacheIndexof m key.2 = avr32CacheIndexof m va) ↔
      ∀ kva, (kernel,kva) ∈ v.pv pg → avr32CacheIndexof m kva = avr32CacheIndexof m va := by
  constructor
  · rintro ⟨fuel,v',ran,_⟩ kva member
    obtain ⟨v₁,steps,_,colours,_⟩ := enterPv_parts fuel sound ran
    exact colours _ ((evicts_idle idle steps).2 kva member)
  intro plain
  obtain ⟨v',ran⟩ := enterPv_returns pmap backed only plain (Nat.lt_succ_self _)
  obtain ⟨v₁,_,_,colours,rfl⟩ := enterPv_parts _ sound ran
  refine ⟨_,_,ran,?_⟩
  dsimp only
  rw [update_self]
  exact insert_colours colours

theorem user_or_kernel (sound : Sound v) : ∀ key ∈ v.pv pg, key.1 = .kernel ∨ ∃ n vpn, key = (user n,vpn * nbpg) := by
  rintro ⟨pmap,va⟩ member
  cases pmap with
  | kernel => exact .inl rfl
  | user n =>
    have aligned : va % nbpg = 0 := sound.aligned pg _ member
    exact .inr ⟨n,va / nbpg,by rw [Nat.div_mul_cancel (Nat.dvd_of_mod_eq_zero aligned)]⟩

theorem enter_pv_ends (run : Run m (Soft m) rolls s) (pmap : PmapRef) (aligned : va % nbpg = 0) :
    (∃ fuel s', pmapEnterPv m fuel pmap va pg s = .ok s' ∧ ∀ key ∈ pvList s' pg, avr32CacheIndexof m key.2 = avr32CacheIndexof m va) ↔
      ∀ kva, (PmapRef.kernel,kva) ∈ pvList s pg → avr32CacheIndexof m kva = avr32CacheIndexof m va := by
  have wf := reached_wf (soft_allowed run)
  have ledger := run_ledger (soft_allowed run)
  have sound := view_sound (m := m) wf
  have rep := wf.rep m
  have only : ∀ key ∈ (view m s).pv pg, key.1 = .kernel ∨ ∃ n vpn, key = (user n,vpn * nbpg) := user_or_kernel sound
  have abstract : (∃ fuel v', (view m s).enterPv m fuel pmap va pg = some v' ∧
      ∀ key ∈ v'.pv pg, avr32CacheIndexof m key.2 = avr32CacheIndexof m va) ↔
      ∀ kva, (kernel,kva) ∈ (view m s).pv pg → avr32CacheIndexof m kva = avr32CacheIndexof m va :=
    enterPv_exact (run_idle run) sound (view_backed wf ledger) only
  refine Iff.trans ⟨?_,?_⟩ abstract
  · rintro ⟨fuel,s',ran,colours⟩
    obtain ⟨v',got,_,same,_⟩ := (pmapEnterPv_sim fuel rep aligned).forward ran
    subst same
    exact ⟨fuel,_,got,colours⟩
  rintro ⟨fuel,v',got,colours⟩
  obtain ⟨s',ran,_,same,_⟩ := (pmapEnterPv_sim fuel rep aligned).backward got
  subst same
  exact ⟨fuel,s',ran,colours⟩

-- The data cache has two colours. A page is mapped by a process at one address
-- and about to be mapped by another at an address of the other colour.
def aliasMachine : Machine := {kernelMachine with cacheAliasMask := 0x1000}
def aliasPage : State := afterOp aliasMachine 1 (afterOp aliasMachine 1 initial .create) (.enter (.user 0) 0x1000 0x1000 3 0 true)

theorem enter_pv_ends_alias : ∃ fuel s', pmapEnterPv aliasMachine fuel (.user 0) 0x2000 1 aliasPage = .ok s' ∧
    ∀ key ∈ pvList s' 1, avr32CacheIndexof aliasMachine key.2 = avr32CacheIndexof aliasMachine 0x2000 := by
  have created : Run aliasMachine (Soft aliasMachine) _ (afterOp aliasMachine 1 initial .create) := run_next 1 .create .start ⟨trivial,nofun⟩ rfl
  have entered : Run aliasMachine (Soft aliasMachine) _ aliasPage := run_next 1 (.enter (.user 0) 0x1000 0x1000 3 0 true) created ⟨⟨rfl,rfl⟩,nofun⟩ rfl
  have list : pvList aliasPage 1 = [(.user 0,0x1000)] := by decide
  refine (enter_pv_ends entered (.user 0) rfl).mpr fun kva member => ?_
  rw [list] at member
  simp at member

-- The kernel maps the page at an address of the other colour. Its PTE is not
-- AVR32_PTE_VALID, pmap_remove leaves the entry, and the loop starts over.
def aliasKernel : State := afterOp aliasMachine 1 (afterOp aliasMachine 1 initial .create) (.enter .kernel 0xC0000000 0x1000 3 0 true)

theorem aliasKernel_kept : pmapRemove aliasMachine .kernel 0xC0000000 (0xC0000000 + nbpg) aliasKernel = .ok aliasKernel := by
  have body : pmapRemovePte aliasMachine .kernel 0xC0000000 0 true (sysPte 0xC0000000) aliasKernel = .ok aliasKernel := by
    have got : getPte aliasMachine aliasKernel (sysPte 0xC0000000) = .ok (aliasKernel.sysmap 0) := rfl
    have invalid : has (aliasKernel.sysmap 0) avr32PteValid = false := by decide
    unfold pmapRemovePte
    rw [got,ok_bind,if_pos invalid]
  have rounds : pteRounds 0xC0000000 (0xC0000000 + nbpg) = 2 := by decide
  unfold pmapRemove
  rw [if_pos rfl,rounds]
  unfold eachPte
  rw [if_pos (by decide),body,ok_bind]
  unfold eachPte
  rfl

theorem enter_pv_loops : (∃ rolls, Run aliasMachine (Soft aliasMachine) rolls aliasKernel) ∧
    ∀ fuel, pmapEnterPv aliasMachine fuel (.user 0) 0x1000 1 aliasKernel = .error .fuel := by
  constructor
  · have created : Run aliasMachine (Soft aliasMachine) _ (afterOp aliasMachine 1 initial .create) := run_next 1 .create .start ⟨trivial,(by simp)⟩ rfl
    exact ⟨_,run_next 1 (.enter .kernel 0xC0000000 0x1000 3 0 true) created ⟨⟨rfl,rfl⟩,(by simp)⟩ rfl⟩
  intro fuel
  induction fuel with
  | zero => rfl
  | succ fuel ih =>
    have head : aliasKernel.pvHead 1 = ⟨none,some .kernel,0xC0000000,0⟩ := rfl
    have found : pvFind aliasKernel (fun e => avr32CacheIndexof aliasMachine e.pvVa != avr32CacheIndexof aliasMachine 0x1000) (aliasKernel.nextPv + 2) (.header 1) =
        .ok (some ⟨none,some .kernel,0xC0000000,0⟩) := rfl
    unfold pmapEnterPv
    rw [head,if_neg (by simp),found,ok_bind]
    dsimp only
    rw [aliasKernel_kept,ok_bind,ih]
end NetbsdAvr32.Avr32
