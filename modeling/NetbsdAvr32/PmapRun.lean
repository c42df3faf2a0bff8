import NetbsdAvr32.PmapParts

namespace NetbsdAvr32.Avr32
open Function Outcome Relation Option PmapRef List
variable {m : Machine} {s s' : State} {v v' : Space} {pmap : PmapRef} {n va pa pg sva eva asid : Nat} {flush : Bool}
  {i : Info} {key : PmapRef × Nat} {again : Prop}

-- What a user-level operation can do to the abstract module in one go. `again`:
-- pmap_enter may meet its own page wired at the address.
inductive Micro (m : Machine) (again : Prop) : Space → Space → Prop
  | unmap (v : Space) (n va : Nat) (i : Info) (info : v.info (.user n) = some i) (aligned : va % nbpg = 0)
      (below : va < vmMaxuserAddress) (valid : has (v.pte (.user n) (va / nbpg)) avr32PteValid = true) :
      Micro m again v (v.evict m (.user n) va i)
  | reprotect (v : Space) (n va : Nat) (i : Info) (prot code : Word) (info : v.info (.user n) = some i)
      (aligned : va % nbpg = 0) (below : va < vmMaxuserAddress)
      (valid : has (v.pte (.user n) (va / nbpg)) avr32PteValid = true) (chosen : pteProt (.user n) prot = .ok code) :
      Micro m again v (v.store n va i (reprotected code (v.pte (.user n) (va / nbpg))))
  | mark (v : Space) (pg : Nat) (bits : Word) :
      Micro m again v {v with attrs := update v.attrs pg (v.attrs pg ||| bits)}
  | segment (v : Space) (seg : PmapRef → Nat → Bool) : Micro m again v {v with seg := seg}
  | map (v : Space) (n va pa pg : Nat) (i : Info) (prot code : Word) (wired : Bool) (info : v.info (.user n) = some i)
      (alignedVa : va % nbpg = 0) (below : va < vmMaxuserAddress) (alignedPa : pa % nbpg = 0)
      (page : physToVmPage m pa = some pg) (chosen : pteProt (.user n) prot = .ok code)
      (old : has (v.pte (.user n) (va / nbpg)) avr32PteValid = false ∨
        avr32TlbpfnToPaddr (v.pte (.user n) (va / nbpg)) = BitVec.ofNat 32 pa)
      (colours : ∀ key ∈ v.pv pg, avr32CacheIndexof m key.2 = avr32CacheIndexof m va)
      (once : again ∨ (has (v.pte (.user n) (va / nbpg)) avr32PteValid = true →
        has (v.pte (.user n) (va / nbpg)) avr32PteWired = false)) :
      Micro m again v (v.mapped n va pg i (userWord code prot (v.attrs pg) pa wired) wired)
  | create (v : Space) : Micro m again v v.create
  | count (v : Space) (pmap : PmapRef) (i : Info) (c : Int) (info : v.info pmap = some i) :
      Micro m again v (v.setInfo pmap {i with pmCount := c})
  | free (v : Space) (n : Nat) (idle : v.mmu.cur ≠ .user n)
      (empty : ∀ vpn, has (v.pte (.user n) vpn) avr32PteValid = false) :
      Micro m again v {v with
        info := update v.info (.user n) none
        seg := update v.seg (.user n) (fun _ => false)
        pte := update v.pte (.user n) (fun _ => 0#32)}
  | load (v : Space) (n va : Nat) (i : Info) (cur : v.mmu.cur = .user n) (info : v.info (.user n) = some i)
      (below : va < vmMaxuserAddress) (some : v.pte (.user n) (va / nbpg) ≠ 0#32) :
      Micro m again v
        (v.setMmu (machTlbUpdate (tlbehiOf va v.mmu.tlbAsid) (v.pte (.user n) (va / nbpg)) v.mmu))
  | modify (v : Space) (n va pg : Nat) (i : Info) (cur : v.mmu.cur = .user n) (info : v.info (.user n) = some i)
      (below : va < vmMaxuserAddress) (valid : has (v.pte (.user n) (va / nbpg)) avr32PteValid = true)
      (writable : avr32ReadOnlyPte (v.pte (.user n) (va / nbpg)) = false)
      (frame : (avr32TlbpfnToPaddr (v.pte (.user n) (va / nbpg) ||| avr32PgDirty)).toNat / nbpg = pg) :
      Micro m again v {v.setPte (.user n) (va / nbpg) (v.pte (.user n) (va / nbpg) ||| avr32PgDirty) with
        mmu := machTlbUpdate (tlbehiOf va i.pmAsid) (v.pte (.user n) (va / nbpg) ||| avr32PgDirty) v.mmu
        attrs := update v.attrs pg (v.attrs pg ||| (pvModified ||| pvReferenced))}

theorem update_gen (tlbehi tlbelo : Word) (u : Mmu) :
    (machTlbUpdate tlbehi tlbelo u).asidGeneration = u.asidGeneration := by
  unfold machTlbUpdate
  split <;> rfl

theorem fold_steps {R : Space → Space → Prop} {P : Space → Prop} {body : Space → Nat → Option Space}
    (one : ∀ v v' va, P v → va % nbpg = 0 → body v va = some v' → ReflTransGen R v v' ∧ P v')
    (k : Nat) (aligned : sva % nbpg = 0) (start : P v) (ran : (pageList sva k).foldlM body v = some v') :
    ReflTransGen R v v' := by
  induction k generalizing sva v with
  | zero => cases ran; exact .refl
  | succ k ih =>
    obtain ⟨v₁,first,rest⟩ := bind_some ran
    obtain ⟨steps,holds⟩ := one v v₁ sva start aligned first
    have next : (sva + nbpg) % nbpg = 0 := by rw [Nat.add_mod_right]; exact aligned
    exact steps.trans (ih next holds rest)

def Tagged (n asid : Nat) (flush : Bool) (v : Space) : Prop :=
  ∃ i, v.info (.user n) = some i ∧ i.pmAsid = asid ∧ (i.pmAsidgen == v.mmu.asidGeneration) = flush

theorem remove_micro (aligned : sva % nbpg = 0) (ran : v.remove m (.user n) sva eva = some v') :
    ReflTransGen (Micro m again) v v' := by
  unfold Space.remove at ran
  obtain ⟨i,info,ran⟩ := bind_some ran
  refine fold_steps (P := Tagged n i.pmAsid (i.pmAsidgen == v.mmu.asidGeneration)) ?_ _ aligned ⟨i,info,rfl,rfl⟩ ran
  intro v₁ v₂ va tagged page one
  obtain ⟨j,info₁,asid,flush⟩ := tagged
  have inside := unmapPte_inside one
  unfold Space.unmapPte at one
  rw [if_pos inside] at one
  cases valid : has (v₁.pte (.user n) (va / nbpg)) avr32PteValid with
  | false =>
    simp only [valid,↓reduceIte,some.injEq] at one
    subst v₂
    exact ⟨.refl,j,info₁,asid,flush⟩
  | true =>
    simp only [valid,Bool.true_eq_false,↓reduceIte,info₁,map_some,some.injEq] at one
    have same : v₂ = v₁.evict m (.user n) va j := by
      rw [← one,Space.evict,flushAsid,needFlush,← asid,← flush]
      simp
    rw [same]
    refine ⟨.single (.unmap v₁ n va j info₁ page inside valid),j.unmapped (v₁.pte (.user n) (va / nbpg)),?_,asid,?_⟩
    · rw [Space.evict,unmapped_info_eq,update_self]
    rw [Space.evict,unmapped_mmu,← flush]
    split <;> rfl

theorem protect_micro (aligned : sva % nbpg = 0) (ran : v.protect m (.user n) sva eva prot = some v') :
    ReflTransGen (Micro m again) v v' := by
  unfold Space.protect at ran
  split at ran
  · cases ran
  split at ran
  · exact remove_micro aligned ran
  obtain ⟨code,chosen,ran⟩ := bind_some ran
  have code' : pteProt (.user n) prot = .ok code := by
    cases got : pteProt (.user n) prot with
    | error e => rw [got] at chosen; cases chosen
    | ok c => rw [got] at chosen; cases chosen; rfl
  obtain ⟨i,info,ran⟩ := bind_some ran
  simp only [reduceCtorEq,↓reduceIte] at ran
  split at ran
  · cases ran
  split at ran
  · cases ran
  refine fold_steps (P := Tagged n i.pmAsid (i.pmAsidgen == v.mmu.asidGeneration)) ?_ _ aligned
    ⟨i,info,rfl,rfl⟩ ran
  intro v₁ v₂ va tagged page one
  obtain ⟨j,info₁,asid,flush⟩ := tagged
  have inside := protectPte_inside one
  unfold Space.protectPte at one
  rw [if_pos inside] at one
  cases valid : has (v₁.pte (.user n) (va / nbpg)) avr32PteValid with
  | false =>
    simp only [valid,↓reduceIte,some.injEq] at one
    subst v₂
    exact ⟨.refl,j,info₁,asid,flush⟩
  | true =>
    simp only [valid,Bool.true_eq_false,↓reduceIte,some.injEq] at one
    have same : v₂ = v₁.store n va j (reprotected code (v₁.pte (.user n) (va / nbpg))) := by
      rw [← one,← asid,← flush]
      unfold Space.store
      by_cases current : j.pmAsidgen = v₁.mmu.asidGeneration
      · simp only [current,beq_self_eq_true,↓reduceIte]; rfl
      have no : (j.pmAsidgen == v₁.mmu.asidGeneration) = false := by simpa using current
      simp only [no,Bool.false_eq_true,current,↓reduceIte]
      rfl
    rw [same]
    refine ⟨.single (.reprotect v₁ n va j prot code info₁ page inside valid code'),j,info₁,asid,?_⟩
    rw [← flush]
    unfold Space.store
    split
    · rw [update_gen]
    · rfl


def KernelEmpty (v : Space) : Prop := ∀ vpn, v.pte .kernel vpn = 0#32
theorem kernel_ne (n : Nat) : kernel ≠ .user n := by simp

theorem micro_kernelPte (step : Micro m again v v') : v'.pte .kernel = v.pte .kernel := by
  funext vpn
  cases step with
  | unmap n va i => rw [Space.evict,unmapped_pte,update_of_ne (kernel_ne n)]
  | reprotect => rw [store_pte,update_of_ne (kernel_ne _)]
  | map => rw [mapped_pte,update_of_ne (kernel_ne _)]
  | free => simp
  | modify => simp [Space.setPte]
  | _ => rfl

theorem micro_kernel (quiet : KernelEmpty v) (step : Micro m again v v') : KernelEmpty v' := by
  intro vpn
  rw [micro_kernelPte step]
  exact quiet vpn

theorem micros_kernel (quiet : KernelEmpty v) (steps : ReflTransGen (Micro m again) v v') : KernelEmpty v' := by
  induction steps with
  | refl => exact quiet
  | tail _ last ih => exact micro_kernel ih last

theorem evicts_micro (quiet : KernelEmpty v) (step : Evicts m va pg v v') : Micro m again v v' := by
  obtain ⟨⟨pmap,addr⟩,i,_,info,aligned,range,_,valid,_,rfl⟩ := step
  cases pmap with
  | kernel =>
    rw [quiet,has_zero] at valid
    cases valid
  | user n => exact .unmap v n addr i info aligned range valid

theorem evicts_frame (pmap : PmapRef) (steps : ReflTransGen (Evicts m va pg) v v') (aligned : va % nbpg = 0) :
    v'.pte pmap (va / nbpg) = v.pte pmap (va / nbpg) ∧ v'.attrs = v.attrs := by
  induction steps with
  | refl => exact ⟨rfl,rfl⟩
  | tail _ last ih =>
    obtain ⟨⟨other,addr⟩,i,_,_,page,_,clash,_,_,rfl⟩ := last
    rw [Space.evict,unmapped_pte,unmapped_attrs]
    refine ⟨?_,ih.2⟩
    rw [← ih.1]
    have apart : va / nbpg ≠ addr / nbpg := by
      intro equal
      have same : addr = va := by simp only [nbpg] at *; omega
      exact clash (by rw [same])
    by_cases mine : pmap = other
    · subst pmap
      rw [update_self,update_of_ne apart]
    · rw [update_of_ne mine]

theorem evicts_micros (quiet : KernelEmpty v) (steps : ReflTransGen (Evicts m va pg) v v') :
    ReflTransGen (Micro m again) v v' := by
  induction steps with
  | refl => exact .refl
  | tail _ last ih => exact ih.tail (evicts_micro (micros_kernel quiet ih) last)

theorem enterAttrs_grow (flags attrs : Word) : ∃ bits, enterAttrs flags attrs = attrs ||| bits := by
  unfold enterAttrs
  split
  · exact ⟨_,rfl⟩
  split
  · exact ⟨_,rfl⟩
  · exact ⟨0#32,by simp⟩

theorem enter_steps {R : Space → Space → Prop} (micro : ∀ v v', Micro m again v v' → R v v')
    (evicts : ∀ pg v₀ v₁, v₀.pte = v.pte → ReflTransGen (Evicts m va pg) v₀ v₁ → ReflTransGen R v₀ v₁)
    (sound : Sound v) (alignedVa : va % nbpg = 0) (alignedPa : pa % nbpg = 0)
    (once : again ∨ ¬ (has (v.pte (.user n) (va / nbpg)) avr32PteValid = true ∧
      has (v.pte (.user n) (va / nbpg)) avr32PteWired = true ∧
      avr32TlbpfnToPaddr (v.pte (.user n) (va / nbpg)) = BitVec.ofNat 32 pa))
    (ran : v.enter m fuel (.user n) va pa prot flags mem = some (r,v')) : ReflTransGen R v v' := by
  obtain ⟨pg,code,page,chosen,outcome⟩ := enter_parts sound alignedVa alignedPa ran
  obtain ⟨bits,grown⟩ := enterAttrs_grow flags (v.attrs pg)
  have marked : R v {v with attrs := update v.attrs pg (enterAttrs flags (v.attrs pg))} := by
    rw [grown]
    exact micro _ _ (.mark v pg bits)
  rcases outcome with ⟨_,rfl⟩ | ⟨_,below,seg,v₁,v₂,i,steps,colours,replaced,info,rfl⟩
  · exact .single marked
  have allocated : R {v with attrs := update v.attrs pg (enterAttrs flags (v.attrs pg))}
      {v with attrs := update v.attrs pg (enterAttrs flags (v.attrs pg)), seg := seg} := micro _ _ (.segment _ seg)
  obtain ⟨word,attrs⟩ := evicts_frame (.user n) steps alignedVa
  dsimp only at word attrs
  have before : ReflTransGen R v v₁ := .head marked (.head allocated (evicts pg _ _ rfl steps))
  rcases replaced with ⟨rfl,old⟩ | ⟨j,info₁,valid,other,rfl⟩
  · have now : v₂.attrs pg = enterAttrs flags (v.attrs pg) := by rw [attrs,update_self]
    rw [← now]
    refine before.tail (micro _ _ (.map v₂ n va pa pg i prot code _ info alignedVa below alignedPa page chosen old colours ?_))
    rcases once with yes | fresh
    · exact .inl yes
    refine .inr (fun valid => ?_)
    rcases old with invalid | same
    · rw [valid] at invalid; cases invalid
    rw [word] at valid same ⊢
    by_contra wired
    exact fresh ⟨valid,by simpa using wired,same⟩
  have now : (v₁.evict m (.user n) va j).attrs pg = enterAttrs flags (v.attrs pg) := by
    rw [Space.evict,unmapped_attrs,attrs,update_self]
  have gone : has ((v₁.evict m (.user n) va j).pte (.user n) (va / nbpg)) avr32PteValid = false := by
    rw [Space.evict,unmapped_pte,update_self,update_self]
    exact has_zero _
  have colours₂ : ∀ key ∈ (v₁.evict m (.user n) va j).pv pg,
      avr32CacheIndexof m key.2 = avr32CacheIndexof m va := by
    intro key member
    refine colours key ?_
    rw [Space.evict,unmapped_pv] at member
    cases found : physToVmPage m (avr32TlbpfnToPaddr (v₁.pte (.user n) (va / nbpg))).toNat with
    | none => rwa [found] at member
    | some pg' =>
      have apart := other_page page alignedPa other found
      rw [found] at member
      dsimp only at member
      rwa [update_of_ne (Ne.symm apart)] at member
  rw [← now]
  refine (before.tail (micro _ _ (.unmap v₁ n va j info₁ alignedVa below valid))).tail (micro _ _ (.map _ n va pa pg i prot code
    _ info alignedVa below alignedPa page chosen (.inl gone) colours₂ (.inr (fun valid => ?_))))
  rw [gone] at valid
  cases valid

theorem enter_micro (sound : Sound v) (quiet : KernelEmpty v) (alignedVa : va % nbpg = 0) (alignedPa : pa % nbpg = 0)
    (once : again ∨ ¬ (has (v.pte (.user n) (va / nbpg)) avr32PteValid = true ∧
      has (v.pte (.user n) (va / nbpg)) avr32PteWired = true ∧
      avr32TlbpfnToPaddr (v.pte (.user n) (va / nbpg)) = BitVec.ofNat 32 pa))
    (ran : v.enter m fuel (.user n) va pa prot flags mem = some (r,v')) : ReflTransGen (Micro m again) v v' := by
  refine enter_steps (fun _ _ step => step) (fun pg v₀ v₁ same steps => evicts_micros ?_ steps) sound alignedVa alignedPa once ran
  intro vpn
  rw [same]
  exact quiet vpn

-- What the callers of the module promise: page-aligned addresses, and that a
-- pmap that goes away has no mapping left and is not the one in use.
def Allowed (m : Machine) (s : State) : Op → Prop
  | .destroy pmap => pmap ≠ .kernel ∧ ∀ p, s.pmaps pmap = some p → p.pmCount - 1 ≤ 0 →
      s.mmu.cur ≠ pmap ∧ ∀ vpn, has (pteAt m s pmap vpn) avr32PteValid = false
  | .enter _ va pa _ _ _ => va % nbpg = 0 ∧ pa % nbpg = 0
  | .remove _ sva _ => sva % nbpg = 0
  | .protect _ sva _ _ => sva % nbpg = 0
  | _ => True

def UserOp : Op → Prop
  | .create => True
  | .activate _ => True
  | .tlbMiss _ => True
  | .tlbMod _ => True
  | .reference pmap => pmap ≠ .kernel
  | .destroy pmap => pmap ≠ .kernel
  | .enter pmap _ _ _ _ _ => pmap ≠ .kernel
  | .remove pmap _ _ => pmap ≠ .kernel
  | .protect pmap _ _ _ => pmap ≠ .kernel
  | _ => False

-- pmap_enter of the page that is already mapped at the address, and wired there.
def Rewires (m : Machine) (s : State) : Op → Prop
  | .enter pmap va pa _ _ _ => has (pteAt m s pmap (va / nbpg)) avr32PteValid = true ∧
      has (pteAt m s pmap (va / nbpg)) avr32PteWired = true ∧
      avr32TlbpfnToPaddr (pteAt m s pmap (va / nbpg)) = BitVec.ofNat 32 pa
  | _ => False

def Effect (m : Machine) (again : Prop) (op : Op) (v v' : Space) : Prop :=
  match op with
  | .activate pmap => ∃ i, v.info pmap = some i ∧ v' = v.activated pmap i
  | _ => ReflTransGen (Micro m again) v v'

theorem effect_cases (effect : Effect m again op v v') : ReflTransGen (Micro m again) v v' ∨
    ∃ pmap i, op = .activate pmap ∧ v.info pmap = some i ∧ v' = v.activated pmap i := by
  cases op with
  | activate pmap =>
    obtain ⟨i,info,same⟩ := effect
    exact .inr ⟨pmap,i,rfl,info,same⟩
  | _ => exact .inl effect

theorem step_plain (again : Prop) (wf : Wf s) (user : UserOp op) (allowed : Allowed m s op)
    (other : ∀ pmap va pa prot flags mem, op ≠ .enter pmap va pa prot flags mem)
    (ran : step m fuel s op = .ok s') : Wf s' ∧ Effect m again op (view m s) (view m s') := by
  have rep := wf.rep m
  cases op with
  | create =>
    obtain ⟨s₁,made,wf₁,same⟩ := pmapCreate_ok m wf
    have equal : s₁ = s' := Except.ok.inj (made.symm.trans ran)
    subst s₁
    rw [same]
    exact ⟨wf₁,.single (.create _)⟩
  | reference pmap =>
    obtain ⟨v',got,wf',same⟩ := (pmapReference_sim (m := m) wf).forward ran
    obtain ⟨i,info,rfl⟩ := map_eq_some_iff.mp got
    rw [same]
    exact ⟨wf',.single (.count _ pmap i _ info)⟩
  | destroy pmap =>
    cases pmap with
    | kernel => exact absurd rfl user
    | user n =>
      obtain ⟨v',got,wf',same⟩ := (pmapDestroy_sim (m := m) wf (fun p live last => (allowed.2 p live last).1)).forward ran
      obtain ⟨i,info,got⟩ := bind_some got
      rw [same]
      refine ⟨wf',?_⟩
      obtain ⟨p,live,rfl⟩ := map_eq_some_iff.mp info
      split_ifs at got with shared
      · cases got
        exact .single (.count _ _ _ _ info)
      cases got
      have empty := allowed.2 p live (by omega)
      exact .single (.free _ n empty.1 empty.2)
  | enter pmap va pa prot flags mem => exact absurd rfl (other pmap va pa prot flags mem)
  | remove pmap sva eva =>
    cases pmap with
    | kernel => exact absurd rfl user
    | user n =>
      obtain ⟨v',got,wf',same,_⟩ := (pmapRemove_sim rep allowed).forward ran
      subst same
      exact ⟨wf',remove_micro allowed got⟩
  | protect pmap sva eva prot =>
    cases pmap with
    | kernel => exact absurd rfl user
    | user n =>
      obtain ⟨v',got,wf',same,_⟩ := (pmapProtect_sim rep allowed).forward ran
      subst same
      exact ⟨wf',protect_micro allowed got⟩
  | activate pmap =>
    obtain ⟨v',got,wf',same⟩ := (pmapActivate_sim (m := m) wf).forward ran
    obtain ⟨i,info,rfl⟩ := map_eq_some_iff.mp got
    rw [same]
    exact ⟨wf',i,info,rfl⟩
  | tlbMiss va =>
    obtain ⟨found,loaded,done⟩ := bind_ok ran
    obtain ⟨v',got,wf',same⟩ := (usertlbmiss_sim (m := m) wf).forward loaded
    cases done
    rw [same]
    refine ⟨wf',?_⟩
    unfold Space.tlbMiss at got
    split at got
    · cases got
    rename_i busy
    split at got
    · rename_i below
      dsimp only at got
      split at got
      · cases got; exact .refl
      rename_i some
      cases got
      cases now : (view m s).mmu.cur with
      | kernel => exact absurd now busy
      | user n =>
        rw [now] at some
        have live := wf.segbase.1
        have cur : s.mmu.cur = .user n := now
        rw [cur] at live
        obtain ⟨p,held⟩ := isSome_iff_exists.mp live
        have info : (view m s).info (.user n) = .some p.toInfo := by simp [view,held]
        exact .single (.load _ n va _ now info below some)
    · cases got
  | tlbMod va =>
    obtain ⟨v',got,wf',same⟩ := (trapTlbMod_sim (m := m) wf).forward ran
    rw [same]
    refine ⟨wf',?_⟩
    unfold Space.tlbMod at got
    dsimp only at got
    obtain ⟨i,info,got⟩ := bind_some got
    cases now : (view m s).mmu.cur with
    | kernel => simp [now] at got
    | user n =>
      rw [now] at got info
      split at got
      · rename_i here
        split at got
        · cases got
        rename_i clean
        split at got
        · cases got
        rename_i writable
        split at got
        · cases got
          have valid : has ((view m s).pte (.user n) (va / nbpg)) avr32PteValid = true := by
            by_contra invalid
            exact clean (.inl (by simpa using invalid))
          exact .single (.modify _ n va _ i now info here.2 valid (by simpa using writable) rfl)
        · cases got
      · cases got
  | kenterPa => exact user.elim
  | kremove => exact user.elim
  | pageProtect => exact user.elim
  | clearModify => exact user.elim

theorem step_micro (again : Prop) (wf : Wf s) (quiet : KernelEmpty (view m s)) (user : UserOp op) (allowed : Allowed m s op)
    (once : again ∨ ¬ Rewires m s op)
    (ran : step m fuel s op = .ok s') : Wf s' ∧ Effect m again op (view m s) (view m s') := by
  by_cases entering : ∃ pmap va pa prot flags mem, op = .enter pmap va pa prot flags mem
  · obtain ⟨pmap,va,pa,prot,flags,mem,rfl⟩ := entering
    cases pmap with
    | kernel => exact absurd rfl user
    | user n =>
      have rep := wf.rep m
      obtain ⟨⟨r,s₁⟩,entered,done⟩ := bind_ok ran
      cases done
      obtain ⟨⟨r',v'⟩,got,_,tab,wf',same,_⟩ := (pmapEnter_sim fuel rep allowed.1).forward entered
      subst same
      exact ⟨wf',enter_micro (view_sound wf) quiet allowed.1 allowed.2 once got⟩
  · exact step_plain again wf user allowed (fun _ _ _ _ _ _ is => entering ⟨_,_,_,_,_,_,is⟩) ran

theorem update_mmu (tlbehi tlbelo : Word) (u : Mmu) : ∃ tlb, machTlbUpdate tlbehi tlbelo u = {u with tlb := tlb} := by
  unfold machTlbUpdate
  split
  · exact ⟨_,rfl⟩
  · exact ⟨_,rfl⟩

theorem evict_mmu (m : Machine) (v : Space) (pmap : PmapRef) (va : Nat) (i : Info) : ∃ tlb, (v.evict m pmap va i).mmu = {v.mmu with tlb := tlb} := by
  rw [Space.evict,unmapped_mmu]
  split
  · exact ⟨_,rfl⟩
  · exact ⟨_,rfl⟩

theorem micro_mmu (step : Micro m again v v') : ∃ tlb, v'.mmu = {v.mmu with tlb := tlb} := by
  have stored : ∀ (v : Space) n va i w, ∃ tlb, (v.store n va i w).mmu = {v.mmu with tlb := tlb} := by
    intro v n va i w
    unfold Space.store
    split
    · exact update_mmu _ _ _
    · exact ⟨_,rfl⟩
  cases step with
  | unmap n va i => exact evict_mmu ..
  | reprotect => exact stored ..
  | map => exact stored ..
  | load => exact update_mmu _ _ _
  | modify => exact update_mmu _ _ _
  | _ => exact ⟨_,rfl⟩

theorem micro_gen (step : Micro m again v v') : v'.mmu.asidGeneration = v.mmu.asidGeneration := by
  obtain ⟨tlb,same⟩ := micro_mmu step
  rw [same]

theorem micros_gen (steps : ReflTransGen (Micro m again) v v') : v'.mmu.asidGeneration = v.mmu.asidGeneration := by
  induction steps with
  | refl => rfl
  | tail _ last ih => exact (micro_gen last).trans ih

theorem micro_cur (step : Micro m again v v') : v'.mmu.cur = v.mmu.cur := by
  obtain ⟨tlb,same⟩ := micro_mmu step
  rw [same]

theorem micros_cur (steps : ReflTransGen (Micro m again) v v') : v'.mmu.cur = v.mmu.cur := by
  induction steps with
  | refl => rfl
  | tail _ last ih => exact (micro_cur last).trans ih

theorem initial_wf : Wf initial := by
  have tables : ∀ q, segtabOf initial q = none := by
    intro q
    by_cases kernel : q = .kernel <;> simp [segtabOf,initial,kernel]
  have pages : ∀ q i, segPage initial q i = none := fun q i => by simp [segPage,tables]
  have nodes : ∀ pg, pvNodes initial pg = [] := fun _ => rfl
  refine ⟨⟨rfl,tables _⟩,?_,?_,?_,?_,?_,⟨[],rfl,by simp⟩,⟨rfl,(tables _).symm⟩,fun _ => rfl,?_,?_,?_,fun _ _ => rfl,?_⟩
  · intro n live
    simp [initial] at live
  · intro n t owned
    rw [tables] at owned; cases owned
  · intro n n' t owned
    rw [tables] at owned; cases owned
  · intro q q' i i' page found
    rw [pages] at found; cases found
  · intro q i page found
    rw [pages] at found; cases found
  · intro n e live
    cases live
  · intro n e live
    cases live
  · intro pg pmap va key
    cases key
  intro pg pg' n member
  rw [nodes] at member; cases member

theorem initial_kernel : KernelEmpty (view m initial) := by
  intro vpn
  simp [view,pteAt,initial]

-- A run of operations that `allowed` lets through, with the number of ASID
-- generation roll-overs so far.
def rollOver (s s' : State) : Nat := if s'.mmu.asidGeneration = s.mmu.asidGeneration then 0 else 1

inductive Run (m : Machine) (allowed : State → Op → Prop) : Nat → State → Prop
  | start : Run m allowed 0 initial
  | step {rolls fuel : Nat} {now next : State} {op : Op} (run : Run m allowed rolls now) (ok : allowed now op)
      (ran : step m fuel now op = .ok next) : Run m allowed (rolls + rollOver now next) next

-- Every operation of a run on user address spaces, as the callers promise it.
def UserAllowed (m : Machine) (s : State) (op : Op) : Prop := UserOp op ∧ Allowed m s op

variable {allowed : State → Op → Prop}

theorem activated_kernel (quiet : KernelEmpty v) : KernelEmpty (v.activated pmap i) := quiet

theorem run_wf (run : Run m allowed rolls s) (promised : ∀ s op, allowed s op → UserAllowed m s op) :
    Wf s ∧ KernelEmpty (view m s) := by
  induction run with
  | start => exact ⟨initial_wf,initial_kernel⟩
  | step _ ok ran ih =>
    obtain ⟨user,promise⟩ := promised _ _ ok
    obtain ⟨wf,effect⟩ := step_micro True ih.1 ih.2 user promise (.inl trivial) ran
    rcases effect_cases effect with steps | ⟨pmap,i,_,_,same⟩
    · exact ⟨wf,micros_kernel ih.2 steps⟩
    rw [same]
    exact ⟨wf,activated_kernel ih.2⟩

theorem micros_keep {Inv : Space → Prop} (micro : ∀ v v', Inv v → Micro m again v v' → Inv v') (holds : Inv v)
    (steps : ReflTransGen (Micro m again) v v') : Inv v' := by
  induction steps with
  | refl => exact holds
  | tail _ last ih => exact micro _ _ ih last

-- The rule for an invariant of runs: every micro-step and every switch keeps it.
theorem run_keeps {Inv : Space → Prop} (again : Prop) (start : Inv (view m initial))
    (micro : ∀ v v', Inv v → Micro m again v v' → Inv v')
    (switch : ∀ v pmap i, Inv v → v.info pmap = some i → Inv (v.activated pmap i))
    (promised : ∀ s op, allowed s op → UserAllowed m s op) (once : ∀ s op, allowed s op → again ∨ ¬ Rewires m s op)
    (run : Run m allowed rolls s) : Inv (view m s) := by
  induction run with
  | start => exact start
  | step before ok ran ih =>
    obtain ⟨wf,quiet⟩ := run_wf before promised
    obtain ⟨user,promise⟩ := promised _ _ ok
    obtain ⟨_,effect⟩ := step_micro again wf quiet user promise (once _ _ ok) ran
    rcases effect_cases effect with steps | ⟨pmap,i,_,info,same⟩
    · exact micros_keep micro ih steps
    rw [same]
    exact switch _ pmap i ih info

def afterOp (m : Machine) (fuel : Nat) (s : State) (op : Op) : State :=
  match step m fuel s op with
  | .ok s' => s'
  | .error _ => s

theorem run_next (fuel : Nat) (op : Op) (run : Run m allowed rolls s) (ok : allowed s op)
    (returns : (step m fuel s op).toBool = true) :
    Run m allowed (rolls + rollOver s (afterOp m fuel s op)) (afterOp m fuel s op) := by
  have done : step m fuel s op = .ok (afterOp m fuel s op) := by
    unfold afterOp
    cases ran : step m fuel s op with
    | ok s' => rfl
    | error e =>
      rw [ran] at returns
      cases returns
  exact run.step ok done

variable {n' vpn vpn' pg' : Nat} {w : Word} {wired : Bool}

def Maps (m : Machine) (w : Word) (pg : Nat) : Prop :=
  has w avr32PteValid = true ∧ physToVmPage m (avr32TlbpfnToPaddr w).toNat = some pg

structure Mirror (m : Machine) (v : Space) : Prop where
  nodup : ∀ pg, (v.pv pg).Nodup
  listed : ∀ pg key, key ∈ v.pv pg ↔ ∃ n vpn, key = (.user n,vpn * nbpg) ∧ Maps m (v.pte (.user n) vpn) pg

-- The user part of it: the lists may hold kernel mappings as well.
structure Listed (m : Machine) (v : Space) : Prop where
  nodup : ∀ pg, (v.pv pg).Nodup
  user : ∀ pg n vpn, (PmapRef.user n,vpn * nbpg) ∈ v.pv pg ↔ Maps m (v.pte (.user n) vpn) pg

def OnlyUser (v : Space) : Prop := ∀ pg key, key ∈ v.pv pg → ∃ n vpn, key = (PmapRef.user n,vpn * nbpg)

theorem key_same : (user n,vpn * nbpg) = (user n',vpn' * nbpg) ↔ (n,vpn) = (n',vpn') := by
  constructor
  · intro equal
    simp only [Prod.mk.injEq,user.injEq] at equal
    rw [equal.1,Nat.eq_of_mul_eq_mul_right (by decide) equal.2]
  intro equal
  cases equal
  rfl

theorem mirror_exact : Mirror m v ↔ Listed m v ∧ OnlyUser v := by
  constructor
  · intro mirror
    refine ⟨⟨mirror.nodup,fun pg n vpn => ?_⟩,fun pg key member => ?_⟩
    · rw [mirror.listed]
      constructor
      · rintro ⟨n',vpn',same,maps⟩
        cases key_same.mp same
        exact maps
      · exact fun maps => ⟨n,vpn,rfl,maps⟩
    obtain ⟨n,vpn,same,_⟩ := (mirror.listed pg key).mp member
    exact ⟨n,vpn,same⟩
  rintro ⟨listed,only⟩
  refine ⟨listed.nodup,fun pg key => ⟨fun member => ?_,?_⟩⟩
  · obtain ⟨n,vpn,rfl⟩ := only pg key member
    exact ⟨n,vpn,rfl,(listed.user pg n vpn).mp member⟩
  rintro ⟨n,vpn,rfl,maps⟩
  exact (listed.user pg n vpn).mpr maps

theorem not_maps (invalid : has w avr32PteValid = false) : ¬ Maps m w pg := by
  rintro ⟨valid,_⟩
  rw [invalid] at valid
  cases valid

theorem listed_here (n vpn pg : Nat) (mirror : Mirror m v) : (user n,vpn * nbpg) ∈ v.pv pg ↔ Maps m (v.pte (.user n) vpn) pg :=
  (mirror_exact.mp mirror).1.user pg n vpn

theorem listed_update (listed : Listed m v)
    (pte : v'.pte = update v.pte (.user n) (update (v.pte (.user n)) vpn w)) (nodup : ∀ pg, (v'.pv pg).Nodup)
    (entry : ∀ pg, (user n,vpn * nbpg) ∈ v'.pv pg ↔ Maps m w pg)
    (others : ∀ pg key, key ≠ (.user n,vpn * nbpg) → (key ∈ v'.pv pg ↔ key ∈ v.pv pg)) : Listed m v' := by
  refine ⟨nodup,?_⟩
  intro pg n' vpn'
  by_cases mine : (n',vpn') = (n,vpn)
  · cases mine
    rw [entry,pte,update_self,update_self]
  have word : v'.pte (.user n') vpn' = v.pte (.user n') vpn' := by
    rw [pte]
    by_cases same : n' = n
    · subst n'
      have other : vpn' ≠ vpn := fun equal => mine (by rw [equal])
      rw [update_self,update_of_ne other]
    · rw [update_of_ne (by simpa using same)]
  rw [word,others pg _ (fun equal => mine (key_same.mp equal)),listed.user]

theorem listed_rewrite (n vpn : Nat) (listed : Listed m v)
    (pte : v'.pte = update v.pte (.user n) (update (v.pte (.user n)) vpn w)) (pv : v'.pv = v.pv)
    (valid : has w avr32PteValid = has (v.pte (.user n) vpn) avr32PteValid)
    (frame : avr32TlbpfnToPaddr w = avr32TlbpfnToPaddr (v.pte (.user n) vpn)) : Listed m v' := by
  refine listed_update listed pte (fun pg => by rw [pv]; exact listed.nodup pg) ?_ (fun pg key _ => by rw [pv])
  intro pg
  rw [pv,listed.user,Maps,Maps,valid,frame]

theorem listed_same (listed : Listed m v) (pte : ∀ n, v'.pte (.user n) = v.pte (.user n)) (pv : v'.pv = v.pv) : Listed m v' := by
  refine ⟨fun pg => by rw [pv]; exact listed.nodup pg,?_⟩
  intro pg n vpn
  rw [pv,pte]
  exact listed.user pg n vpn

theorem mirror_same (mirror : Mirror m v) (pte : v'.pte = v.pte) (pv : v'.pv = v.pv) : Mirror m v' := by
  refine ⟨fun pg => by rw [pv]; exact mirror.nodup pg,?_⟩
  intro pg key
  rw [pv,pte]
  exact mirror.listed pg key

theorem evict_sub (member : key ∈ (v.evict m pmap va i).pv pg) : key ∈ v.pv pg := by
  rw [Space.evict,unmapped_pv] at member
  cases page : physToVmPage m (avr32TlbpfnToPaddr (v.pte pmap (va / nbpg))).toNat with
  | none => rwa [page] at member
  | some pg' =>
    rw [page] at member
    dsimp only at member
    by_cases mine : pg = pg'
    · subst pg'
      rw [update_self] at member
      exact mem_of_mem_erase member
    · rwa [update_of_ne mine] at member

theorem evict_listed (listed : Listed m v) (aligned : va % nbpg = 0) : Listed m (v.evict m (.user n) va i) := by
  have whole : va / nbpg * nbpg = va := by simp only [nbpg] at *; omega
  have pte := unmapped_pte m (.user n) va (flushAsid (.user n) i) (needFlush (.user n) i v.mmu) i v
  have pv := unmapped_pv m (.user n) va (flushAsid (.user n) i) (needFlush (.user n) i v.mmu) i v
  have here : ∀ pg, (user n,va) ∈ v.pv pg ↔ Maps m (v.pte (.user n) (va / nbpg)) pg := by
    intro pg
    have := listed.user pg n (va / nbpg)
    rwa [whole] at this
  cases page : physToVmPage m (avr32TlbpfnToPaddr (v.pte (.user n) (va / nbpg))).toNat with
  | none =>
    rw [page] at pv
    refine listed_update listed pte (fun pg => by rw [Space.evict,pv]; exact listed.nodup pg) ?_ ?_
    · intro pg
      rw [Space.evict,pv,whole]
      refine iff_of_false ?_ (not_maps (has_zero _))
      rw [here]
      rintro ⟨_,found⟩
      rw [page] at found
      cases found
    intro pg key _
    rw [Space.evict,pv]
  | some pg' =>
    rw [page] at pv
    dsimp only at pv
    have lists : ∀ pg, (v.evict m (.user n) va i).pv pg = (v.pv pg).erase (.user n,va) := by
      intro pg
      rw [Space.evict,pv]
      by_cases mine : pg = pg'
      · rw [mine,update_self]
      rw [update_of_ne mine,erase_of_not_mem]
      rw [here]
      rintro ⟨_,found⟩
      rw [page] at found
      exact mine (some.inj found).symm
    refine listed_update listed pte (fun pg => by rw [lists]; exact (listed.nodup pg).erase _) ?_ ?_
    · intro pg
      rw [lists,whole]
      exact iff_of_false (fun member => (List.Nodup.mem_erase_iff (listed.nodup pg)).mp member |>.1 rfl)
        (not_maps (has_zero _))
    intro pg key other
    rw [whole] at other
    rw [lists,List.Nodup.mem_erase_iff (listed.nodup pg)]
    simp [other]

theorem evict_mirror (mirror : Mirror m v) (aligned : va % nbpg = 0) : Mirror m (v.evict m (.user n) va i) := by
  obtain ⟨listed,only⟩ := mirror_exact.mp mirror
  exact mirror_exact.mpr ⟨evict_listed listed aligned,fun pg key member => only pg key (evict_sub member)⟩

theorem insertPv_mem (key : PmapRef × Nat) (l : List (PmapRef × Nat)) : key' ∈ insertPv key l ↔ key' = key ∨ key' ∈ l := by
  cases l with
  | nil => simp [insertPv]
  | cons head rest =>
    unfold insertPv
    dsimp only
    split_ifs with old
    · constructor
      · exact .inr
      rintro (rfl | member)
      · exact old
      · exact member
    simp only [mem_cons]
    tauto

theorem insertPv_nodup (key : PmapRef × Nat) {l : List (PmapRef × Nat)} (nodup : l.Nodup) : (insertPv key l).Nodup := by
  cases l with
  | nil => simp [insertPv]
  | cons head rest =>
    unfold insertPv
    dsimp only
    by_cases old : key ∈ head :: rest
    · rwa [if_pos old]
    rw [if_neg old]
    simp only [mem_cons,not_or] at old
    simp only [nodup_cons,mem_cons,not_or] at nodup ⊢
    exact ⟨⟨fun equal => old.1 equal.symm,nodup.1⟩,old.2,nodup.2⟩

theorem page_low (page : physToVmPage m pa = some pg) : pa < 2 ^ 29 ∧ pa / nbpg = pg := by
  unfold physToVmPage at page
  split at page
  · rename_i managed
    have small := m.managed_small _ managed
    refine ⟨?_,some.inj page⟩
    simp only [nbpg] at *
    omega
  · cases page

theorem mapped_listed (listed : Listed m v) (alignedVa : va % nbpg = 0) (alignedPa : pa % nbpg = 0)
    (page : physToVmPage m pa = some pg) (chosen : pteProt (.user n) prot = .ok code)
    (old : has (v.pte (.user n) (va / nbpg)) avr32PteValid = false ∨
      avr32TlbpfnToPaddr (v.pte (.user n) (va / nbpg)) = BitVec.ofNat 32 pa) :
    Listed m (v.mapped n va pg i (userWord code prot attrs pa wired) wired) := by
  have whole : va / nbpg * nbpg = va := by simp only [nbpg] at *; omega
  have low := (page_low page).1
  have paddr : (BitVec.ofNat 32 pa).toNat = pa := by
    exact Nat.mod_eq_of_lt (Nat.lt_trans low (by decide))
  have maps : ∀ pg', Maps m (userWord code prot attrs pa wired) pg' ↔ pg' = pg := by
    intro pg'
    rw [Maps,userWord_frame chosen alignedPa low,userWord_valid alignedPa low,paddr,page,some.injEq]
    exact ⟨fun both => both.2.symm,fun equal => ⟨rfl,equal.symm⟩⟩
  have lists : ∀ pg', (v.mapped n va pg i (userWord code prot attrs pa wired) wired).pv pg' =
      if pg' = pg then insertPv (.user n,va) (v.pv pg) else v.pv pg' := by
    intro pg'
    have shape : (v.mapped n va pg i (userWord code prot attrs pa wired) wired).pv =
        update v.pv pg (insertPv (.user n,va) (v.pv pg)) := rfl
    rw [shape]
    split_ifs with mine
    · rw [mine,update_self]
    · rw [update_of_ne mine]
  refine listed_update listed (mapped_pte ..) ?_ ?_ ?_
  · intro pg'
    rw [lists]
    split
    · exact insertPv_nodup _ (listed.nodup pg)
    · exact listed.nodup pg'
  · intro pg'
    rw [lists,maps,whole]
    split_ifs with mine
    · rw [insertPv_mem]
      simp [mine]
    refine iff_of_false ?_ mine
    have here := listed.user pg' n (va / nbpg)
    rw [whole] at here
    rw [here]
    rintro ⟨valid,found⟩
    rcases old with invalid | frame
    · rw [valid] at invalid; cases invalid
    rw [frame,paddr,page] at found
    exact mine (some.inj found).symm
  intro pg' key other
  rw [whole] at other
  rw [lists]
  split_ifs with mine
  · rw [insertPv_mem,mine]
    simp [other]
  · rfl

theorem mapped_sub (member : key ∈ (v.mapped n va pg' i w wired).pv pg) : key = (.user n,va) ∨ key ∈ v.pv pg := by
  have shape : (v.mapped n va pg' i w wired).pv = update v.pv pg' (insertPv (.user n,va) (v.pv pg')) := rfl
  rw [shape] at member
  by_cases mine : pg = pg'
  · subst pg'
    rw [update_self] at member
    exact insert_sub member
  rw [update_of_ne mine] at member
  exact .inr member

theorem micro_listed (listed : Listed m v) (step : Micro m again v v') : Listed m v' := by
  cases step with
  | unmap n va i info aligned below valid => exact evict_listed listed aligned
  | reprotect n va i prot code info aligned below valid chosen =>
    refine listed_rewrite n (va / nbpg) listed (store_pte ..) rfl ?_ (reprotected_frame chosen)
    rw [has_valid,has_valid,reprotected_bit chosen (by decide) (by decide) (by decide)]
  | map n va pa pg i prot code wired info alignedVa below alignedPa page chosen old colours once =>
    exact mapped_listed listed alignedVa alignedPa page chosen old
  | free n idle empty =>
    refine ⟨listed.nodup,?_⟩
    intro pg n' vpn'
    rw [listed.user]
    dsimp only
    by_cases mine : n' = n
    · subst n'
      rw [update_self]
      exact iff_of_false (not_maps (empty vpn')) (not_maps (has_zero _))
    · rw [update_of_ne (by simpa using mine)]
  | modify n va pg i cur info below valid writable frame =>
    refine listed_rewrite n (va / nbpg) listed rfl rfl ?_ (dirtied_frame _)
    rw [has_valid,has_valid,dirtied_bit (by decide) (by decide)]
  | _ => exact listed_same listed (fun _ => rfl) rfl

theorem micro_keys (step : Micro m again v v') (member : key ∈ v'.pv pg) : key ∈ v.pv pg ∨ ∃ n vpn, key = (user n,vpn * nbpg) := by
  cases step with
  | unmap n va i info aligned below valid => exact .inl (evict_sub member)
  | map n va pa pg' i prot code wired info aligned =>
    rcases mapped_sub member with rfl | old
    · exact .inr ⟨n,va / nbpg,by rw [Nat.div_mul_cancel (Nat.dvd_of_mod_eq_zero aligned)]⟩
    · exact .inl old
  | _ => exact .inl member

theorem micro_only (only : OnlyUser v) (step : Micro m again v v') : OnlyUser v' :=
  fun pg key member => (micro_keys step member).elim (only pg key) id

theorem micro_mirror (mirror : Mirror m v) (step : Micro m again v v') : Mirror m v' := by
  obtain ⟨listed,only⟩ := mirror_exact.mp mirror
  exact mirror_exact.mpr ⟨micro_listed listed step,micro_only only step⟩

theorem pte_backed (some : pteAt m s (.user n) vpn ≠ 0#32) :
    ∃ page p, segPage s (.user n) (vpn / nptepg) = .some page ∧ s.pmaps (.user n) = .some p ∧
      vpn * nbpg < vmMaxuserAddress := by
  cases found : segPage s (.user n) (vpn / nptepg) with
  | none => exact absurd (by simp [pteAt,found]) some
  | some page =>
    have table := found
    unfold segPage at table
    cases owned : segtabOf s (.user n) with
    | none => rw [owned] at table; cases table
    | some t =>
      rw [owned] at table
      dsimp only at table
      split at table
      · rename_i index
        cases held : s.pmaps (.user n) with
        | none => simp [segtabOf,held] at owned
        | some p =>
          refine ⟨page,p,rfl,rfl,?_⟩
          simp only [pmapSegtabsize,nptepg,nbpg,vmMaxuserAddress] at *
          omega
      · cases table

theorem initial_mirror : Mirror m (view m initial) := by
  have empty : ∀ pg, (view m initial).pv pg = [] := fun _ => rfl
  refine ⟨fun pg => by rw [empty]; exact nodup_nil,?_⟩
  intro pg key
  refine iff_of_false (not_mem_nil) ?_
  rintro ⟨n,vpn,_,maps⟩
  exact not_maps (has_zero _) maps

theorem run_mirror (run : Run m allowed rolls s) (promised : ∀ s op, allowed s op → UserAllowed m s op) :
    Mirror m (view m s) :=
  run_keeps True initial_mirror (fun _ _ => micro_mirror) (fun _ _ _ mirror _ => mirror_same mirror rfl rfl)
    promised (fun _ _ _ => .inl trivial) run

-- pmap_create, pmap_enter, pmap_remove, pmap_protect and, on a pmap with no
-- valid PTE, pmap_destroy, all on user pmaps.
def TableOp (m : Machine) (s : State) : Op → Prop
  | .create => True
  | .destroy pmap => pmap ≠ .kernel ∧ ∀ vpn, has (pteAt m s pmap vpn) avr32PteValid = false
  | .enter pmap va pa _ _ _ => pmap ≠ .kernel ∧ va % nbpg = 0 ∧ pa % nbpg = 0
  | .remove pmap sva _ => pmap ≠ .kernel ∧ sva % nbpg = 0
  | .protect pmap sva _ _ => pmap ≠ .kernel ∧ sva % nbpg = 0
  | _ => False

-- No pmap is ever activated, so none is freed while in use.
theorem table_run (run : Run m (TableOp m) rolls s) : Run m (UserAllowed m) rolls s ∧ s.mmu.cur = .kernel := by
  induction run with
  | start => exact ⟨.start,rfl⟩
  | step before ok ran ih =>
    rename_i now next op
    have promise : UserAllowed m now op := by
      cases op with
      | create => exact ⟨trivial,trivial⟩
      | destroy pmap => exact ⟨ok.1,ok.1,fun p _ _ => ⟨by rw [ih.2]; exact fun equal => ok.1 equal.symm,ok.2⟩⟩
      | enter => exact ⟨ok.1,ok.2⟩
      | remove => exact ⟨ok.1,ok.2⟩
      | protect => exact ⟨ok.1,ok.2⟩
      | _ => exact ok.elim
    refine ⟨ih.1.step promise ran,?_⟩
    obtain ⟨wf,quiet⟩ := run_wf ih.1 (fun _ _ ok => ok)
    obtain ⟨_,effect⟩ := step_micro True wf quiet promise.1 promise.2 (.inl trivial) ran
    rcases effect_cases effect with steps | ⟨pmap,i,activate,_,_⟩
    · exact (micros_cur steps).trans ih.2
    subst op
    exact ok.elim

-- A valid user PTE whose frame is the physical address of `pg`.
def MapsPage (m : Machine) (s : State) (n va pg : Nat) : Prop :=
  has (pteAt m s (.user n) (va / nbpg)) avr32PteValid = true ∧
    (avr32TlbpfnToPaddr (pteAt m s (.user n) (va / nbpg))).toNat = pg * nbpg

instance : Decidable (MapsPage m s n va pg) := inferInstanceAs (Decidable (_ ∧ _))

theorem mapsPage_exact (managed : m.managed pg = true) :
    MapsPage m s n va pg ↔ Maps m ((view m s).pte (.user n) (va / nbpg)) pg := by
  refine and_congr_right (fun _ => ?_)
  have whole := frame_aligned (pteAt m s (.user n) (va / nbpg))
  have same : (view m s).pte = pteAt m s := rfl
  rw [same]
  unfold physToVmPage
  constructor
  · intro equal
    rw [equal,Nat.mul_div_cancel _ (by decide),managed]
    rfl
  intro found
  split at found
  · have number := some.inj found
    simp only [nbpg] at *
    omega
  · cases found

theorem pv_lists_exact (pg : Nat) (run : Run m (TableOp m) rolls s) (managed : m.managed pg = true) :
    (∀ n va, va % nbpg = 0 → (pvList s pg).count (.user n,va) = if MapsPage m s n va pg then 1 else 0) ∧
      ∀ key ∈ pvList s pg, ∃ n va, key = (.user n,va) ∧ va % nbpg = 0 ∧ MapsPage m s n va pg := by
  have mirror := run_mirror (table_run run).1 (fun _ _ ok => ok)
  have nodup := mirror.nodup pg
  constructor
  · intro n va aligned
    have whole : va / nbpg * nbpg = va := by simp only [nbpg] at *; omega
    have here := listed_here n (va / nbpg) pg mirror
    rw [whole,← mapsPage_exact managed] at here
    split_ifs with maps
    · exact count_eq_one_of_mem nodup (here.mpr maps)
    · exact count_eq_zero_of_not_mem (fun member => maps (here.mp member))
  · intro key member
    obtain ⟨n,vpn,rfl,maps⟩ := (mirror.listed pg key).mp member
    have page : vpn * nbpg / nbpg = vpn := Nat.mul_div_cancel _ (by decide)
    refine ⟨n,vpn * nbpg,rfl,Nat.mul_mod_left _ _,?_⟩
    rw [mapsPage_exact managed,page]
    exact maps

-- Four managed pages, no kernel page table, and one page entered in one pmap.
def smallMachine : Machine where
  cacheAliasMask := 0
  managed := fun frame => frame < 4
  sysmapsize := 0
  managed_small := by intro frame small; simp at small; omega
  sysmap_small := by decide

def onePage : State :=
  afterOp smallMachine 1 (afterOp smallMachine 1 initial .create) (.enter (.user 0) 0x1000 0x1000 3 0 true)

theorem onePage_run : ∃ rolls, Run smallMachine (TableOp smallMachine) rolls onePage := by
  have created : Run smallMachine (TableOp smallMachine) _ (afterOp smallMachine 1 initial .create) :=
    run_next 1 .create .start trivial rfl
  exact ⟨_,run_next 1 (.enter (.user 0) 0x1000 0x1000 3 0 true) created ⟨by decide,rfl,rfl⟩ rfl⟩

theorem pv_lists_exact_one : (pvList onePage 1).count (.user 0,0x1000) = 1 := by
  obtain ⟨_,run⟩ := onePage_run
  have count := (pv_lists_exact 1 run rfl).1 0 0x1000 rfl
  rw [count,if_pos (by decide)]
end NetbsdAvr32.Avr32
