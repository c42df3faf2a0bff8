import NetbsdAvr32.PmapModified
import NetbsdAvr32.PmapExtract
import NetbsdAvr32.PmapClear

-- The whole module, kernel mappings included, as one relation on the abstract
-- state, and what every operation keeps.
namespace NetbsdAvr32.Avr32
open Function Outcome Relation PmapRef
variable {m : Machine} {s s' : State} {v v' v₁ : Space} {pmap : PmapRef} {n va vpn pa pg sva eva rolls fuel : Nat} {i j : Info} {w : Word}
  {key : PmapRef × Nat} {again hard : Prop} {op : Op}

def Space.cleanedPage (v : Space) (pg : Nat) : Space :=
  {v.swept (v.pv pg) with attrs := update v.attrs pg (v.attrs pg &&& ~~~pvModified)}

theorem clearModify_plain (plain : has (v.attrs pg) pvModified = false) : v.clearModify m pg = some (false,v) := by
  unfold Space.clearModify
  rw [if_pos plain]
  have keep : v.attrs pg &&& ~~~pvModified = v.attrs pg := by
    have bit : pvModified = avr32PgDirty := by decide
    exact cleaned_clean plain
  rw [keep,update_eq_self]

theorem clearModify_swept (modified : has (v.attrs pg) pvModified = true) (clearable : ∀ key ∈ v.pv pg, Clearable m v key)
    (aligned : ∀ key ∈ v.pv pg, key.2 % nbpg = 0) : v.clearModify m pg = some (true,v.cleanedPage pg) := by
  have some : ¬has (v.attrs pg) pvModified = false := by simp [modified]
  have same : ∀ key ∈ v.pv pg, Clearable m {v with attrs := update v.attrs pg (v.attrs pg &&& ~~~pvModified)} key := clearable
  unfold Space.clearModify
  rw [if_neg some,clear_fold same aligned]
  rfl

theorem clearModify_only (modified : has (v.attrs pg) pvModified = true) (aligned : ∀ key ∈ v.pv pg, key.2 % nbpg = 0)
    (ran : v.clearModify m pg = some q) : ∀ key ∈ v.pv pg, Clearable m v key := by
  have some : ¬has (v.attrs pg) pvModified = false := by simp [modified]
  unfold Space.clearModify at ran
  rw [if_neg some] at ran
  obtain ⟨v',swept,_⟩ := Option.map_eq_some_iff.mp ran
  have clearable := clear_fold_only swept aligned
  exact clearable

-- `hard`: pmap_kenter_pa may make a kernel PTE valid.
inductive Change (m : Machine) (hard : Prop) : Space → Space → Prop
  | user {v v' : Space} (step : Micro m True v v') : Change m hard v v'
  | switch (v : Space) (pmap : PmapRef) (i : Info) (info : v.info pmap = some i) : Change m hard v (v.activated pmap i)
  | evict (v : Space) (va : Nat) (i : Info) (info : v.info .kernel = some i) (aligned : va % nbpg = 0)
      (valid : has (v.pte .kernel (va / nbpg)) avr32PteValid = true) : Change m hard v (v.evict m .kernel va i)
  | count (v : Space) (i j : Info) (info : v.info .kernel = some i) (asid : j.pmAsid = i.pmAsid) : Change m hard v (v.setInfo .kernel j)
  | list (v : Space) (va pg : Nat) (range : kvInRange m va) : Change m hard v {v with pv := update v.pv pg (insertPv (.kernel,va) (v.pv pg))}
  | write (v : Space) (vpn : Nat) (w : Word)
      (recorded : ∀ pg, has w avr32PteValid = false → has w avr32PgDirty = true → (avr32TlbpfnToPaddr w).toNat = pg * nbpg →
        has (v.attrs pg) pvModified = true ∧ (PmapRef.kernel,vpn * nbpg) ∈ v.pv pg)
      (steady : hard ∨ (has w avr32PteValid = true → has (v.pte .kernel vpn) avr32PteValid = true)) : Change m hard v (v.setPte .kernel vpn w)
  | flush (v : Space) (u : Mmu) (mmu : ∃ tlb, u = {v.mmu with tlb := tlb}) : Change m hard v (v.setMmu u)
  | clean (v : Space) (pg : Nat) : Change m hard v (v.cleanedPage pg)

-- What holds of every reachable state. A kernel PTE that pmap_enter wrote is
-- not AVR32_PTE_VALID.
structure Ledger (m : Machine) (v : Space) : Prop where
  listed : Listed m v
  kernel : ∀ pg va, (PmapRef.kernel,va) ∈ v.pv pg → kvInRange m va
  dirty : DirtySound m v
  entered : ∀ vpn pg, has (v.pte .kernel vpn) avr32PteValid = false → has (v.pte .kernel vpn) avr32PgDirty = true →
    (avr32TlbpfnToPaddr (v.pte .kernel vpn)).toNat = pg * nbpg → has (v.attrs pg) pvModified = true ∧ (PmapRef.kernel,vpn * nbpg) ∈ v.pv pg
  tags : v.mmu.maxAsid = 256 ∧ 1 ≤ v.mmu.nextAsid ∧ v.mmu.nextAsid ≤ 256 ∧ SmallAsids v.info

theorem micro_grow (step : Micro m again v v') (held : has (v.attrs pg) pvModified = true) : has (v'.attrs pg) pvModified = true := by
  cases step with
  | unmap => rwa [Space.evict,unmapped_attrs]
  | mark pg' bits =>
    by_cases mine : pg = pg'
    · subst pg'
      simpa using has_grow bits held
    · simpa [mine] using held
  | modify n va pg' i cur info below valid writable frame =>
    by_cases mine : pg = pg'
    · rw [mine]
      simp [modified_set]
    · simpa [mine] using held
  | _ => exact held

theorem micro_small (small : SmallAsids v.info) (step : Micro m again v v') : SmallAsids v'.info := by
  cases step with
  | unmap n va i info =>
    rw [Space.evict,unmapped_info_eq]
    exact small.put _ _ (small _ i info)
  | map n va pa pg i prot code wired info | count pmap i c info => exact small.put _ _ (small _ i info)
  | create => exact small.put _ _ (show pmapAsidReserved < 256 by decide)
  | free n idle empty =>
    intro q i held
    dsimp only at held
    by_cases mine : q = .user n
    · rw [mine,update_self] at held
      cases held
    rw [update_of_ne mine] at held
    exact small q i held
  | _ => exact small

theorem evict_listed_else (kept : key ∈ v.pv pg) (other : key ≠ (pmap,va)) : key ∈ (v.evict m pmap va i).pv pg := by
  rw [Space.evict,unmapped_pv]
  cases page : physToVmPage m (avr32TlbpfnToPaddr (v.pte pmap (va / nbpg))).toNat with
  | none => exact kept
  | some pg' =>
    dsimp only
    by_cases mine : pg = pg'
    · subst pg'
      rw [update_self]
      exact (List.mem_erase_of_ne other).mpr kept
    · rwa [update_of_ne mine]

theorem micro_kernelKeys (step : Micro m again v v') (kept : (kernel,va) ∈ v.pv pg) : (kernel,va) ∈ v'.pv pg := by
  cases step with
  | unmap n va' i => exact evict_listed_else kept (by simp)
  | map n va' pa pg' i prot code wired =>
    have shape : (v.mapped n va' pg' i (userWord code prot (v.attrs pg') pa wired) wired).pv = update v.pv pg' (insertPv (.user n,va') (v.pv pg')) := rfl
    rw [shape]
    by_cases mine : pg = pg'
    · subst pg'
      rw [update_self,insertPv_mem]
      exact .inr kept
    · rwa [update_of_ne mine]
  | _ => exact kept

section
variable (ledger : Ledger m v)
include ledger

theorem Ledger.micro (step : Micro m again v v') : Ledger m v' where
  listed := micro_listed ledger.listed step
  kernel := fun pg va member => by
    rcases micro_keys step member with old | ⟨n,vpn,is⟩
    · exact ledger.kernel pg va old
    · cases is
  dirty := micro_dirty ledger.dirty step
  entered := fun vpn pg => by
    rw [micro_kernelPte step]
    intro invalid dirty frame
    obtain ⟨modified,member⟩ := ledger.entered vpn pg invalid dirty frame
    exact ⟨micro_grow step modified,micro_kernelKeys step member⟩
  tags := by
    obtain ⟨tlb,same⟩ := micro_mmu step
    obtain ⟨max,low,high,small⟩ := ledger.tags
    rw [same]
    exact ⟨max,low,high,micro_small small step⟩

theorem Ledger.switch (info : v.info pmap = some i) : Ledger m (v.activated pmap i) where
  listed := listed_same ledger.listed (fun _ => rfl) rfl
  kernel := ledger.kernel
  dirty := ⟨ledger.dirty.writable,ledger.dirty.recorded⟩
  entered := ledger.entered
  tags := by
    obtain ⟨max,low,high,small⟩ := ledger.tags
    have mmu : (v.activated pmap i).mmu = {machSetPid (asidAlloc i v.mmu).1.pmAsid (asidAlloc i v.mmu).2 with cur := pmap} := rfl
    have infos : (v.activated pmap i).info = update v.info pmap (some (asidAlloc i v.mmu).1) := rfl
    have next : (asidAlloc i v.mmu).2.maxAsid = 256 ∧ 1 ≤ (asidAlloc i v.mmu).2.nextAsid ∧ (asidAlloc i v.mmu).2.nextAsid ≤ 256 ∧
        (asidAlloc i v.mmu).1.pmAsid < 256 := by
      have old := small _ _ info
      unfold asidAlloc
      split
      · dsimp only
        split
        · exact ⟨max,Nat.le_add_left 1 _,show 1 + 1 ≤ 256 by decide,show 1 < 256 by decide⟩
        · next room => exact ⟨max,by omega,by omega,by omega⟩
      · exact ⟨max,low,high,old⟩
    exact ⟨next.1,next.2.1,next.2.2.1,small.put _ _ next.2.2.2⟩

theorem Ledger.kernelPte (vpn : Nat) (w : Word)
    (pte : v'.pte = update v.pte .kernel (update (v.pte .kernel) vpn w)) (attrs : v'.attrs = v.attrs) (nodup : ∀ pg, (v'.pv pg).Nodup)
    (sub : ∀ pg key, key ∈ v'.pv pg → key ∈ v.pv pg) (kept : ∀ pg key, key ∈ v.pv pg → key ≠ (PmapRef.kernel,vpn * nbpg) → key ∈ v'.pv pg)
    (recorded : ∀ pg, has w avr32PteValid = false → has w avr32PgDirty = true → (avr32TlbpfnToPaddr w).toNat = pg * nbpg →
      has (v.attrs pg) pvModified = true ∧ (PmapRef.kernel,vpn * nbpg) ∈ v'.pv pg)
    (mmu : ∃ tlb, v'.mmu = {v.mmu with tlb := tlb}) (small : SmallAsids v'.info) : Ledger m v' where
  listed := by
    refine ⟨nodup,fun pg n vpn' => ?_⟩
    rw [pte,update_of_ne (Ne.symm (kernel_ne n)),← ledger.listed.user]
    exact ⟨sub pg _,fun member => kept pg _ member (by simp)⟩
  kernel := fun pg va member => ledger.kernel pg va (sub pg _ member)
  dirty := by
    refine ⟨fun n vpn' => ?_,fun n vpn' pg => ?_⟩
    · rw [pte,update_of_ne (Ne.symm (kernel_ne n))]
      exact ledger.dirty.writable n vpn'
    rw [pte,update_of_ne (Ne.symm (kernel_ne n)),attrs]
    exact ledger.dirty.recorded n vpn' pg
  entered := fun vpn' pg => by
    rw [pte,update_self,attrs]
    by_cases here : vpn' = vpn
    · subst vpn'
      rw [update_self]
      exact recorded pg
    rw [update_of_ne here]
    intro invalid dirty frame
    obtain ⟨modified,member⟩ := ledger.entered vpn' pg invalid dirty frame
    refine ⟨modified,kept pg _ member fun equal => here ?_⟩
    exact Nat.eq_of_mul_eq_mul_right (by decide) (congrArg Prod.snd equal)
  tags := by
    obtain ⟨max,low,high,_⟩ := ledger.tags
    obtain ⟨tlb,same⟩ := mmu
    rw [same]
    exact ⟨max,low,high,small⟩

theorem Ledger.evict (info : v.info .kernel = some i) (aligned : va % nbpg = 0) : Ledger m (v.evict m .kernel va i) := by
  have whole : va / nbpg * nbpg = va := Nat.div_mul_cancel (Nat.dvd_of_mod_eq_zero aligned)
  refine ledger.kernelPte (va / nbpg) 0#32 (unmapped_pte ..) (unmapped_attrs ..) (fun pg => ?_) (fun pg key => evict_sub) (fun pg key kept other => ?_) ?_
    (evict_mmu ..) ?_
  · rw [Space.evict,unmapped_pv]
    cases page : physToVmPage m (avr32TlbpfnToPaddr (v.pte .kernel (va / nbpg))).toNat with
    | none => exact ledger.listed.nodup pg
    | some pg' =>
      dsimp only
      by_cases mine : pg = pg'
      · subst pg'
        rw [update_self]
        exact (ledger.listed.nodup pg).erase _
      rw [update_of_ne mine]
      exact ledger.listed.nodup pg
  · rw [whole] at other
    exact evict_listed_else kept other
  · intro pg _ dirty
    cases dirty
  rw [Space.evict,unmapped_info_eq]
  exact ledger.tags.2.2.2.put _ _ (ledger.tags.2.2.2 _ i info)

theorem Ledger.same (pte : v'.pte = v.pte) (pv : v'.pv = v.pv) (attrs : v'.attrs = v.attrs)
    (mmu : ∃ tlb, v'.mmu = {v.mmu with tlb := tlb}) (small : SmallAsids v'.info) : Ledger m v' where
  listed := listed_same ledger.listed (fun n => by rw [pte]) pv
  kernel := by rw [pv]; exact ledger.kernel
  dirty := ⟨by rw [pte]; exact ledger.dirty.writable,by rw [pte,attrs]; exact ledger.dirty.recorded⟩
  entered := by rw [pte,pv,attrs]; exact ledger.entered
  tags := by
    obtain ⟨max,low,high,_⟩ := ledger.tags
    obtain ⟨tlb,same⟩ := mmu
    rw [same]
    exact ⟨max,low,high,small⟩

theorem Ledger.list (range : kvInRange m va) (pg : Nat) :
    Ledger m {v with pv := update v.pv pg (insertPv (.kernel,va) (v.pv pg))} := by
  have member (pg' : Nat) (key : PmapRef × Nat) : key ∈ update v.pv pg (insertPv (.kernel,va) (v.pv pg)) pg' ↔
      (pg' = pg ∧ key = (.kernel,va)) ∨ key ∈ v.pv pg' := by
    by_cases mine : pg' = pg
    · subst pg'
      rw [update_self,insertPv_mem]
      simp
    · simp [mine]
  refine ⟨⟨fun pg' => ?_,fun pg' n vpn => ?_⟩,fun pg' va' => ?_,⟨ledger.dirty.writable,ledger.dirty.recorded⟩,fun vpn pg' invalid dirty frame => ?_,
    ledger.tags⟩
  · by_cases mine : pg' = pg
    · subst pg'
      simpa using insertPv_nodup _ (ledger.listed.nodup pg)
    · simpa [mine] using ledger.listed.nodup pg'
  · rw [member,← ledger.listed.user]
    simp
  · rw [member]
    rintro (⟨_,is⟩ | old)
    · cases is
      exact range
    · exact ledger.kernel pg' va' old
  obtain ⟨modified,old⟩ := ledger.entered vpn pg' invalid dirty frame
  exact ⟨modified,(member pg' _).mpr (.inr old)⟩
end

theorem maps_cleaned (w : Word) (pg : Nat) : Maps m (cleaned w) pg ↔ Maps m w pg := by
  unfold Maps
  rw [cleaned_valid,cleaned_frame]

theorem modified_cleared (w : Word) : has (w &&& ~~~pvModified) pvModified = false := by
  unfold has
  have none : w &&& ~~~pvModified &&& pvModified = 0#32 := by
    rw [BitVec.and_assoc]
    have zero : ~~~pvModified &&& pvModified = 0#32 := by decide
    simp
  rw [none]
  rfl

theorem Ledger.clean (ledger : Ledger m v) (pg : Nat) : Ledger m (v.cleanedPage pg) := by
  have maps (q : PmapRef) (vpn pg' : Nat) : Maps m ((v.cleanedPage pg).pte q vpn) pg' ↔ Maps m (v.pte q vpn) pg' := by
    dsimp only [Space.cleanedPage,Space.swept]
    split
    · exact maps_cleaned ..
    · exact Iff.rfl
  have attrs (pg' : Nat) (other : pg' ≠ pg) : (v.cleanedPage pg).attrs pg' = v.attrs pg' := update_of_ne other ..
  refine ⟨⟨ledger.listed.nodup,fun pg' n vpn => ?_⟩,ledger.kernel,⟨fun n vpn dirty => ?_,fun n vpn pg' mapped dirty => ?_⟩,fun vpn pg' invalid dirty frame => ?_,
    ledger.tags⟩
  · rw [maps]
    exact ledger.listed.user pg' n vpn
  · have was := swept_dirty v (v.pv pg) dirty
    have write := ledger.dirty.writable n vpn was
    dsimp only [Space.cleanedPage,Space.swept] at dirty ⊢
    split at dirty
    · rw [cleaned_dirty] at dirty
      cases dirty
    · next free => rwa [if_neg free]
  · have mapped := (maps ..).mp mapped
    have was := swept_dirty v (v.pv pg) dirty
    by_cases mine : pg' = pg
    · subst pg'
      have member := (ledger.listed.user pg n vpn).mpr mapped
      dsimp only [Space.cleanedPage,Space.swept] at dirty
      rw [if_pos member,cleaned_dirty] at dirty
      cases dirty
    rw [attrs pg' mine]
    exact ledger.dirty.recorded n vpn pg' mapped was
  have was := swept_dirty v (v.pv pg) dirty
  have same : has ((v.cleanedPage pg).pte .kernel vpn) avr32PteValid = has (v.pte .kernel vpn) avr32PteValid ∧
      avr32TlbpfnToPaddr ((v.cleanedPage pg).pte .kernel vpn) = avr32TlbpfnToPaddr (v.pte .kernel vpn) := by
    dsimp only [Space.cleanedPage,Space.swept]
    split
    · exact ⟨cleaned_valid _,cleaned_frame _⟩
    · exact ⟨rfl,rfl⟩
  obtain ⟨modified,member⟩ := ledger.entered vpn pg' (same.1 ▸ invalid) was (same.2 ▸ frame)
  by_cases mine : pg' = pg
  · subst pg'
    dsimp only [Space.cleanedPage,Space.swept] at dirty
    rw [if_pos member,cleaned_dirty] at dirty
    cases dirty
  · exact ⟨(attrs pg' mine).symm ▸ modified,member⟩

theorem Ledger.change (ledger : Ledger m v) (step : Change m hard v v') : Ledger m v' := by
  cases step with
  | user step => exact ledger.micro step
  | switch pmap i info => exact ledger.switch info
  | evict va i info aligned valid => exact ledger.evict info aligned
  | count i j info asid => exact ledger.same rfl rfl rfl ⟨_,rfl⟩ (ledger.tags.2.2.2.put _ _ (by rw [asid]; exact ledger.tags.2.2.2 _ _ info))
  | list va pg range => exact ledger.list range pg
  | write vpn w recorded steady =>
    exact ledger.kernelPte vpn w rfl rfl ledger.listed.nodup (fun _ _ member => member) (fun _ _ member _ => member) recorded ⟨_,rfl⟩ ledger.tags.2.2.2
  | flush u mmu => exact ledger.same rfl rfl rfl mmu ledger.tags.2.2.2
  | clean pg => exact ledger.clean pg

-- Nothing but pmap_kenter_pa makes a kernel PTE AVR32_PTE_VALID.
def KernelIdle (v : Space) : Prop := ∀ vpn, has (v.pte .kernel vpn) avr32PteValid = false

theorem KernelIdle.change (idle : KernelIdle v) (step : Change m False v v') : KernelIdle v' := by
  intro vpn
  cases step with
  | user step =>
    rw [micro_kernelPte step]
    exact idle vpn
  | evict va i info aligned valid =>
    rw [Space.evict,unmapped_pte,update_self]
    by_cases here : vpn = va / nbpg
    · rw [here,update_self]
      exact has_zero _
    rw [update_of_ne here]
    exact idle vpn
  | write vpn' w recorded steady =>
    dsimp only [Space.setPte]
    rw [update_self]
    by_cases here : vpn = vpn'
    · subst vpn'
      by_contra valid
      have was := steady.resolve_left id (by simpa using valid)
      rw [idle vpn] at was
      cases was
    rw [update_of_ne here]
    exact idle vpn
  | clean pg =>
    dsimp only [Space.cleanedPage,Space.swept]
    split
    · rw [cleaned_valid]
      exact idle vpn
    · exact idle vpn
  | _ => exact idle vpn

-- Every operation of the module is a chain of changes.
variable {tab : PmapRef → Nat → Option Nat}

theorem micros_change (steps : ReflTransGen (Micro m True) v v') : ReflTransGen (Change m hard) v v' :=
  steps.lift id fun _ _ step => .user step

theorem evicts_change (step : Evicts m va pg v v') : Change m hard v v' := by
  obtain ⟨⟨pmap,addr⟩,i,_,info,aligned,range,_,valid,_,rfl⟩ := step
  cases pmap with
  | kernel => exact .evict v addr i info aligned valid
  | user n => exact .user (.unmap v n addr i info aligned range valid)

theorem unmapPte_change (aligned : va % nbpg = 0) (ran : v.unmapPte m .kernel 0 true va = some v') : ReflTransGen (Change m hard) v v' := by
  unfold Space.unmapPte at ran
  split at ran
  · split at ran
    · cases ran
      exact .refl
    next valid =>
    obtain ⟨i,info,rfl⟩ := Option.map_eq_some_iff.mp ran
    have same : v.unmapped m .kernel va 0 true i = v.evict m .kernel va i := by simp [Space.evict,flushAsid,needFlush]
    exact .single (.evict v va i info aligned (by simpa using valid))
  · cases ran

theorem remove_change (aligned : sva % nbpg = 0) (ran : v.remove m pmap sva eva = some v') : ReflTransGen (Change m hard) v v' := by
  cases pmap with
  | user n => exact micros_change (remove_micro aligned ran)
  | kernel =>
    unfold Space.remove at ran
    exact fold_steps (P := fun _ => True) (fun v v' va _ page one => ⟨unmapPte_change page one,trivial⟩) _ aligned trivial ran

theorem protect_change (aligned : sva % nbpg = 0) (ran : v.protect m pmap sva eva prot = some v') : ReflTransGen (Change m hard) v v' := by
  cases pmap with
  | user n => exact micros_change (protect_micro aligned ran)
  | kernel =>
    unfold Space.protect at ran
    split at ran
    · cases ran
    split at ran
    · exact remove_change aligned ran
    obtain ⟨code,chosen,ran⟩ := bind_some ran
    have code' : pteProt .kernel prot = .ok code := by
      cases got : pteProt .kernel prot with
      | error e => rw [got] at chosen; cases chosen
      | ok c => rw [got] at chosen; cases chosen; rfl
    obtain ⟨i,_,ran⟩ := bind_some ran
    refine fold_steps (P := fun _ => True) (fun v₁ v₂ va _ page one => ⟨?_,trivial⟩) _ aligned trivial ran
    unfold Space.protectPte at one
    split at one
    · dsimp only at one
      split at one
      · cases one
        exact .refl
      next valid =>
      cases one
      have valid : has (v₁.pte .kernel (va / nbpg)) avr32PteValid = true := by simpa using valid
      have kept : has (reprotected code (v₁.pte .kernel (va / nbpg))) avr32PteValid = true := by
        rw [has_valid,reprotected_bit code' (by decide) (by decide) (by decide),← has_valid]
        exact valid
      have written : Change m hard v₁ (v₁.setPte .kernel (va / nbpg) (reprotected code (v₁.pte .kernel (va / nbpg)))) :=
        .write v₁ (va / nbpg) _ (fun pg invalid => by rw [kept] at invalid; cases invalid) (.inr fun _ => valid)
      exact (ReflTransGen.single written).tail (.flush _ _ (update_mmu ..))
    · cases one

theorem sound_insert (sound : Sound v) (aligned : va % nbpg = 0) (pmap : PmapRef) (pg : Nat) :
    Sound {v with pv := update v.pv pg (insertPv (pmap,va) (v.pv pg))} := by
  refine ⟨sound.kernel,fun pg' key member => ?_⟩
  dsimp only at member
  by_cases here : pg' = pg
  · subst pg'
    rw [update_self] at member
    rcases insert_sub member with rfl | old
    · exact aligned
    · exact sound.aligned pg key old
  rw [update_of_ne here] at member
  exact sound.aligned pg' key member

theorem kernelTail_change (sound : Sound v) (alignedVa : va % nbpg = 0) (alignedPa : pa % nbpg = 0) (page : physToVmPage m pa = some pg)
    (chosen : pteProt .kernel prot = .ok code) (member : (kernel,va) ∈ v.pv pg) (wired : Bool)
    (ran : v.enterPte m .kernel va (BitVec.ofNat 32 pa) (kernelPte (enterBits code prot (v.attrs pg)) (BitVec.ofNat 32 pa)) wired = some (w,v')) :
    ReflTransGen (Change m hard) v v' := by
  have low := (page_low page).1
  have whole : va / nbpg * nbpg = va := Nat.div_mul_cancel (Nat.dvd_of_mod_eq_zero alignedVa)
  obtain ⟨i,info,ran⟩ := bind_some ran
  obtain ⟨v₁,wiredUp⟩ : ∃ v₁, v₁ = if wired = true then v.setInfo .kernel {i with wiredCount := i.wiredCount + 1} else v := ⟨_,rfl⟩
  rw [← wiredUp] at ran
  have first : ReflTransGen (Change m hard) v v₁ ∧ Sound v₁ ∧ v₁.pte = v.pte ∧ v₁.pv = v.pv ∧ v₁.attrs = v.attrs := by
    rw [wiredUp]
    split
    · exact ⟨.single (.count v i _ info rfl),⟨by simp [Space.setInfo],sound.aligned⟩,rfl,rfl,rfl⟩
    · exact ⟨.refl,sound,rfl,rfl,rfl⟩
  obtain ⟨steps,sound₁,pte₁,pv₁,attrs₁⟩ := first
  -- The word goes in last, when the entry of `pg` is still listed.
  have finish (v₂ : Space) (steps₂ : ReflTransGen (Change m hard) v v₂) (listed : (kernel,va) ∈ v₂.pv pg) (attrs₂ : v₂.attrs = v.attrs)
      (ran : (do
        let i ← v₂.info .kernel
        some (kernelWord code prot (v.attrs pg) pa wired,(if has (v₂.pte .kernel (va / nbpg)) avr32PteValid = false then
            v₂.setInfo .kernel {i with residentCount := i.residentCount + 1} else v₂).setPte .kernel (va / nbpg)
              (kernelWord code prot (v.attrs pg) pa wired))) = some (w,v')) :
      ReflTransGen (Change m hard) v v' := by
    obtain ⟨k,held,ran⟩ := bind_some ran
    obtain ⟨v₃,counted⟩ : ∃ v₃, v₃ = if has (v₂.pte .kernel (va / nbpg)) avr32PteValid = false then
        v₂.setInfo .kernel {k with residentCount := k.residentCount + 1} else v₂ := ⟨_,rfl⟩
    rw [← counted] at ran
    have last : ReflTransGen (Change m hard) v v₃ ∧ v₃.pv = v₂.pv ∧ v₃.attrs = v₂.attrs := by
      rw [counted]
      split
      · exact ⟨steps₂.tail (.count v₂ k _ held rfl),rfl,rfl⟩
      · exact ⟨steps₂,rfl,rfl⟩
    obtain ⟨steps₃,pv₃,attrs₃⟩ := last
    cases ran
    refine steps₃.tail (.write v₃ (va / nbpg) _ (fun pg' _ dirty frame => ?_) (.inr fun valid => ?_))
    · rw [kernelWord_dirty chosen alignedPa low,decide_eq_true_eq] at dirty
      rw [kernelWord_frame chosen alignedPa low,BitVec.toNat_ofNat,Nat.mod_eq_of_lt (Nat.lt_trans low (by decide))] at frame
      have mine : pg' = pg := by
        have number := (page_low page).2
        simp only [nbpg] at *
        omega
      subst pg'
      rw [whole,pv₃,attrs₃,attrs₂]
      exact ⟨dirty.2,listed⟩
    rw [kernelWord_valid chosen alignedPa low] at valid
    cases valid
  by_cases range : InRange m va .kernel
  · rw [if_pos range] at ran
    by_cases moved : has (v₁.pte .kernel (va / nbpg)) avr32PteValid = true ∧ avr32TlbpfnToPaddr (v₁.pte .kernel (va / nbpg)) ≠ BitVec.ofNat 32 pa
    · rw [if_pos moved] at ran
      obtain ⟨v₂,removed,ran⟩ := bind_some ran
      obtain ⟨k,info₁,_,⟨invalid,_⟩ | ⟨valid,rfl⟩⟩ := removeOne_parts sound₁ removed
      · rw [moved.1] at invalid
        cases invalid
      have attrs₂ : (v₁.evict m .kernel va k).attrs = v₁.attrs := unmapped_attrs ..
      refine finish _ (steps.tail (.evict v₁ va k info₁ alignedVa valid)) ?_ (attrs₂.trans attrs₁) ?_
      · rw [Space.evict,unmapped_pv]
        cases found : physToVmPage m (avr32TlbpfnToPaddr (v₁.pte .kernel (va / nbpg))).toNat with
        | none => rwa [pv₁]
        | some pg' =>
          have apart := other_page page alignedPa moved.2 found
          dsimp only
          rwa [update_of_ne (Ne.symm apart),pv₁]
      · exact ran
    rw [if_neg moved,some_bind] at ran
    exact finish v₁ steps (by rw [pv₁]; exact member) attrs₁ ran
  · rw [if_neg range] at ran
    cases ran

theorem enterPte_range (ran : v.enterPte m pmap va w npte wired = some r) : InRange m va pmap := by
  obtain ⟨i,_,ran⟩ := bind_some ran
  dsimp only at ran
  split at ran
  · assumption
  · cases ran

theorem enter_change (sound : Sound v) (alignedVa : va % nbpg = 0) (alignedPa : pa % nbpg = 0)
    (ran : v.enter m fuel pmap va pa prot flags mem = some (r,v')) : ReflTransGen (Change m hard) v v' := by
  have evicts (pg : Nat) (v₀ v₁ : Space) (steps : ReflTransGen (Evicts m va pg) v₀ v₁) : ReflTransGen (Change m hard) v₀ v₁ :=
    steps.lift id fun _ _ => evicts_change
  cases pmap with
  | user n =>
    exact enter_steps (fun _ _ => .user) (fun pg v₀ v₁ _ => evicts pg v₀ v₁) sound alignedVa alignedPa (.inl trivial) ran
  | kernel =>
    obtain ⟨pg,page,ran⟩ := bind_some ran
    obtain ⟨code,chosen,ran⟩ := bind_some ran
    have code' : pteProt .kernel prot = .ok code := by
      cases got : pteProt .kernel prot with
      | error e => rw [got] at chosen; cases chosen
      | ok c => rw [got] at chosen; cases chosen; rfl
    obtain ⟨v₁,listed,ran⟩ := bind_some ran
    obtain ⟨⟨w,v₃⟩,entered,ran⟩ := bind_some ran
    obtain ⟨i,_,ran⟩ := bind_some ran
    cases ran
    obtain ⟨bits,grown⟩ := enterAttrs_grow flags (v.attrs pg)
    have marked : Change m hard v {v with attrs := update v.attrs pg (enterAttrs flags (v.attrs pg))} := by
      rw [grown]
      exact .user (.mark v pg bits)
    have sound₀ : Sound {v with attrs := update v.attrs pg (enterAttrs flags (v.attrs pg))} := ⟨sound.kernel,sound.aligned⟩
    obtain ⟨v₂,steps,sound₂,_,rfl⟩ := enterPv_parts fuel sound₀ listed
    have attrs : v₂.attrs pg = enterAttrs flags (v.attrs pg) := by
      rw [(evicts_frame .kernel steps alignedVa).2]
      exact update_self ..
    have inserted : Change m hard v₂ {v₂ with pv := update v₂.pv pg (insertPv (.kernel,va) (v₂.pv pg))} := .list v₂ va pg (enterPte_range entered)
    have member : (kernel,va) ∈ update v₂.pv pg (insertPv (.kernel,va) (v₂.pv pg)) pg := by
      rw [update_self,insertPv_mem]
      exact .inl rfl
    rw [← attrs] at entered
    have written : ReflTransGen (Change m hard) _ v₃ := kernelTail_change (sound_insert sound₂ alignedVa .kernel pg) alignedVa alignedPa page code' member _ entered
    exact (((ReflTransGen.head marked (evicts pg _ _ steps)).tail inserted).trans written).tail (.flush _ _ (update_mmu ..))

theorem pageRemoveAll_change (wf : Wf s) (ran : pageRemoveAll m k pv s = .ok s') : ReflTransGen (Change m hard) (view m s) (view m s') := by
  induction k generalizing pv s with
  | zero => cases ran
  | succ k ih =>
    obtain ⟨e,got,ran⟩ := bind_ok ran
    split at ran
    · cases ran
    next pmap owner =>
    obtain ⟨s₁,removed,ran⟩ := bind_ok ran
    have aligned := entry_aligned wf got owner
    have rep := wf.rep m
    obtain ⟨v',gone,wf₁,same,_⟩ := (pmapRemove_sim rep aligned).forward removed
    subst same
    obtain ⟨e₁,_,ran⟩ := bind_ok ran
    have one : ReflTransGen (Change m hard) (view m s) (view m s₁) := remove_change aligned gone
    split at ran
    · cases ran
      exact one
    · exact one.trans (ih wf₁ ran)

theorem pageProtect_change (wf : Wf s) (ran : pmapPageProtect m pg prot s = .ok s') : ReflTransGen (Change m hard) (view m s) (view m s') := by
  unfold pmapPageProtect at ran
  iterate 4
    split at ran
    · cases ran
  split at ran
  · cases ran
    exact .refl
  · exact pageRemoveAll_change wf ran

theorem getPte_range (got : getPte m s (sysPte va) = .ok w) : kvInRange m va := by
  dsimp only [getPte,sysPte] at got
  split at got
  · next index => exact (kvtopte_range m va).mp index
  · cases got

theorem kernelWrite_change (hard : Prop) (wf : Wf s) (range : kvInRange m va) (w : Word) (u : Mmu) (mmu : ∃ tlb, u = {s.mmu with tlb := tlb})
    (recorded : ∀ pg, has w avr32PteValid = false → has w avr32PgDirty = true → (avr32TlbpfnToPaddr w).toNat = pg * nbpg →
      has (s.attrs pg) pvModified = true ∧ (kernel,va / nbpg * nbpg) ∈ pvList s pg)
    (steady : hard ∨ (has w avr32PteValid = true → has (pteAt m s .kernel (va / nbpg)) avr32PteValid = true)) :
    Wf ((s.setPte w (sysPte va)).setMmu u) ∧ ReflTransGen (Change m hard) (view m s) (view m ((s.setPte w (sysPte va)).setMmu u)) := by
  have rep := wf.rep m
  have points : Points (segPage s) (sysPte va) .kernel va := rfl
  have cur : u.cur = (s.setPte w (sysPte va)).mmu.cur := by
    obtain ⟨tlb,rfl⟩ := mmu
    rfl
  obtain ⟨wf',same,_⟩ := setMmu_rep (setPte_rep rep points range w) cur
  have one : Change m hard (view m s) ((view m s).setPte .kernel (va / nbpg) w) := .write _ _ _ recorded steady
  refine ⟨wf',?_⟩
  rw [same]
  exact (ReflTransGen.single one).tail (.flush _ _ mmu)

theorem kenter_change (allowed : hard) (wf : Wf s) (ran : pmapKenterPa m va pa prot s = .ok s') : ReflTransGen (Change m hard) (view m s) (view m s') := by
  unfold pmapKenterPa at ran
  split at ran
  · obtain ⟨code,_,ran⟩ := bind_ok ran
    obtain ⟨_,got,ran⟩ := bind_ok ran
    cases ran
    refine (kernelWrite_change hard wf (getPte_range got) _ _ (update_mmu ..) (fun pg invalid => ?_) (.inl allowed)).2
    have valid : has (avr32PaddrToTlbpfn (BitVec.ofNat 32 pa) ||| avr32PteValid ||| avr32PteWired ||| avr32PgSize4K
        ||| avr32PgGlobal ||| avr32PgCached ||| code) avr32PteValid = true := by
      simp only [has_valid,BitVec.getLsbD_or,valid_bit (show 31 < 32 by decide)]
      simp
    split at invalid
    · have dirtied := has_grow avr32PgDirty valid
      rw [dirtied] at invalid
      cases invalid
    rw [valid] at invalid
    cases invalid
  · cases ran

theorem eachPte_kernel (m : Machine) {P : State → Prop} {body : Nat → PteRef → State → Except Halt State}
    (one : ∀ va s s', P s → body va (sysPte va) s = .ok s' → P s' ∧ kvInRange m va) (holds : P s)
    (ran : eachPte body k sva eva (sysPte sva) s = .ok (last,s')) : P s' := by
  induction k generalizing sva s with
  | zero => cases ran
  | succ k ih =>
    unfold eachPte at ran
    split at ran
    · obtain ⟨s₁,first,rest⟩ := bind_ok ran
      obtain ⟨kept,range⟩ := one _ _ _ holds first
      have here : Points (segPage s) (sysPte sva) .kernel sva := rfl
      have next : (sysPte sva).next = sysPte (sva + nbpg) := kernel_advance here range
      rw [next] at rest
      exact ih kept rest
    cases ran
    exact holds

theorem tbis_mmu (ran : avr32Tbis tlbehi tlbelo u = .ok u') : ∃ tlb, u' = {u with tlb := tlb} := by
  unfold avr32Tbis at ran
  split at ran
  · cases ran
  split at ran
  · cases ran
  cases ran
  exact ⟨_,rfl⟩

theorem kremove_change (wf : Wf s) (ran : pmapKremove m va len s = .ok s') : ReflTransGen (Change m hard) (view m s) (view m s') := by
  obtain ⟨⟨last,s₁⟩,loop,done⟩ := bind_ok ran
  cases done
  refine (eachPte_kernel m (P := fun s' => Wf s' ∧ ReflTransGen (Change m hard) (view m s) (view m s')) ?_ ⟨wf,.refl⟩ loop).2
  rintro va s₁ s₂ ⟨wf₁,steps⟩ ran
  obtain ⟨entry,got,ran⟩ := bind_ok ran
  refine ⟨?_,getPte_range got⟩
  split at ran
  · cases ran
    exact ⟨wf₁,steps⟩
  obtain ⟨u,flushed,ran⟩ := bind_ok ran
  cases ran
  have clean : has (avr32PteInvalid ||| avr32PgGlobal) avr32PgDirty = false ∧ has (avr32PteInvalid ||| avr32PgGlobal) avr32PteValid = false := by decide
  obtain ⟨wf₂,one⟩ := kernelWrite_change hard wf₁ (getPte_range got) (avr32PteInvalid ||| avr32PgGlobal) u (tbis_mmu flushed)
    (fun pg _ dirty => by rw [clean.1] at dirty; cases dirty) (.inr fun valid => by rw [clean.2] at valid; cases valid)
  exact ⟨wf₂,steps.trans one⟩

theorem clearModify_change (wf : Wf s) (ledger : Ledger m (view m s)) (ran : pmapClearModify m pg s = .ok (r,s')) :
    ReflTransGen (Change m hard) (view m s) (view m s') := by
  have rep := wf.rep m
  obtain ⟨⟨r',v'⟩,cleared,_,wf',same,_⟩ := (pmapClearModify_sim rep ledger.tags.2.2.2 pg).forward ran
  subst same
  have aligned : ∀ key ∈ (view m s).pv pg, key.2 % nbpg = 0 := fun key member => view_aligned wf pg key member
  cases modified : has ((view m s).attrs pg) pvModified with
  | false =>
    rw [clearModify_plain modified] at cleared
    have same : view m s = view m s' := congrArg Prod.snd (Option.some.inj cleared)
    rw [← same]
  | true =>
    rw [clearModify_swept modified (clearModify_only modified aligned cleared) aligned] at cleared
    have same : (view m s).cleanedPage pg = view m s' := congrArg Prod.snd (Option.some.inj cleared)
    rw [← same]
    exact .single (.clean _ pg)

theorem effect_change (effect : Effect m True op v v') : ReflTransGen (Change m hard) v v' := by
  rcases effect_cases effect with steps | ⟨pmap,i,_,info,rfl⟩
  · exact micros_change steps
  · exact .single (.switch v pmap i info)

theorem step_change (hard : Prop) (wf : Wf s) (ledger : Ledger m (view m s)) (allowed : Allowed m s op) (soft : hard ∨ ∀ va pa prot, op ≠ .kenterPa va pa prot)
    (ran : step m fuel s op = .ok s') : ReflTransGen (Change m hard) (view m s) (view m s') := by
  have rep := wf.rep m
  have plain (user : UserOp op) (other : ∀ pmap va pa prot flags mem, op ≠ .enter pmap va pa prot flags mem) :
      ReflTransGen (Change m hard) (view m s) (view m s') := effect_change (step_plain True wf user allowed other ran).2
  cases op with
  | create | activate pmap | tlbMiss va | tlbMod va => exact plain trivial nofun
  | destroy pmap => exact plain allowed.1 nofun
  | reference pmap =>
    obtain ⟨v',got,_,same⟩ := (pmapReference_sim (m := m) wf).forward ran
    obtain ⟨i,info,rfl⟩ := Option.map_eq_some_iff.mp got
    rw [same]
    exact .single (.user (.count _ pmap i _ info))
  | enter pmap va pa prot flags mem =>
    obtain ⟨⟨r,s₁⟩,entered,done⟩ := bind_ok ran
    cases done
    obtain ⟨⟨r',v'⟩,got,_,tab,_,same,_⟩ := (pmapEnter_sim fuel rep allowed.1).forward entered
    subst same
    exact enter_change (view_sound wf) allowed.1 allowed.2 got
  | remove pmap sva eva =>
    obtain ⟨v',got,_,same,_⟩ := (pmapRemove_sim rep allowed).forward ran
    subst same
    exact remove_change allowed got
  | protect pmap sva eva prot =>
    obtain ⟨v',got,_,same,_⟩ := (pmapProtect_sim rep allowed).forward ran
    subst same
    exact protect_change allowed got
  | kenterPa va pa prot => exact kenter_change (soft.resolve_right fun none_ => none_ va pa prot rfl) wf ran
  | kremove va len => exact kremove_change wf ran
  | pageProtect pg prot => exact pageProtect_change wf ran
  | clearModify pg =>
    obtain ⟨⟨r,s₁⟩,cleared,done⟩ := bind_ok ran
    cases done
    exact clearModify_change wf ledger cleared

theorem Ledger.changes (ledger : Ledger m v) (steps : ReflTransGen (Change m hard) v v') : Ledger m v' := by
  induction steps with
  | refl => exact ledger
  | tail _ last ih => exact ih.change last

theorem KernelIdle.changes (idle : KernelIdle v) (steps : ReflTransGen (Change m False) v v') : KernelIdle v' := by
  induction steps with
  | refl => exact idle
  | tail _ last ih => exact ih.change last

theorem initial_ledger : Ledger m (view m initial) where
  listed := (mirror_exact.mp initial_mirror).1
  kernel := fun _ _ member => absurd member List.not_mem_nil
  dirty := initial_dirty
  entered := fun vpn pg _ dirty => by
    have zero : (view m initial).pte .kernel vpn = 0#32 := initial_kernel vpn
    rw [zero,has_zero] at dirty
    cases dirty
  tags := by
    refine ⟨rfl,Nat.le_refl 1,show 1 ≤ 256 by decide,fun q i held => ?_⟩
    dsimp only [view,initial] at held
    split at held
    · cases held
      decide
    · cases held

theorem run_ledger (run : Run m (Allowed m) rolls s) : Ledger m (view m s) := by
  induction run with
  | start => exact initial_ledger
  | step before ok ran ih => exact ih.changes (step_change True (reached_wf before) ih ok (.inl trivial) ran)

def Soft (m : Machine) (s : State) (op : Op) : Prop := Allowed m s op ∧ ∀ va pa prot, op ≠ .kenterPa va pa prot

theorem soft_allowed (run : Run m (Soft m) rolls s) : Run m (Allowed m) rolls s := by
  induction run with
  | start => exact .start
  | step _ ok ran ih => exact ih.step ok.1 ran

theorem run_idle (run : Run m (Soft m) rolls s) : KernelIdle (view m s) := by
  induction run with
  | start =>
    intro vpn
    rw [initial_kernel]
    exact has_zero _
  | step before ok ran ih =>
    have allowed := soft_allowed before
    exact ih.changes (step_change False (reached_wf allowed) (run_ledger allowed) ok.1 (.inr ok.2) ran)

theorem user_operation_refines (run : Run m (UserAllowed m) rolls s) (ok : UserAllowed m s op) (ran : step m fuel s op = .ok s') :
    Wf s' ∧ Effect m (Rewires m s op) op (view m s) (view m s') := by
  obtain ⟨wf,quiet⟩ := run_wf run (fun _ _ ok => ok)
  exact step_micro _ wf quiet ok.1 ok.2 (Classical.em _) ran

theorem user_operation_refines_one : ∃ s op, op = .enter (.user 0) 0x1000 0x1000 3 0 true ∧ Wf onePage ∧
    Effect smallMachine (Rewires smallMachine s op) op (view smallMachine s) (view smallMachine onePage) := by
  have created : Run smallMachine (UserAllowed smallMachine) _ (afterOp smallMachine 1 initial .create) :=
    run_next 1 .create .start ⟨trivial,trivial⟩ rfl
  exact ⟨_,_,rfl,user_operation_refines created ⟨by simp [UserOp],rfl,rfl⟩ (show step smallMachine 1 _ _ = .ok onePage from rfl)⟩

-- What the operations on kernel mappings, pmap_page_protect and pmap_clear_modify leave of it as well.
theorem module_books (run : Run m (Allowed m) rolls s) (managed : m.managed pg = true) :
    (∀ n va, va % nbpg = 0 → (pvList s pg).count (.user n,va) = if MapsPage m s n va pg then 1 else 0) ∧
    (∀ va, (kernel,va) ∈ pvList s pg → va % nbpg = 0 ∧ kvInRange m va ∧ (pvList s pg).count (kernel,va) = 1) ∧
    (∀ n va, MapsPage m s n va pg → has (pteAt m s (.user n) (va / nbpg)) avr32PgDirty = true →
      has (s.attrs pg) pvModified = true ∧ avr32ReadOnlyPte (pteAt m s (.user n) (va / nbpg)) = false) ∧
    (∀ vpn, has (pteAt m s .kernel vpn) avr32PteValid = false → has (pteAt m s .kernel vpn) avr32PgDirty = true →
      (avr32TlbpfnToPaddr (pteAt m s .kernel vpn)).toNat = pg * nbpg → has (s.attrs pg) pvModified = true ∧ (kernel,vpn * nbpg) ∈ pvList s pg) ∧
    ∀ pmap p, s.pmaps pmap = some p → p.pmAsid < 256 := by
  have ledger := run_ledger run
  have nodup : (pvList s pg).Nodup := ledger.listed.nodup pg
  refine ⟨fun n va aligned => ?_,fun va member => ⟨?_,ledger.kernel pg va member,List.count_eq_one_of_mem nodup member⟩,
    fun n va maps dirty => ?_,fun vpn => ledger.entered vpn pg,fun pmap p held => ?_⟩
  · have here := ledger.listed.user pg n (va / nbpg)
    rw [Nat.div_mul_cancel (Nat.dvd_of_mod_eq_zero aligned),← mapsPage_exact managed] at here
    split_ifs with maps
    · exact List.count_eq_one_of_mem nodup (here.mpr maps)
    · exact List.count_eq_zero_of_not_mem (fun member => maps (here.mp member))
  · have sound : Sound (view m s) := view_sound (reached_wf run)
    exact sound.aligned pg _ member
  · have write : has (pteAt m s (.user n) (va / nbpg)) avr32PgAccessRw = true := ledger.dirty.writable n _ dirty
    exact ⟨ledger.dirty.recorded n _ pg ((mapsPage_exact managed).mp maps) dirty,by simp [avr32ReadOnlyPte,write]⟩
  · exact ledger.tags.2.2.2 pmap p.toInfo (by simp [view,held])

theorem module_books_one : (pvList onePage 1).count (.user 0,0x1000) = if MapsPage smallMachine onePage 0 0x1000 1 then 1 else 0 := by
  have created : Run smallMachine (Allowed smallMachine) _ (afterOp smallMachine 1 initial .create) := run_next 1 .create .start trivial rfl
  have run : Run smallMachine (Allowed smallMachine) _ onePage := run_next 1 (.enter (.user 0) 0x1000 0x1000 3 0 true) created ⟨rfl,rfl⟩ rfl
  exact (module_books run rfl).1 0 0x1000 rfl
end NetbsdAvr32.Avr32
