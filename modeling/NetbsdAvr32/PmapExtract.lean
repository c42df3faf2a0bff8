import NetbsdAvr32.PmapRun

namespace NetbsdAvr32.Avr32
open Function Outcome Relation Option Nat
variable {m : Machine} {s s' : State} {v v' : Space} {pmap : PmapRef} {n va vpn pa pg rolls : Nat} {i : Info} {w : Word}
  {p : Pmap}

theorem setPte_wf (wf : Wf s) (w : Word) (pte : PteRef) : Wf (s.setPte w pte) := by
  cases pte <;> exact wf.data rfl

theorem eachPte_keeps {P : State → Prop} {body : Nat → PteRef → State → Except Halt State}
    (one : ∀ va pte s s', P s → body va pte s = .ok s' → P s') (holds : P s)
    (ran : eachPte body k sva eva pte s = .ok (last,s')) : P s' := by
  induction k generalizing sva pte s with
  | zero => cases ran
  | succ k ih =>
    unfold eachPte at ran
    split at ran
    · obtain ⟨s₁,first,rest⟩ := bind_ok ran
      exact ih (one _ _ _ _ holds first) rest
    cases ran
    exact holds

theorem tbis_cur (ran : avr32Tbis tlbehi tlbelo u = .ok u') : u'.cur = u.cur := by
  unfold avr32Tbis at ran
  split at ran
  · cases ran
  split at ran
  · cases ran
  · cases ran; rfl

section
variable (wf : Wf s)
include wf

theorem pmapKenterPa_wf (ran : pmapKenterPa m va pa prot s = .ok s') : Wf s' := by
  unfold pmapKenterPa at ran
  split at ran
  · obtain ⟨code,_,ran⟩ := bind_ok ran
    obtain ⟨_,_,ran⟩ := bind_ok ran
    cases ran
    exact wf.data (update_cur _ _ _)
  · cases ran

theorem pmapKremove_wf (ran : pmapKremove m va len s = .ok s') : Wf s' := by
  obtain ⟨⟨last,s₁⟩,loop,done⟩ := bind_ok ran
  cases done
  refine eachPte_keeps (P := Wf) ?_ wf loop
  intro va pte s s' wf ran
  obtain ⟨entry,_,ran⟩ := bind_ok ran
  split at ran
  · cases ran
    exact wf
  obtain ⟨u,flushed,ran⟩ := bind_ok ran
  cases ran
  cases pte <;> exact wf.data (tbis_cur flushed)

theorem pmapRemove_wf (aligned : sva % nbpg = 0) (ran : pmapRemove m pmap sva eva s = .ok s') : Wf s' := by
  have rep := wf.rep m
  obtain ⟨_,_,after,_⟩ := (pmapRemove_sim rep aligned).forward ran
  exact after

theorem entry_aligned (got : s.getPv pv = .ok e) (owner : e.pvPmap = some pmap) : e.pvVa % nbpg = 0 := by
  cases pv with
  | header pg =>
    cases got
    exact wf.headAligned pg pmap _ (by simp [PvEntry.key,owner])
  | node n =>
    have live : s.pvNode n = some e := by
      unfold State.getPv at got
      dsimp only at got
      split at got
      · rename_i e' here
        cases got
        exact here
      · cases got
    obtain ⟨_,_,key,aligned⟩ := wf.nodeKeys n e live
    simp only [PvEntry.key,owner,map_some,some.injEq,Prod.mk.injEq] at key
    rw [key.2]
    exact aligned

theorem pageRemoveAll_wf (ran : pageRemoveAll m k pv s = .ok s') : Wf s' := by
  induction k generalizing pv s with
  | zero => cases ran
  | succ k ih =>
    obtain ⟨e,got,ran⟩ := bind_ok ran
    split at ran
    · cases ran
    rename_i pmap owner
    obtain ⟨s₁,removed,ran⟩ := bind_ok ran
    have wf₁ := pmapRemove_wf wf (entry_aligned wf got owner) removed
    obtain ⟨e₁,_,ran⟩ := bind_ok ran
    split at ran
    · cases ran
      exact wf₁
    · exact ih wf₁ ran

theorem pmapPageProtect_wf (ran : pmapPageProtect m pg prot s = .ok s') : Wf s' := by
  unfold pmapPageProtect at ran
  split at ran
  · cases ran
  split at ran
  · cases ran
  split at ran
  · cases ran
  split at ran
  · cases ran
  split at ran
  · cases ran
    exact wf
  · exact pageRemoveAll_wf wf ran

theorem clearModifyPte_wf (ran : clearModifyPte m pmap va s = .ok s') : Wf s' := by
  obtain ⟨p,_,ran⟩ := bind_ok ran
  obtain ⟨pte,_,ran⟩ := bind_ok ran
  obtain ⟨entry,_,ran⟩ := bind_ok ran
  split at ran
  · cases ran
    exact wf
  by_cases current : p.pmAsidgen = (s.setPte (entry &&& ~~~avr32PgDirty) pte).mmu.asidGeneration
  · rw [if_pos current] at ran
    obtain ⟨u,flushed,ran⟩ := bind_ok ran
    cases ran
    have same : u.cur = s.mmu.cur := by
      have kept := tbis_cur flushed
      cases pte <;> exact kept
    cases pte <;> exact wf.data same
  rw [if_neg current] at ran
  cases ran
  exact setPte_wf wf _ pte

theorem clearModifyAll_wf (ran : clearModifyAll m k pv s = .ok s') : Wf s' := by
  induction k generalizing pv s with
  | zero => cases ran
  | succ k ih =>
    obtain ⟨e,_,ran⟩ := bind_ok ran
    split at ran
    · cases ran
    obtain ⟨s₁,cleared,ran⟩ := bind_ok ran
    have wf₁ := clearModifyPte_wf wf cleared
    split at ran
    · cases ran
      exact wf₁
    · exact ih wf₁ ran

theorem pmapClearModify_wf (ran : pmapClearModify m pg s = .ok (r,s')) : Wf s' := by
  have marked : Wf {s with attrs := update s.attrs pg (s.attrs pg &&& ~~~pvModified)} := wf.data rfl
  unfold pmapClearModify at ran
  dsimp only at ran
  split at ran
  · cases ran
    exact marked
  split at ran
  · cases ran
    exact marked
  obtain ⟨s₁,all,ran⟩ := bind_ok ran
  cases ran
  exact clearModifyAll_wf marked all

theorem step_wf (allowed : Allowed m s op) (ran : step m fuel s op = .ok s') : Wf s' := by
  have rep := wf.rep m
  cases op with
  | create =>
    obtain ⟨s₁,made,wf₁,_⟩ := pmapCreate_ok m wf
    have equal : s₁ = s' := Except.ok.inj (made.symm.trans ran)
    exact equal ▸ wf₁
  | reference pmap =>
    obtain ⟨_,_,after,_⟩ := (pmapReference_sim (m := m) wf).forward ran
    exact after
  | destroy pmap =>
    cases pmap with
    | kernel => exact absurd rfl allowed.1
    | user n =>
      obtain ⟨_,_,after,_⟩ := (pmapDestroy_sim (m := m) wf (fun p live last => (allowed.2 p live last).1)).forward ran
      exact after
  | enter pmap va pa prot flags mem =>
    obtain ⟨⟨r,s₁⟩,entered,done⟩ := bind_ok ran
    cases done
    obtain ⟨_,_,_,_,after,_⟩ := (pmapEnter_sim fuel rep allowed.1).forward entered
    exact after
  | remove pmap sva eva => exact pmapRemove_wf wf allowed ran
  | protect pmap sva eva prot =>
    obtain ⟨_,_,after,_⟩ := (pmapProtect_sim rep allowed).forward ran
    exact after
  | activate pmap =>
    obtain ⟨_,_,after,_⟩ := (pmapActivate_sim (m := m) wf).forward ran
    exact after
  | tlbMiss va =>
    obtain ⟨found,loaded,done⟩ := bind_ok ran
    obtain ⟨_,_,after,_⟩ := (usertlbmiss_sim (m := m) wf).forward loaded
    cases done
    exact after
  | tlbMod va =>
    obtain ⟨_,_,after,_⟩ := (trapTlbMod_sim (m := m) wf).forward ran
    exact after
  | kenterPa va pa prot => exact pmapKenterPa_wf wf ran
  | kremove va len => exact pmapKremove_wf wf ran
  | pageProtect pg prot => exact pmapPageProtect_wf wf ran
  | clearModify pg =>
    obtain ⟨⟨r,s₁⟩,cleared,done⟩ := bind_ok ran
    cases done
    exact pmapClearModify_wf wf cleared
end

theorem reached_wf (run : Run m (Allowed m) rolls s) : Wf s := by
  induction run with
  | start => exact initial_wf
  | step _ ok ran ih => exact step_wf ih ok ran

def extractWord (pmap : PmapRef) (va : Nat) (w : Word) : Except Halt (Option Nat) :=
  if pmap = .kernel ∧ avr32P1Start ≤ va ∧ va < avr32P2Start then .ok (some (va &&& avr32PhysMask))
  else if has w avr32PteValid = false then .ok none
  else .ok (some ((avr32TlbpfnToPaddr w ||| BitVec.ofNat 32 (va % nbpg)).toNat))

theorem extract_kernel (wf : Wf s) (range : kvInRange m va) :
    pmapExtract m .kernel va s = extractWord .kernel va (pteAt m s .kernel (va / nbpg)) := by
  have rep := wf.rep m
  have points : Points (segPage s) (sysPte va) .kernel va := rfl
  have read := getPte_sim rep points
  have inside : InRange m va .kernel := range
  rw [if_pos inside] at read
  obtain ⟨w,got,rfl⟩ := read.backward rfl
  unfold pmapExtract extractWord
  simp only [↓reduceIte]
  split
  · rfl
  rw [ok_bind]
  dsimp only
  rw [got]
  rfl

theorem extract_user (wf : Wf s) (live : (s.pmaps (.user n)).isSome) (below : va < vmMaxuserAddress) :
    pmapExtract m (.user n) va s = extractWord (.user n) va (pteAt m s (.user n) (va / nbpg)) := by
  have rep := wf.rep m
  have seg : va / nbpg / nptepg = va / nbseg := by simp only [nbpg,nptepg,nbseg]; omega
  have info : ((view m s).info (.user n)).isSome := by simpa [view] using live
  have lookup := segmap_sim rep n va
  simp only [info,below,and_self,↓reduceIte] at lookup
  obtain ⟨_,ran,rfl⟩ := lookup.backward rfl
  unfold pmapExtract extractWord
  simp only [reduceCtorEq,false_and,↓reduceIte]
  rw [ran,ok_bind]
  cases found : segPage s (.user n) (va / nbseg) with
  | none =>
    have zero : pteAt m s (.user n) (va / nbpg) = 0#32 := by simp [pteAt,seg,found]
    simp [zero,has_zero]
  | some page =>
    have points : Points (segPage s) (userPte page va) (.user n) va := ⟨below,page,found,rfl⟩
    have inside : InRange m va (.user n) := below
    have read := getPte_sim rep points
    rw [if_pos inside] at read
    obtain ⟨w,got,rfl⟩ := read.backward rfl
    simp only [map_some,ok_bind]
    rw [got]
    rfl

theorem extract_same (wf : Wf s) (wf' : Wf s') (live : (s'.pmaps pmap).isSome = (s.pmaps pmap).isSome)
    (word : pteAt m s' pmap (va / nbpg) = pteAt m s pmap (va / nbpg)) :
    pmapExtract m pmap va s' = pmapExtract m pmap va s := by
  cases pmap with
  | kernel =>
    by_cases range : kvInRange m va
    · rw [extract_kernel wf range,extract_kernel wf' range,word]
    have index : ¬ kvtopte va < m.sysmapsize := fun low => range ((kvtopte_range m va).mp low)
    simp [pmapExtract,getPte,sysPte,index]
  | user n =>
    -- Off the address space both calls stop in pmap_segmap.
    have segmap : ∀ s, Wf s → ¬ ((s.pmaps (.user n)).isSome ∧ va < vmMaxuserAddress) → pmapSegmap (.user n) va s =
        .error (.fault (if (s.pmaps (.user n)).isSome then "seg_tab index" else "pmap freed")) := by
      intro s wf outside
      unfold pmapSegmap State.getPmap
      cases held : s.pmaps (.user n) with
      | none => simp
      | some p =>
        obtain ⟨_,t,owned⟩ := wf.owner n (by simp [held])
        have table : p.pmSegtab = some t := by simpa [segtabOf,held] using owned
        have above : ¬ va / nbseg < pmapSegtabsize := by
          rw [held] at outside
          simp only [isSome_some,true_and,nbseg,pmapSegtabsize,vmMaxuserAddress] at *
          omega
        simp [table,above]
    by_cases inside : (s.pmaps (.user n)).isSome ∧ va < vmMaxuserAddress
    · rw [extract_user wf inside.1 inside.2,extract_user wf' (live.trans inside.1) inside.2,word]
    have inside' : ¬ ((s'.pmaps (.user n)).isSome ∧ va < vmMaxuserAddress) := by rw [live]; exact inside
    unfold pmapExtract
    rw [segmap s wf inside,segmap s' wf' inside',live]
    rfl

theorem evicts_others (steps : ReflTransGen (Evicts m va pg) v v') (pmap : PmapRef) (vpn : Nat) :
    v'.pte pmap vpn = v.pte pmap vpn ∨ Maps m (v.pte pmap vpn) pg := by
  induction steps with
  | refl => exact .inl rfl
  | tail _ last ih =>
    rcases ih with same | maps
    · obtain ⟨⟨owner,addr⟩,i,_,_,_,_,_,valid,page,rfl⟩ := last
      rw [Space.evict,unmapped_pte]
      by_cases mine : pmap = owner
      · subst pmap
        rw [update_self]
        by_cases here : vpn = addr / nbpg
        · subst vpn
          rw [← same]
          exact .inr ⟨valid,page⟩
        rw [update_of_ne here]
        exact .inl same
      rw [update_of_ne mine]
      exact .inl same
    · exact .inr maps

theorem evicts_live (steps : ReflTransGen (Evicts m va pg) v v') (pmap : PmapRef) :
    (v'.info pmap).isSome = (v.info pmap).isSome := by
  induction steps with
  | refl => rfl
  | tail _ last ih =>
    obtain ⟨key,i,_,info,_,_,_,_,_,rfl⟩ := last
    exact (unmapped_info pmap info).trans ih

structure EnterExtracts (m : Machine) (pmap : PmapRef) (va pa : Nat) (s s' : State) : Prop where
  entered : ∀ off, off < nbpg → pmapExtract m pmap (va + off) s' = .ok (some (pa + off))
  others : ∀ pmap' va', (pmap',va' / nbpg) ≠ (pmap,va / nbpg) →
    (∀ x, pmapExtract m pmap' va' s = .ok (some x) → x / nbpg ≠ pa / nbpg) →
    pmapExtract m pmap' va' s' = pmapExtract m pmap' va' s

theorem paddr_off (aligned : pa % nbpg = 0) (low : pa < 2 ^ 29) (small : off < nbpg) :
    (BitVec.ofNat 32 pa ||| BitVec.ofNat 32 off).toNat = pa + off := by
  have shape : pa = 2 ^ 12 * (pa / nbpg) := by simp only [nbpg] at *; omega
  have less : off < 2 ^ 12 := small
  rw [BitVec.toNat_or,BitVec.toNat_ofNat,BitVec.toNat_ofNat,mod_eq_of_lt (by omega),mod_eq_of_lt (by omega)]
  rw [shape]
  exact (two_pow_add_eq_or_of_lt less _).symm

theorem word_extracts (valid : has w avr32PteValid = true) (frame : avr32TlbpfnToPaddr w = BitVec.ofNat 32 pa)
    (aligned : pa % nbpg = 0) (low : pa < 2 ^ 29) (user : pmap ≠ .kernel) :
    extractWord pmap va w = .ok (some (pa + va % nbpg)) := by
  unfold extractWord
  rw [if_neg (fun both => user both.1),valid,frame]
  simp only [Bool.true_eq_false,↓reduceIte]
  rw [paddr_off aligned low (mod_lt _ (by decide))]

theorem maps_extracts (wf : Wf s) (maps : Maps m (pteAt m s pmap (va / nbpg)) pg) :
    ∃ x, pmapExtract m pmap va s = .ok (some x) ∧ x / nbpg = pg := by
  have nonzero : pteAt m s pmap (va / nbpg) ≠ 0#32 := by
    intro zero
    rw [zero] at maps
    exact not_maps (has_zero _) maps
  have value : ∀ w, Maps m w pg → (avr32TlbpfnToPaddr w ||| BitVec.ofNat 32 (va % nbpg)).toNat / nbpg = pg := by
    intro w maps
    obtain ⟨low,number⟩ := page_low maps.2
    have whole : avr32TlbpfnToPaddr w = BitVec.ofNat 32 (avr32TlbpfnToPaddr w).toNat := by simp
    have small : va % nbpg < nbpg := mod_lt _ (by decide)
    have aligned := frame_aligned w
    rw [whole,paddr_off aligned low small]
    simp only [nbpg] at *
    omega
  cases pmap with
  | kernel =>
    have range : kvInRange m va := by
      by_contra outside
      exact nonzero (if_neg outside)
    have above : ¬ (PmapRef.kernel = .kernel ∧ avr32P1Start ≤ va ∧ va < avr32P2Start) := by
      simp only [kvInRange,kernelVpn,vmMinKernelAddress,nbpg,avr32P1Start,avr32P2Start] at *
      omega
    refine ⟨_,?_,value _ maps⟩
    rw [extract_kernel wf range,extractWord,if_neg above,maps.1]
    rfl
  | user n =>
    obtain ⟨_,p,_,held,low⟩ := pte_backed nonzero
    have below : va < vmMaxuserAddress := by
      simp only [nbpg,vmMaxuserAddress] at *
      omega
    refine ⟨_,?_,value _ maps⟩
    rw [extract_user wf (by simp [held]) below,extractWord,if_neg (by simp),maps.1]
    rfl

theorem user_enter_extracts (wf : Wf s) (alignedVa : va % nbpg = 0) (alignedPa : pa % nbpg = 0)
    (ran : pmapEnter m fuel (.user n) va pa prot flags mem s = .ok (0,s')) : EnterExtracts m (.user n) va pa s s' := by
  have rep := wf.rep m
  obtain ⟨⟨r,v'⟩,got,zero,tab,wf',same,_⟩ := (pmapEnter_sim fuel rep alignedVa).forward ran
  subst zero
  subst same
  obtain ⟨pg,code,page,chosen,outcome⟩ := enter_parts (view_sound wf) alignedVa alignedPa got
  rcases outcome with ⟨failed,_⟩ | ⟨_,below,seg,v₁,v₂,i,steps,_,replaced,info,done⟩
  · cases failed
  obtain ⟨low,number⟩ := page_low page
  have word : pteAt m s' = update v₂.pte (.user n) (update (v₂.pte (.user n)) (va / nbpg)
      (userWord code prot (enterAttrs flags ((view m s).attrs pg)) pa (has flags pmapWired))) :=
    congrArg Space.pte done
  have live₂ : ∀ q, (v₂.info q).isSome = ((view m s).info q).isSome := by
    intro q
    have first := evicts_live steps q
    rcases replaced with ⟨rfl,_⟩ | ⟨j,held,_,_,rfl⟩
    · exact first
    · exact (unmapped_info q held).trans first
  have live : ∀ q, (s'.pmaps q).isSome = (s.pmaps q).isSome := by
    intro q
    have infos : (view m s').info = update v₂.info (.user n)
        (some (i.entered (v₂.pte (.user n) (va / nbpg)) (has flags pmapWired))) := congrArg Space.info done
    have here : ((view m s').info q).isSome = ((view m s).info q).isSome := by
      rw [infos,← live₂ q]
      by_cases mine : q = .user n
      · subst q; simp [info]
      · rw [update_of_ne mine]
    simpa [view] using here
  refine ⟨?_,?_⟩
  · intro off small
    have lives : (s'.pmaps (.user n)).isSome := by
      rw [live]
      have := live₂ (.user n)
      rw [info] at this
      simpa [view] using this.symm
    have inside : va + off < vmMaxuserAddress := by
      simp only [nbpg,vmMaxuserAddress] at *
      omega
    have same : (va + off) / nbpg = va / nbpg := by simp only [nbpg] at *; omega
    have rest : (va + off) % nbpg = off := by simp only [nbpg] at *; omega
    rw [extract_user wf' lives inside,same,word,update_self,update_self]
    rw [word_extracts (userWord_valid alignedPa low) (userWord_frame chosen alignedPa low) alignedPa low (by simp),rest]
  intro pmap' va' other unmapped
  refine extract_same wf wf' (live pmap') ?_
  rw [word]
  have kept : v₂.pte pmap' (va' / nbpg) = v₁.pte pmap' (va' / nbpg) := by
    rcases replaced with ⟨rfl,_⟩ | ⟨j,_,_,_,rfl⟩
    · rfl
    rw [Space.evict,unmapped_pte]
    by_cases mine : pmap' = .user n
    · subst pmap'
      have apart : va' / nbpg ≠ va / nbpg := fun equal => other (by rw [equal])
      rw [update_self,update_of_ne apart]
    · rw [update_of_ne mine]
  have final : update v₂.pte (.user n) (update (v₂.pte (.user n)) (va / nbpg)
      (userWord code prot (enterAttrs flags ((view m s).attrs pg)) pa (has flags pmapWired))) pmap' (va' / nbpg) =
      v₂.pte pmap' (va' / nbpg) := by
    by_cases mine : pmap' = .user n
    · subst pmap'
      have apart : va' / nbpg ≠ va / nbpg := fun equal => other (by rw [equal])
      rw [update_self,update_of_ne apart]
    · rw [update_of_ne mine]
  rw [final,kept]
  rcases evicts_others steps pmap' (va' / nbpg) with old | maps
  · exact old
  obtain ⟨x,shown,equal⟩ := maps_extracts wf maps
  exact absurd (equal.trans number.symm) (unmapped x shown)

-- The kernel half of pmap_enter sets AVR32_PG_VALID, which is not the bit
-- pmap_extract looks at.
theorem kernelWord_invalid (chosen : pteProt .kernel prot = .ok code) (aligned : pa % nbpg = 0) (low : pa < 2 ^ 29)
    (wired : Bool) :
    has (enterWord (kernelPte (enterBits code prot attrs) (BitVec.ofNat 32 pa)) wired) avr32PteValid = false :=
  kernelWord_valid chosen aligned low

theorem kernel_enter_word (ran : v.enter m fuel .kernel va pa prot flags mem = some (r,v')) :
    ∃ pg code attrs, physToVmPage m pa = some pg ∧ pteProt .kernel prot = .ok code ∧
      v'.pte .kernel (va / nbpg) = enterWord (kernelPte (enterBits code prot attrs) (BitVec.ofNat 32 pa))
        (has flags pmapWired) := by
  obtain ⟨pg,page,ran⟩ := bind_some ran
  obtain ⟨code,chosen,ran⟩ := bind_some ran
  have code' : pteProt .kernel prot = .ok code := by
    cases got : pteProt .kernel prot with
    | error e => rw [got] at chosen; cases chosen
    | ok c => rw [got] at chosen; cases chosen; rfl
  obtain ⟨v₁,_,ran⟩ := bind_some ran
  obtain ⟨⟨w,v₂⟩,entered,ran⟩ := bind_some ran
  obtain ⟨i,_,ran⟩ := bind_some ran
  cases ran
  refine ⟨pg,code,enterAttrs flags (v.attrs pg),page,code',?_⟩
  obtain ⟨j,_,entered⟩ := bind_some entered
  dsimp only at entered
  generalize (if has flags pmapWired = true then v₁.setInfo .kernel {j with wiredCount := j.wiredCount + 1} else v₁) = u
    at entered
  split at entered
  · split at entered
    · obtain ⟨v₃,_,entered⟩ := bind_some entered
      obtain ⟨k,_,entered⟩ := bind_some entered
      cases entered
      simp only [Space.setMmu,Space.setPte,update_self]
      rfl
    rw [some_bind] at entered
    obtain ⟨k,_,entered⟩ := bind_some entered
    cases entered
    simp only [Space.setMmu,Space.setPte,update_self]
    rfl
  · cases entered

def PmapRange (m : Machine) (va : Nat) : PmapRef → Prop
  | .kernel => vmMinKernelAddress ≤ va ∧ va < virtualEnd m
  | .user _ => va < vmMaxuserAddress

theorem kernel_enter_lost (wf : Wf s) (range : PmapRange m va .kernel) (alignedVa : va % nbpg = 0)
    (alignedPa : pa % nbpg = 0) (ran : pmapEnter m fuel .kernel va pa prot flags mem s = .ok (r,s')) :
    pmapExtract m .kernel va s' = .ok none := by
  have rep := wf.rep m
  obtain ⟨⟨r',v'⟩,got,_,tab,wf',same,_⟩ := (pmapEnter_sim fuel rep alignedVa).forward ran
  dsimp only at same wf'
  obtain ⟨pg,code,attrs,page,chosen,word⟩ := kernel_enter_word got
  have low := (page_low page).1
  have inside : kvInRange m va := by
    simp only [PmapRange,virtualEnd,kvInRange,kernelVpn,vmMinKernelAddress,nbpg] at *
    omega
  have above : ¬ (PmapRef.kernel = .kernel ∧ avr32P1Start ≤ va ∧ va < avr32P2Start) := by
    simp only [PmapRange,vmMinKernelAddress,avr32P1Start,avr32P2Start] at *
    omega
  have entry : pteAt m s' .kernel (va / nbpg) = v'.pte .kernel (va / nbpg) := by rw [← same]; rfl
  rw [extract_kernel wf' inside,extractWord,if_neg above,entry,word,kernelWord_invalid chosen alignedPa low]
  rfl

theorem enter_extracts (run : Run m (Allowed m) rolls s) (range : PmapRange m va pmap) (alignedVa : va % nbpg = 0)
    (alignedPa : pa % nbpg = 0) (ran : pmapEnter m fuel pmap va pa prot flags mem s = .ok (0,s')) :
    EnterExtracts m pmap va pa s s' ↔ pmap ≠ .kernel := by
  have wf := reached_wf run
  cases pmap with
  | user n => exact ⟨fun _ => by simp,fun _ => user_enter_extracts wf alignedVa alignedPa ran⟩
  | kernel =>
    refine ⟨fun extracts => ?_,fun other => absurd rfl other⟩
    have found := extracts.entered 0 (by decide)
    have lost := kernel_enter_lost wf range alignedVa alignedPa ran
    rw [add_zero,lost] at found
    cases found

theorem enter_extracts_one :
    EnterExtracts smallMachine (.user 0) 0x1000 0x1000 (afterOp smallMachine 1 initial .create) onePage := by
  have created : Run smallMachine (Allowed smallMachine) _ (afterOp smallMachine 1 initial .create) :=
    run_next 1 .create .start trivial rfl
  have entered : pmapEnter smallMachine 1 (.user 0) 0x1000 0x1000 3 0 true (afterOp smallMachine 1 initial .create) =
      .ok (0,onePage) := rfl
  have range : PmapRange smallMachine 0x1000 (.user 0) := by simp [PmapRange,vmMaxuserAddress]
  exact (enter_extracts created range rfl rfl entered).mpr (by simp)

def kernelMachine : Machine := {smallMachine with sysmapsize := 4, sysmap_small := by decide}

theorem kernel_enter_not_extracted : ∃ s', pmapEnter kernelMachine 1 .kernel 0xC0000000 0x1000 3 0 true initial = .ok (0,s') ∧
    pmapExtract kernelMachine .kernel 0xC0000000 s' = .ok none ∧
    ¬ EnterExtracts kernelMachine .kernel 0xC0000000 0x1000 initial s' := by
  have lost : pmapExtract kernelMachine .kernel 0xC0000000
      (afterOp kernelMachine 1 initial (.enter .kernel 0xC0000000 0x1000 3 0 true)) = .ok none := rfl
  refine ⟨_,rfl,lost,?_⟩
  intro extracts
  have found := extracts.entered 0 (by decide)
  have none := lost.symm.trans found
  cases none

-- pmap_remove and pmap_protect over a range of a user pmap: what the loops over
-- segments and pages do to every PTE.
variable {sva eva asid k : Nat} {flush needupdate : Bool} {code prot : Word} {tlbehi : Nat → Word} {f : Word → Word}

def Turned (n va : Nat) (f : Word → Word) (v v' : Space) : Prop :=
  (v'.info (.user n)).isSome ∧ v'.pte = update v.pte (.user n) (update (v.pte (.user n)) (va / nbpg) (f (v.pte (.user n) (va / nbpg))))

def unmapWord (w : Word) : Word := if has w avr32PteValid = false then w else 0#32
def protectWord (code w : Word) : Word := if has w avr32PteValid = false then w else reprotected code w

section
variable (live : (v.info (.user n)).isSome)
include live

theorem turned_same (same : f (v.pte (.user n) (va / nbpg)) = v.pte (.user n) (va / nbpg)) : Turned n va f v v := by
  refine ⟨live,?_⟩
  rw [same,update_eq_self,update_eq_self]

theorem unmapPte_turned (below : va < vmMaxuserAddress) :
    ∃ v', Space.unmapPte m (.user n) asid flush v va = some v' ∧ Turned n va unmapWord v v' := by
  have range : InRange m va (.user n) := below
  unfold Space.unmapPte
  rw [if_pos range]
  split_ifs with invalid
  · exact ⟨v,rfl,turned_same live (if_pos invalid)⟩
  obtain ⟨i,info⟩ := isSome_iff_exists.mp live
  rw [info]
  refine ⟨_,rfl,(unmapped_info (.user n) info).trans live,?_⟩
  rw [unmapped_pte]
  unfold unmapWord
  rw [if_neg invalid]

theorem protectPte_turned (below : va < vmMaxuserAddress) :
    ∃ v', Space.protectPte m (.user n) code tlbehi needupdate v va = some v' ∧ Turned n va (protectWord code) v v' := by
  have range : InRange m va (.user n) := below
  unfold Space.protectPte
  rw [if_pos range]
  by_cases invalid : has (v.pte (.user n) (va / nbpg)) avr32PteValid = false
  · rw [if_pos invalid]
    exact ⟨v,rfl,turned_same live (if_pos invalid)⟩
  rw [if_neg invalid]
  have word : protectWord code (v.pte (.user n) (va / nbpg)) = reprotected code (v.pte (.user n) (va / nbpg)) := if_neg invalid
  refine ⟨_,rfl,?_,?_⟩
  · cases needupdate <;> exact live
  rw [word]
  cases needupdate <;> rfl
end

theorem fold_turned (body : Space → Nat → Option Space) (v : Space) (sva k : Nat) (one : ∀ v va, (v.info (.user n)).isSome → va < vmMaxuserAddress → ∃ v', body v va = some v' ∧ Turned n va f v v')
    (live : (v.info (.user n)).isSome) (below : ∀ j < k, sva + j * nbpg < vmMaxuserAddress) :
    ∃ v', (pageList sva k).foldlM body v = some v' ∧ ∀ pmap vpn, v'.pte pmap vpn =
      if pmap = .user n ∧ sva / nbpg ≤ vpn ∧ vpn < sva / nbpg + k then f (v.pte pmap vpn) else v.pte pmap vpn := by
  induction k generalizing sva v with
  | zero =>
    refine ⟨v,rfl,fun pmap vpn => ?_⟩
    rw [if_neg (by omega)]
  | succ k ih =>
    obtain ⟨v₁,first,live₁,ptes⟩ := one v sva live (by simpa using below 0 (succ_pos k))
    obtain ⟨v',rest,all⟩ := ih v₁ (sva + nbpg) live₁ fun j small => by
      have := below (j + 1) (succ_lt_succ small)
      rw [succ_mul] at this
      omega
    refine ⟨v',?_,fun pmap vpn => ?_⟩
    · show (body v sva >>= fun v => (pageList (sva + nbpg) k).foldlM body v) = _
      rw [first]
      exact rest
    have next : (sva + nbpg) / nbpg = sva / nbpg + 1 := add_div_right _ (by decide)
    rw [all,next,ptes]
    by_cases mine : pmap = .user n
    · subst mine
      rw [update_self]
      by_cases here : vpn = sva / nbpg
      · subst here
        rw [update_self,if_neg fun inside => not_succ_le_self _ inside.2.1,if_pos ⟨rfl,le_refl _,by omega⟩]
      rw [update_of_ne here]
      by_cases later : sva / nbpg + 1 ≤ vpn ∧ vpn < sva / nbpg + 1 + k
      · rw [if_pos ⟨rfl,later⟩,if_pos ⟨rfl,by omega,by omega⟩]
      · rw [if_neg fun inside => later inside.2,if_neg fun inside => later ⟨by omega,by omega⟩]
    · rw [update_of_ne mine,if_neg fun inside => mine inside.1,if_neg fun inside => mine inside.1]

def RangeTurned (m : Machine) (n sva eva : Nat) (f : Word → Word) (s s' : State) : Prop :=
  ∀ pmap vpn, pteAt m s' pmap vpn = if pmap = .user n ∧ sva ≤ vpn * nbpg ∧ vpn * nbpg < eva then f (pteAt m s pmap vpn) else pteAt m s pmap vpn

theorem range_page (aligned : sva % nbpg = 0) : (sva / nbpg ≤ vpn ∧ vpn < sva / nbpg + pageCount sva eva) ↔ sva ≤ vpn * nbpg ∧ vpn * nbpg < eva := by
  unfold pageCount nbpg at *
  omega

theorem page_below (sva : Nat) (high : eva ≤ vmMaxuserAddress) : ∀ j < pageCount sva eva, sva + j * nbpg < vmMaxuserAddress := by
  intro j small
  unfold pageCount nbpg at *
  omega

theorem remove_turned (wf : Wf s) (live : (s.pmaps (.user n)).isSome) (aligned : sva % nbpg = 0) (high : eva ≤ vmMaxuserAddress) :
    ∃ s', pmapRemove m (.user n) sva eva s = .ok s' ∧ RangeTurned m n sva eva unmapWord s s' := by
  have rep := wf.rep m
  obtain ⟨p,held⟩ := isSome_iff_exists.mp live
  have info : (view m s).info (.user n) = some p.toInfo := congrArg (Option.map Pmap.toInfo) held
  obtain ⟨v',fold,ptes⟩ := fold_turned (Space.unmapPte m (.user n) p.pmAsid (p.pmAsidgen == s.mmu.asidGeneration)) (view m s) sva
    (pageCount sva eva) (fun v va live below => unmapPte_turned live below) (by rw [info]; rfl) (page_below sva high)
  have removed : (view m s).remove m (.user n) sva eva = some v' := by
    unfold Space.remove
    rw [if_neg nofun,info]
    exact fold
  obtain ⟨s',ran,_,rfl,_⟩ := (pmapRemove_sim rep aligned).backward removed
  refine ⟨s',ran,fun pmap vpn => (ptes pmap vpn).trans ?_⟩
  simp only [range_page aligned]
  rfl

-- protection_codes[1]
def userCode (prot : Word) : Word := ((protectionCodes[1]?).bind (·[prot.toNat]?)).getD 0#32

theorem userCode_ok (small : prot.toNat < 8) : pteProt (.user n) prot = .ok (userCode prot) := by
  obtain ⟨k,low,rfl⟩ : ∃ k, k < 8 ∧ prot = BitVec.ofNat 32 k := ⟨prot.toNat,small,by simp⟩
  have all : ∀ k < 8, (protectionCodes[1]?).bind (·[(BitVec.ofNat 32 k).toNat]?) = some (userCode (BitVec.ofNat 32 k)) := by decide
  unfold pteProt
  rw [if_neg (by simp),all k low]

theorem protect_turned (wf : Wf s) (live : (s.pmaps (.user n)).isSome) (aligned : sva % nbpg = 0) (order : sva ≤ eva) (high : eva ≤ vmMaxuserAddress)
    (small : prot.toNat < 8) (readable : has prot vmProtRead = true) :
    ∃ s', pmapProtect m (.user n) sva eva prot s = .ok s' ∧ RangeTurned m n sva eva (protectWord (userCode prot)) s s' := by
  have rep := wf.rep m
  obtain ⟨p,held⟩ := isSome_iff_exists.mp live
  have info : (view m s).info (.user n) = some p.toInfo := congrArg (Option.map Pmap.toInfo) held
  obtain ⟨v',fold,ptes⟩ := fold_turned (Space.protectPte m (.user n) (userCode prot) (fun va => tlbehiOf va p.pmAsid)
    (p.pmAsidgen == s.mmu.asidGeneration)) (view m s) sva (pageCount sva eva) (fun v va live below => protectPte_turned live below)
    (by rw [info]; rfl) (page_below sva high)
  have protected' : (view m s).protect m (.user n) sva eva prot = some v' := by
    unfold Space.protect
    rw [if_neg (not_le.mpr small),if_neg (by rw [readable]; simp),userCode_ok small,info]
    simp only [Except.toOption,Option.bind_eq_bind,Option.bind_some]
    rw [if_neg (by simp),if_neg (not_lt.mpr (le_trans order high)),if_neg (not_lt.mpr high)]
    exact fold
  obtain ⟨s',ran,_,rfl,_⟩ := (pmapProtect_sim rep aligned).backward protected'
  refine ⟨s',ran,fun pmap vpn => (ptes pmap vpn).trans ?_⟩
  simp only [range_page aligned]
  rfl

theorem reprotected_access (chosen : pteProt (.user n) prot = .ok code) (w : Word) : reprotected code w &&& avr32PgAccess = code := by
  apply BitVec.eq_of_getLsbD_eq
  intro k small
  simp only [reprotected,BitVec.getLsbD_and,BitVec.getLsbD_or,BitVec.getLsbD_not,access_bit small,dirty_bit small,small,decide_true,Bool.true_and]
  by_cases inside : 4 ≤ k ∧ k < 7
  · simp [inside]
  rw [code_bit chosen small (by omega)]
  simp [inside]

theorem reprotected_others (chosen : pteProt (.user n) prot = .ok code) (w : Word) :
    reprotected code w &&& ~~~(avr32PgAccess ||| avr32PgDirty) = w &&& ~~~(avr32PgAccess ||| avr32PgDirty) := by
  apply BitVec.eq_of_getLsbD_eq
  intro k small
  simp only [BitVec.getLsbD_and,BitVec.getLsbD_or,BitVec.getLsbD_not,access_bit small,dirty_bit small,small,decide_true,Bool.true_and]
  by_cases outside : k < 4 ∨ 7 ≤ k
  · by_cases other : k = 1
    · simp [other]
    · rw [reprotected_bit chosen small outside other]
  have inside : 4 ≤ k ∧ k < 7 := by omega
  simp [inside]

def OfRange (n sva eva : Nat) (pmap : PmapRef) (vpn : Nat) : Prop := pmap = .user n ∧ sva ≤ vpn * nbpg ∧ vpn * nbpg < eva

structure Removed (m : Machine) (n sva eva : Nat) (s s' : State) : Prop where
  inside : ∀ pmap vpn, OfRange n sva eva pmap vpn → has (pteAt m s' pmap vpn) avr32PteValid = false
  outside : ∀ pmap vpn, ¬ OfRange n sva eva pmap vpn → pteAt m s' pmap vpn = pteAt m s pmap vpn

structure Reprotected (m : Machine) (n sva eva : Nat) (prot : Word) (s s' : State) : Prop where
  access : ∀ pmap vpn, OfRange n sva eva pmap vpn → has (pteAt m s pmap vpn) avr32PteValid = true →
    (protectionCodes[1]?).bind (·[prot.toNat]?) = some (pteAt m s' pmap vpn &&& avr32PgAccess)
  clean : ∀ pmap vpn, OfRange n sva eva pmap vpn → has (pteAt m s pmap vpn) avr32PteValid = true →
    has (pteAt m s' pmap vpn) avr32PgDirty = false
  others : ∀ pmap vpn, pteAt m s' pmap vpn &&& ~~~(avr32PgAccess ||| avr32PgDirty) = pteAt m s pmap vpn &&& ~~~(avr32PgAccess ||| avr32PgDirty)
  invalid : ∀ pmap vpn, has (pteAt m s pmap vpn) avr32PteValid = false → pteAt m s' pmap vpn = pteAt m s pmap vpn
  outside : ∀ pmap vpn, ¬ OfRange n sva eva pmap vpn → pteAt m s' pmap vpn = pteAt m s pmap vpn

theorem removed_of (turned : RangeTurned m n sva eva unmapWord s s') : Removed m n sva eva s s' where
  inside := by
    intro pmap vpn inside
    rw [(turned pmap vpn).trans (if_pos inside)]
    unfold unmapWord
    split_ifs with invalid
    · exact invalid
    · rfl
  outside := fun pmap vpn outside => (turned pmap vpn).trans (if_neg outside)

theorem reprotected_of (small : prot.toNat < 8) (turned : RangeTurned m n sva eva (protectWord (userCode prot)) s s') :
    Reprotected m n sva eva prot s s' := by
  have chosen : pteProt (.user n) prot = .ok (userCode prot) := userCode_ok small
  have valid : ∀ pmap vpn, OfRange n sva eva pmap vpn → has (pteAt m s pmap vpn) avr32PteValid = true →
      pteAt m s' pmap vpn = reprotected (userCode prot) (pteAt m s pmap vpn) := by
    intro pmap vpn inside valid
    rw [(turned pmap vpn).trans (if_pos inside)]
    exact if_neg (by rw [valid]; exact nofun)
  have invalid : ∀ pmap vpn, has (pteAt m s pmap vpn) avr32PteValid = false → pteAt m s' pmap vpn = pteAt m s pmap vpn := by
    intro pmap vpn invalid
    rw [turned]
    split
    · exact if_pos invalid
    · rfl
  have outside : ∀ pmap vpn, ¬ OfRange n sva eva pmap vpn → pteAt m s' pmap vpn = pteAt m s pmap vpn :=
    fun pmap vpn outside => (turned pmap vpn).trans (if_neg outside)
  refine ⟨fun pmap vpn inside here => ?_,fun pmap vpn inside here => ?_,fun pmap vpn => ?_,invalid,outside⟩
  · rw [valid pmap vpn inside here,reprotected_access chosen]
    obtain ⟨j,rfl,row⟩ := pteProt_row chosen
    rw [show (BitVec.ofNat 32 j.val).toNat = j.val from mod_eq_of_lt (lt_trans j.isLt (by decide))]
    exact row
  · rw [valid pmap vpn inside here,reprotected_dirty chosen]
  by_cases inside : OfRange n sva eva pmap vpn
  · cases here : has (pteAt m s pmap vpn) avr32PteValid with
    | true => rw [valid pmap vpn inside here,reprotected_others chosen]
    | false => rw [invalid pmap vpn here]
  · rw [outside pmap vpn inside]

theorem range_operations (run : Run m (Allowed m) rolls s) (live : (s.pmaps (.user n)).isSome) (aligned : sva % nbpg = 0)
    (order : sva ≤ eva) (high : eva ≤ vmMaxuserAddress) :
    (∃ s', pmapRemove m (.user n) sva eva s = .ok s' ∧ Removed m n sva eva s s') ∧
      ∀ prot, (8 ≤ prot.toNat → pmapProtect m (.user n) sva eva prot s = .error (.panic "pmap_protect: impossible protection")) ∧
        (prot.toNat < 8 → has prot vmProtRead = false → pmapProtect m (.user n) sva eva prot s = pmapRemove m (.user n) sva eva s) ∧
        (prot.toNat < 8 → has prot vmProtRead = true →
          ∃ s', pmapProtect m (.user n) sva eva prot s = .ok s' ∧ Reprotected m n sva eva prot s s') := by
  have wf := reached_wf run
  refine ⟨?_,fun prot => ⟨fun large => if_pos large,fun small hidden => ?_,fun small readable => ?_⟩⟩
  · obtain ⟨s',ran,turned⟩ := remove_turned wf live aligned high
    exact ⟨s',ran,removed_of turned⟩
  · unfold pmapProtect
    rw [if_neg (not_le.mpr small),if_pos hidden]
  · obtain ⟨s',ran,turned⟩ := protect_turned wf live aligned order high small readable
    exact ⟨s',ran,reprotected_of small turned⟩

theorem range_operations_one : ∃ s', pmapRemove smallMachine (.user 0) 0x1000 0x3000 onePage = .ok s' ∧
    Removed smallMachine 0 0x1000 0x3000 onePage s' := by
  have created : Run smallMachine (Allowed smallMachine) _ (afterOp smallMachine 1 initial .create) := run_next 1 .create .start trivial rfl
  have run : Run smallMachine (Allowed smallMachine) _ onePage := run_next 1 (.enter (.user 0) 0x1000 0x1000 3 0 true) created ⟨rfl,rfl⟩ rfl
  exact (range_operations run rfl rfl (by decide) (by decide)).1
end NetbsdAvr32.Avr32
