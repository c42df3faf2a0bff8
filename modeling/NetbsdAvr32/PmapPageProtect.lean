import NetbsdAvr32.PmapRun

namespace NetbsdAvr32.Avr32
open Function Outcome Relation List
variable {m : Machine} {s s' : State} {v v' : Space} {pmap : PmapRef} {n va vpn pg rolls : Nat} {i : Info} {p : Pmap}
  {key : PmapRef × Nat}

theorem pmapRemove_page (wf : Wf s) (aligned : va % nbpg = 0) (below : va < vmMaxuserAddress)
    (held : s.pmaps (.user n) = some p) (found : segPage s (.user n) (va / nbseg) = some page) :
    pmapRemove m (.user n) va (va + nbpg) s =
      pmapRemovePte m (.user n) va p.pmAsid (p.pmAsidgen == s.mmu.asidGeneration) (userPte page va) s := by
  have got : s.getPmap (.user n) = .ok p := by simp [State.getPmap,held]
  have rep := wf.rep m
  have lookup := segmap_sim rep n va
  have info : ((view m s).info (.user n)).isSome := by simp [view,held]
  simp only [info,below,and_self,↓reduceIte] at lookup
  obtain ⟨_,ran,rfl⟩ := lookup.backward rfl
  have more : va < va + nbpg := Nat.lt_add_of_pos_right (by decide)
  have stop : segmentEnd va (va + nbpg) = va + nbpg := by
    have spec := segmentEnd_spec more below
    simp only [nbpg,nbseg,vmMaxuserAddress] at *
    omega
  have rounds : pteRounds va (va + nbpg) = 2 := by simp [pteRounds,nbpg]
  obtain ⟨k,fuel⟩ : ∃ k, segmentRounds (va + nbpg) = k + 2 := ⟨_,rfl⟩
  have passed : ¬ va + nbpg < va + nbpg := Nat.lt_irrefl _
  unfold pmapRemove
  simp only [reduceCtorEq,↓reduceIte]
  rw [got,ok_bind,fuel]
  unfold eachSegment
  rw [if_pos more]
  rw [ran,ok_bind,found,stop,rounds]
  dsimp only
  unfold eachPte
  rw [if_pos more]
  cases body : pmapRemovePte m (.user n) va p.pmAsid (p.pmAsidgen == s.mmu.asidGeneration) (userPte page va) s with
  | error e => rfl
  | ok s' =>
    rw [ok_bind]
    unfold eachPte eachSegment
    rw [if_neg passed,ok_bind]
    rw [if_neg passed]

theorem pmapRemovePv_frees (wf : Wf s) (nodup : (pvList s pg).Nodup) (member : n ∈ pvNodes s pg)
    (keyed : nodeKey s n = some (pmap,va)) (ran : pmapRemovePv pmap va pg s = .ok s') : s'.pvNode n = none := by
  obtain ⟨head,first⟩ : ∃ head, (s.pvHead pg).key = some head := by
    cases first : (s.pvHead pg).key with
    | some head => exact ⟨head,rfl⟩
    | none =>
      have path := wf.chain pg
      rw [wf.headEmpty pg first] at path
      have nil : pvNodes s pg = [] := path.unique rfl
      rw [nil] at member
      cases member
  have shape : pvList s pg = head :: (pvNodes s pg).filterMap (nodeKey s) := by simp [pvList,first]
  rw [shape] at nodup
  have listed : (pmap,va) ∈ (pvNodes s pg).filterMap (nodeKey s) := mem_filterMap.mpr ⟨n,member,keyed⟩
  have miss : ¬ (s.pvHead pg).is pmap va = true := by
    intro hit
    rw [is_exact,first] at hit
    cases hit
    exact (nodup_cons.mp nodup).1 listed
  have enough : (pvNodes s pg).length < s.nextPv + 1 := Nat.lt_succ_of_le (chain_length wf pg)
  unfold pmapRemovePv at ran
  rw [if_neg miss] at ran
  rcases pvSearch_spec pmap va (.header pg) (wf.chain pg) enough with
    ⟨last,_,absent⟩ | ⟨front,n',rest,nodes,found,before,search⟩
  · exact absurd keyed (absent n member)
  have same : n' = n := by
    rw [nodes] at member
    rcases mem_append.mp member with early | late
    · exact absurd keyed (before n early)
    rcases mem_cons.mp late with rfl | later
    · rfl
    have twice := (nodup_cons.mp nodup).2
    rw [nodes,filterMap_append,filterMap_cons,found] at twice
    have apart := (nodup_append.mp twice).2.1
    exact absurd (mem_filterMap.mpr ⟨n,later,keyed⟩) (nodup_cons.mp apart).1
  subst n'
  rw [search,ok_bind] at ran
  obtain ⟨e,_,ran⟩ := bind_ok ran
  obtain ⟨prev,_,ran⟩ := bind_ok ran
  cases ran
  simp [pmapPvFree]

theorem pmapRemovePte_frees (wf : Wf s) (nodup : (pvList s pg).Nodup) (member : n ∈ pvNodes s pg)
    (keyed : nodeKey s n = some (pmap,va)) (read : getPte m s pte = .ok w) (maps : Maps m w pg)
    (ran : pmapRemovePte m pmap va asid flush pte s = .ok s') : s'.pvNode n = none := by
  unfold pmapRemovePte at ran
  rw [read,ok_bind,maps.1] at ran
  obtain ⟨p,held,ran⟩ := bind_ok ran
  rw [maps.2] at ran
  obtain ⟨s₁,removed,ran⟩ := bind_ok ran
  have live : s.pmaps pmap = some p := by
    unfold State.getPmap at held
    split at held
    · rename_i p' here
      cases held
      exact here
    · cases held
  have rep := wf.rep m
  have wf₀ := (setPmap_rep rep live {p with toInfo := p.toInfo.unmapped w} rfl).1
  have gone : s₁.pvNode n = none := pmapRemovePv_frees wf₀ nodup member keyed removed
  cases flush with
  | false =>
    cases ran
    cases pte <;> exact gone
  | true =>
    obtain ⟨u,_,ran⟩ := bind_ok ran
    cases ran
    cases pte <;> exact gone

theorem remove_listed (wf : Wf s) (mirror : Mirror m (view m s)) (member : (PmapRef.user n,vpn * nbpg) ∈ pvList s pg) :
    ∃ s' i page p, s.pmaps (.user n) = some p ∧ segPage s (.user n) (vpn / nptepg) = some page ∧
      vpn * nbpg < vmMaxuserAddress ∧ Maps m (pteAt m s (.user n) vpn) pg ∧
      pmapRemove m (.user n) (vpn * nbpg) (vpn * nbpg + nbpg) s = .ok s' ∧ Wf s' ∧
      view m s' = (view m s).evict m (.user n) (vpn * nbpg) i := by
  have maps : Maps m (pteAt m s (.user n) vpn) pg := (listed_here n vpn pg mirror).mp member
  have nonzero : pteAt m s (.user n) vpn ≠ 0#32 := by
    intro zero
    rw [zero] at maps
    exact not_maps (has_zero _) maps
  obtain ⟨page,p,found,held,below⟩ := pte_backed nonzero
  have number : vpn * nbpg / nbpg = vpn := Nat.mul_div_cancel _ (by decide)
  have rep := wf.rep m
  have info : (view m s).info (.user n) = some p.toInfo := by simp [view,held]
  have valid : has ((view m s).pte (.user n) (vpn * nbpg / nbpg)) avr32PteValid = true := by
    rw [number]
    exact maps.1
  obtain ⟨s',ran,wf',same,_⟩ := (pmapRemove_sim rep (Nat.mul_mod_left _ _)).backward (removeOne_valid info below valid)
  exact ⟨s',p.toInfo,page,p,held,found,below,maps,ran,wf',same⟩

structure Cleared (m : Machine) (pg : Nat) (s s' : State) : Prop where
  unmapped : ∀ pmap vpn, ¬ Maps m (pteAt m s' pmap vpn) pg
  empty : (s'.pvHead pg).pvPmap = none ∧ (s'.pvHead pg).pvNext = none
  others : ∀ pmap vpn, ¬ Maps m (pteAt m s pmap vpn) pg → pteAt m s' pmap vpn = pteAt m s pmap vpn

theorem protect_none (m : Machine) (pg : Nat) (s : State) : pmapPageProtect m pg vmProtNone s =
    if (s.pvHead pg).pvPmap = none then .ok s else pageRemoveAll m (s.nextPv + 2) (.header pg) s := by
  have neither : vmProtNone ≠ vmProtRead ||| vmProtWrite ∧ vmProtNone ≠ vmProtAll ∧ vmProtNone ≠ vmProtRead ∧
      vmProtNone ≠ vmProtRead ||| vmProtExecute := by decide
  unfold pmapPageProtect
  rw [if_neg neither.1,if_neg neither.2.1,if_neg neither.2.2.1,if_neg neither.2.2.2]

theorem unlisted_cleared (wf : Wf s) (mirror : Mirror m (view m s)) (quiet : KernelEmpty (view m s))
    (none : pvList s pg = []) : (∀ pmap vpn, ¬ Maps m (pteAt m s pmap vpn) pg) ∧
      (s.pvHead pg).pvPmap = .none ∧ (s.pvHead pg).pvNext = .none := by
  have rep := wf.rep m
  have owner : (s.pvHead pg).pvPmap = .none := (pv_head rep).mpr none
  refine ⟨?_,owner,wf.headEmpty pg (by simp [PvEntry.key,owner])⟩
  intro pmap vpn maps
  cases pmap with
  | kernel =>
    have zero : pteAt m s .kernel vpn = 0#32 := quiet vpn
    rw [zero] at maps
    exact not_maps (has_zero _) maps
  | user n =>
    have member : (PmapRef.user n,vpn * nbpg) ∈ pvList s pg := (listed_here n vpn pg mirror).mpr maps
    rw [none] at member
    cases member

theorem protect_first (wf : Wf s) (mirror : Mirror m (view m s)) (list : pvList s pg = key :: rest) :
    ∃ n vpn s' i, key = (.user n,vpn * nbpg) ∧ Maps m (pteAt m s (.user n) vpn) pg ∧ Wf s' ∧
      view m s' = (view m s).evict m (.user n) (vpn * nbpg) i ∧ pvList s' pg = rest ∧
      pmapPageProtect m pg vmProtNone s = match (s'.pvHead pg).pvNext with
        | none => .ok s'
        | some next => pageRemoveAll m (s.nextPv + 1) (.node next) s' := by
  have member : key ∈ pvList s pg := by rw [list]; simp
  obtain ⟨n,vpn,rfl,_⟩ := (mirror.listed pg key).mp member
  obtain ⟨s',i,_,_,_,_,_,maps,ran,wf',same⟩ := remove_listed wf mirror member
  have head : (s.pvHead pg).key = some (.user n,vpn * nbpg) := by
    unfold pvList at list
    cases first : (s.pvHead pg).key with
    | none => rw [first] at list; cases list
    | some k => rw [first] at list; cases list; rfl
  obtain ⟨owner,here,address⟩ := Option.map_eq_some_iff.mp head
  simp only [Prod.mk.injEq] at address
  obtain ⟨rfl,address⟩ := address
  have number : vpn * nbpg / nbpg = vpn := Nat.mul_div_cancel _ (by decide)
  have lists : pvList s' pg = rest := by
    have pv : pvList s' pg = ((view m s).evict m (.user n) (vpn * nbpg) i).pv pg := by rw [← same]; rfl
    have page : physToVmPage m (avr32TlbpfnToPaddr ((view m s).pte (.user n) (vpn * nbpg / nbpg))).toNat = some pg := by
      rw [number]
      exact maps.2
    have before : (view m s).pv pg = (.user n,vpn * nbpg) :: rest := list
    rw [pv,Space.evict,unmapped_pv,page]
    dsimp only
    rw [update_self,before,erase_cons_head]
  refine ⟨n,vpn,s',i,rfl,maps,wf',same,lists,?_⟩
  rw [protect_none,here,if_neg (by simp)]
  conv_lhs => unfold pageRemoveAll
  have header : s.getPv (.header pg) = .ok (s.pvHead pg) := rfl
  have again : s'.getPv (.header pg) = .ok (s'.pvHead pg) := rfl
  rw [header,ok_bind,here]
  dsimp only
  rewrite [address,ran,ok_bind,again,ok_bind]
  cases (s'.pvHead pg).pvNext <;> rfl

theorem protect_chained (wf : Wf s) (mirror : Mirror m (view m s)) (next : (s.pvHead pg).pvNext = some n) :
    ∃ e, pageRemoveAll m (fuel + 1) (.node n) s = .error e := by
  have path := wf.chain pg
  rw [next] at path
  obtain ⟨rest,nodes⟩ : ∃ rest, pvNodes s pg = n :: rest := by
    cases nodes : pvNodes s pg with
    | nil => rw [nodes] at path; cases path
    | cons a rest => rw [nodes] at path; cases Option.some.inj path.1; exact ⟨rest,rfl⟩
  have member : n ∈ pvNodes s pg := by rw [nodes]; simp
  obtain ⟨e,live⟩ := (wf.chain pg).live member
  obtain ⟨owner,addr,keyed,_⟩ := wf.nodeKeys n e live
  have listed : (owner,addr) ∈ pvList s pg := by
    unfold pvList
    cases first : (s.pvHead pg).key with
    | none => rw [wf.headEmpty pg first] at next; cases next
    | some k =>
      exact mem_cons_of_mem _ (mem_filterMap.mpr ⟨n,member,(nodeKey_of live).trans keyed⟩)
  obtain ⟨k,vpn,equal,_⟩ := (mirror.listed pg (owner,addr)).mp listed
  cases equal
  obtain ⟨s',i,page,p,held,found,below,maps,ran,wf',same⟩ := remove_listed wf mirror listed
  have number : vpn * nbpg / nbpg = vpn := Nat.mul_div_cancel _ (by decide)
  have segment : vpn * nbpg / nbseg = vpn / nptepg := by simp only [nbpg,nbseg,nptepg]; omega
  have backed : segPage s (.user k) (vpn * nbpg / nbseg) = some page := by rw [segment]; exact found
  have rep := wf.rep m
  have points : Points (segPage s) (userPte page (vpn * nbpg)) (.user k) (vpn * nbpg) := ⟨below,page,backed,rfl⟩
  have range : InRange m (vpn * nbpg) (.user k) := below
  have read := getPte_sim rep points
  rw [if_pos range,number] at read
  obtain ⟨w,got,rfl⟩ := read.backward rfl
  have body := ran
  rw [pmapRemove_page wf (Nat.mul_mod_left _ _) below held backed] at body
  have gone := pmapRemovePte_frees wf (mirror.nodup pg) member ((nodeKey_of live).trans keyed) got maps body
  obtain ⟨_,here,address⟩ := Option.map_eq_some_iff.mp keyed
  simp only [Prod.mk.injEq] at address
  obtain ⟨rfl,address⟩ := address
  have cell : s.getPv (.node n) = .ok e := by simp [State.getPv,live]
  unfold pageRemoveAll
  rw [cell,ok_bind,here]
  dsimp only
  rw [address,ran,ok_bind]
  exact ⟨.fault "pv_entry freed",by simp [State.getPv,gone]⟩

theorem page_protect_clears (pg : Nat) (run : Run m (UserAllowed m) rolls s) :
    (∃ s', pmapPageProtect m pg vmProtNone s = .ok s' ∧ Cleared m pg s s') ↔ (pvList s pg).length ≤ 1 := by
  obtain ⟨wf,quiet⟩ := run_wf run (fun _ _ ok => ok)
  have mirror := run_mirror run (fun _ _ ok => ok)
  constructor
  · rintro ⟨s',ran,cleared⟩
    by_contra long
    obtain ⟨key,key',rest,list⟩ : ∃ key key' rest, pvList s pg = key :: key' :: rest := by
      match shape : pvList s pg with
      | [] => rw [shape] at long; simp at long
      | [_] => rw [shape] at long; simp at long
      | key :: key' :: rest => exact ⟨key,key',rest,rfl⟩
    obtain ⟨n,vpn,s₁,i,_,_,wf₁,same,list₁,result⟩ := protect_first wf mirror list
    rw [result] at ran
    cases next : (s₁.pvHead pg).pvNext with
    | none =>
      rw [next] at ran
      have equal : s₁ = s' := Except.ok.inj ran
      subst s'
      have rep := wf₁.rep m
      have nil := (pv_head rep).mp cleared.empty.1
      have here : (view m s₁).pv pg = key' :: rest := list₁
      rw [here] at nil
      cases nil
    | some cell =>
      have mirror₁ : Mirror m (view m s₁) := by
        rw [same]
        exact evict_mirror mirror (Nat.mul_mod_left _ _)
      rw [next] at ran
      obtain ⟨e,failed⟩ := protect_chained wf₁ mirror₁ next
      dsimp only at ran
      rw [failed] at ran
      cases ran
  · intro short
    match list : pvList s pg with
    | [] =>
      obtain ⟨unmapped,owner,next⟩ := unlisted_cleared wf mirror quiet list
      exact ⟨s,by rw [protect_none,if_pos owner],unmapped,⟨owner,next⟩,fun _ _ _ => rfl⟩
    | [key] =>
      obtain ⟨n,vpn,s₁,i,_,maps,wf₁,same,list₁,result⟩ := protect_first wf mirror list
      have mirror₁ : Mirror m (view m s₁) := by
        rw [same]
        exact evict_mirror mirror (Nat.mul_mod_left _ _)
      have word : pteAt m s₁ = update (pteAt m s) (.user n) (update (pteAt m s (.user n)) vpn 0#32) := by
        have pte : (view m s₁).pte = update (view m s).pte (.user n)
            (update ((view m s).pte (.user n)) (vpn * nbpg / nbpg) 0#32) := by rw [same,Space.evict,unmapped_pte]
        rw [Nat.mul_div_cancel _ (by decide : 0 < nbpg)] at pte
        exact pte
      have quiet₁ : KernelEmpty (view m s₁) := by
        intro vpn'
        have kernel : (view m s₁).pte .kernel vpn' = pteAt m s₁ .kernel vpn' := rfl
        rw [kernel,word,update_of_ne (kernel_ne n)]
        exact quiet vpn'
      obtain ⟨unmapped,owner,next⟩ := unlisted_cleared wf₁ mirror₁ quiet₁ list₁
      refine ⟨s₁,by rw [result,next],unmapped,⟨owner,next⟩,?_⟩
      intro pmap vpn' other
      rw [word]
      by_cases mine : pmap = .user n
      · subst pmap
        have apart : vpn' ≠ vpn := fun equal => other (equal ▸ maps)
        rw [update_self,update_of_ne apart]
      · rw [update_of_ne mine]
    | _ :: _ :: _ => rw [list] at short; simp at short

theorem page_protect_clears_one :
    ∃ s', pmapPageProtect smallMachine 1 vmProtNone onePage = .ok s' ∧ Cleared smallMachine 1 onePage s' := by
  obtain ⟨_,run⟩ := onePage_run
  exact (page_protect_clears 1 (table_run run).1).mpr (by decide)

-- Page 1 at 0x1000 and 0x2000 of one pmap: the second mapping moves into the
-- header and is passed over.
def twoPages : State := afterOp smallMachine 1 onePage (.enter (.user 0) 0x2000 0x1000 3 0 true)

theorem page_protect_leaves_second :
    (∃ rolls, Run smallMachine (UserAllowed smallMachine) rolls twoPages) ∧
      pvList twoPages 1 = [(.user 0,0x1000),(.user 0,0x2000)] ∧
      ¬ ∃ s', pmapPageProtect smallMachine 1 vmProtNone twoPages = .ok s' ∧ Cleared smallMachine 1 twoPages s' := by
  refine ⟨?_,by decide,?_⟩
  · obtain ⟨_,run⟩ := onePage_run
    exact ⟨_,run_next 1 (.enter (.user 0) 0x2000 0x1000 3 0 true) (table_run run).1 ⟨by simp [UserOp],rfl,rfl⟩ rfl⟩
  rintro ⟨s',ran,cleared⟩
  have left : (pmapPageProtect smallMachine 1 vmProtNone twoPages).toOption.bind (fun s => (s.pvHead 1).pvPmap) = some (.user 0) := by decide
  rw [ran] at left
  dsimp only [Except.toOption,Option.bind_some] at left
  rw [cleared.empty.1] at left
  cases left
end NetbsdAvr32.Avr32
