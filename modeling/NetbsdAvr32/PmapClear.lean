import NetbsdAvr32.PmapParts

-- pmap_clear_modify on the abstract module.
namespace NetbsdAvr32.Avr32
open Function Outcome List Nat
variable {m : Machine} {tab : PmapRef → Nat → Option Nat} {s s' : State} {v v' : Space} {pmap : PmapRef} {n va pg asid : Nat}
  {key : PmapRef × Nat} {l : List (PmapRef × Nat)} {i j : Info} {w : Word}

def SmallAsids (info : PmapRef → Option Info) : Prop := ∀ q i, info q = some i → i.pmAsid < 256

theorem SmallAsids.put (small : SmallAsids info) (pmap : PmapRef) (j : Info) (less : j.pmAsid < 256) : SmallAsids (update info pmap (some j)) := by
  intro q i held
  by_cases mine : q = pmap
  · subst q
    rw [update_self] at held
    cases held
    exact less
  rw [update_of_ne mine] at held
  exact small q i held

-- The call of avr32_tbis in pmap_clear_modify never has AVR32_PG_VALID.
theorem tbis_invalid (aligned : va % nbpg = 0) (small : asid < 512) (u : Mmu) :
    avr32Tbis (BitVec.ofNat 32 va ||| BitVec.ofNat 32 asid) w u = .error (.panic "avr32_tbis: invalid entry") := by
  unfold avr32Tbis
  rw [if_pos (tlbehi_invalid aligned small)]

def Space.clearPte (m : Machine) (v : Space) (key : PmapRef × Nat) : Option Space := do
  let i ← v.info key.1
  if InRange m key.2 key.1 ∧ (key.1 = .kernel ∨ v.seg key.1 (key.2 / nbseg) = true) then
    let entry := v.pte key.1 (key.2 / nbpg)
    if has entry avr32PgDirty = false then some v
    else if i.pmAsidgen = v.mmu.asidGeneration then none
    else some (v.setPte key.1 (key.2 / nbpg) (cleaned entry))
  else none

def Space.clearModify (m : Machine) (pg : Nat) (v : Space) : Option (Bool × Space) :=
  let v' := {v with attrs := update v.attrs pg (v.attrs pg &&& ~~~pvModified)}
  if has (v.attrs pg) pvModified = false then some (false,v') else ((v.pv pg).foldlM (Space.clearPte m) v').map (true,·)

theorem clearTail_sim (gen : Nat) (rep : Rep m tab s v) (points : Points tab pte pmap va) (aligned : va % nbpg = 0) (small : asid < 512) :
    Simulates (Rep m tab)
      (do
        let entry ← getPte m s pte
        if has entry avr32PgDirty = false then .ok s
        else if gen = (s.setPte (entry &&& ~~~avr32PgDirty) pte).mmu.asidGeneration then do
          let u ← avr32Tbis (BitVec.ofNat 32 va ||| BitVec.ofNat 32 asid) (entry &&& ~~~avr32PgDirty)
            (s.setPte (entry &&& ~~~avr32PgDirty) pte).mmu
          .ok ((s.setPte (entry &&& ~~~avr32PgDirty) pte).setMmu u)
        else .ok (s.setPte (entry &&& ~~~avr32PgDirty) pte))
      (if InRange m va pmap then
        if has (v.pte pmap (va / nbpg)) avr32PgDirty = false then some v
        else if gen = v.mmu.asidGeneration then none
        else some (v.setPte pmap (va / nbpg) (cleaned (v.pte pmap (va / nbpg))))
      else none) := by
  have read := getPte_sim rep points
  by_cases range : InRange m va pmap
  · rw [if_pos range] at read ⊢
    obtain ⟨entry,got,rfl⟩ := read.backward rfl
    rw [got,ok_bind]
    split
    · exact rep
    have same : (s.setPte (v.pte pmap (va / nbpg) &&& ~~~avr32PgDirty) pte).mmu = v.mmu := by
      rw [← mmu_same rep]
      cases pte <;> rfl
    rw [same]
    by_cases current : gen = v.mmu.asidGeneration
    · rw [if_pos current,if_pos current,tbis_invalid aligned small]
      trivial
    rw [if_neg current,if_neg current]
    exact setPte_rep rep points range _
  rw [if_neg range] at read ⊢
  obtain ⟨e,failed⟩ := read.failed
  rw [failed]
  trivial

theorem clearModifyPte_sim (rep : Rep m tab s v) (aligned : va % nbpg = 0) (small : SmallAsids v.info) :
    Simulates (Rep m tab) (clearModifyPte m pmap va s) (v.clearPte m (pmap,va)) := by
  unfold clearModifyPte Space.clearPte
  have owner := getPmap_sim rep pmap
  cases info : v.info pmap with
  | none =>
    rw [info] at owner
    obtain ⟨e,failed⟩ := owner.failed
    rw [failed]
    trivial
  | some i =>
    obtain ⟨p,held,_,rfl⟩ := owner.backward info
    rw [held,ok_bind,some_bind]
    have few : p.pmAsid < 512 := lt_trans (small _ _ info) (by decide)
    cases pmap with
    | kernel =>
      have tail := @clearTail_sim m tab s v .kernel va 0 (sysPte va) p.pmAsidgen rep rfl aligned (by decide)
      simpa [entryPte] using tail
    | user n =>
      have lookup := segmap_sim rep n va
      simp only [info,Option.isSome_some,true_and] at lookup
      simp only [entryPte,reduceCtorEq,↓reduceIte,false_or]
      split_ifs at lookup with below
      · obtain ⟨found,ran,rfl⟩ := lookup.backward rfl
        rw [ran]
        have seg : v.seg (.user n) (va / nbseg) = (tab (.user n) (va / nbseg)).isSome := by
          obtain ⟨_,rfl,rfl⟩ := rep
          rfl
        cases backed : tab (.user n) (va / nbseg) with
        | none =>
          rw [backed] at seg
          have missing : ¬(InRange m va (.user n) ∧ v.seg (.user n) (va / nbseg) = true) := by
            rw [seg]
            simp
          rw [if_neg missing]
          trivial
        | some page =>
          rw [backed] at seg
          have tail := @clearTail_sim m tab s v (.user n) va p.pmAsid (userPte page va) p.pmAsidgen rep ⟨below,page,backed,rfl⟩ aligned few
          have both : (InRange m va (.user n) ∧ v.seg (.user n) (va / nbseg) = true) ↔ InRange m va (.user n) := by
            rw [seg]
            simp
          simp only [both]
          exact tail
      obtain ⟨e,failed⟩ := lookup.failed
      have outside : ¬(InRange m va (.user n) ∧ v.seg (.user n) (va / nbseg) = true) := fun both => below both.1
      rw [failed,if_neg outside]
      trivial

theorem clearModifyPte_frame (ran : clearModifyPte m pmap va s = .ok s') : s'.pvNode = s.pvNode := by
  obtain ⟨p,_,ran⟩ := bind_ok ran
  obtain ⟨pte,_,ran⟩ := bind_ok ran
  obtain ⟨entry,_,ran⟩ := bind_ok ran
  dsimp only at ran
  split at ran
  · cases ran
    rfl
  split at ran
  · obtain ⟨u,_,ran⟩ := bind_ok ran
    cases ran
    cases pte <;> rfl
  cases ran
  cases pte <;> rfl

theorem clearPte_info (ran : v.clearPte m key = some v') : v'.info = v.info := by
  obtain ⟨i,_,ran⟩ := bind_some ran
  split at ran
  · dsimp only at ran
    split at ran
    · cases ran
      rfl
    split at ran
    · cases ran
    cases ran
    rfl
  · cases ran

theorem clearModifyAll_sim {nodes : List Nat} (pv : PvPtr) (fuel : Nat) (rep : Rep m tab s v) (small : SmallAsids v.info) (got : s.getPv pv = .ok e)
    (head : e.key = some key) (aligned : key.2 % nbpg = 0) (path : Linked.Path s.pvNode PvEntry.pvNext e.pvNext nodes none) (enough : nodes.length < fuel) :
    Simulates (Rep m tab) (clearModifyAll m fuel pv s) ((key :: nodes.filterMap (nodeKey s)).foldlM (Space.clearPte m) v) := by
  induction nodes generalizing pv e key fuel s v with
  | nil =>
    obtain ⟨fuel,rfl⟩ := exists_eq_succ_of_ne_zero (ne_of_gt (zero_lt_of_lt enough))
    obtain ⟨pmap,owner,rfl⟩ := Option.map_eq_some_iff.mp head
    unfold clearModifyAll
    rw [got,ok_bind,owner,path]
    exact (clearModifyPte_sim rep aligned small).bind fun s v rep => rep
  | cons node nodes ih =>
    obtain ⟨fuel,rfl⟩ := exists_eq_succ_of_ne_zero (ne_of_gt (zero_lt_of_lt enough))
    obtain ⟨link,e',live,rest⟩ := path
    obtain ⟨pmap,owner,rfl⟩ := Option.map_eq_some_iff.mp head
    obtain ⟨other,addr,second,page⟩ := rep.1.nodeKeys node e' live
    have keyed : nodeKey s node = some (other,addr) := (nodeKey_of live).trans second
    unfold clearModifyAll
    rw [got,ok_bind,owner,link]
    dsimp only
    rw [filterMap_cons,keyed,foldlM_cons]
    have first : Simulates (Rep m tab) (clearModifyPte m pmap e.pvVa s) (v.clearPte m (pmap,e.pvVa)) := clearModifyPte_sim rep aligned small
    cases ran : v.clearPte m (pmap,e.pvVa) with
    | none =>
      rw [ran] at first
      obtain ⟨e,failed⟩ := first.failed
      rw [failed]
      trivial
    | some v₁ =>
      obtain ⟨s₁,ran₁,rep₁⟩ := first.backward ran
      rw [ran₁,ok_bind,some_bind]
      have frame := clearModifyPte_frame ran₁
      have keys : nodeKey s₁ = nodeKey s := by
        funext n
        unfold nodeKey
        rw [frame]
      rw [← keys]
      refine ih (.node node) fuel rep₁ (by rw [clearPte_info ran]; exact small) ?_ second page (by rw [frame]; exact rest) (by simpa using enough)
      simp [State.getPv,frame,live]

theorem pmapClearModify_sim (rep : Rep m tab s v) (small : SmallAsids v.info) (pg : Nat) :
    Simulates (fun r q => r.1 = q.1 ∧ Rep m tab r.2 q.2) (pmapClearModify m pg s) (v.clearModify m pg) := by
  unfold pmapClearModify Space.clearModify
  have attrs : s.attrs = v.attrs := congrArg Space.attrs rep.2.1
  rw [attrs]
  have marked : Rep m tab {s with attrs := update v.attrs pg (v.attrs pg &&& ~~~pvModified)} {v with attrs := update v.attrs pg (v.attrs pg &&& ~~~pvModified)} :=
    attrs_rep rep
  by_cases clear : has (v.attrs pg) pvModified = false
  · rw [if_pos clear,if_pos clear]
    exact ⟨rfl,marked⟩
  rw [if_neg clear,if_neg clear]
  by_cases empty : (s.pvHead pg).pvPmap = none
  · have nil := (pv_head rep).mp empty
    rw [if_pos empty,nil]
    exact ⟨rfl,marked⟩
  rw [if_neg empty]
  obtain ⟨owner,held⟩ := Option.ne_none_iff_exists'.mp empty
  have head : (s.pvHead pg).key = some (owner,(s.pvHead pg).pvVa) := by simp [PvEntry.key,held]
  have list : v.pv pg = (owner,(s.pvHead pg).pvVa) :: (pvNodes s pg).filterMap (nodeKey s) := by
    rw [← rep.2.1]
    simp [view,pvList,head]
  have short := chain_length rep.1 pg
  have loop := clearModifyAll_sim (.header pg) (s.nextPv + 2) marked small rfl head (rep.1.headAligned pg _ _ head) (rep.1.chain pg) (by omega)
  rw [list,Option.map_eq_bind]
  exact loop.bind fun s v rep => ⟨rfl,rep⟩

def Space.swept (v : Space) (l : List (PmapRef × Nat)) : Space :=
  {v with pte := fun q vpn => if (q,vpn * nbpg) ∈ l then cleaned (v.pte q vpn) else v.pte q vpn}

-- The loop gets over the mapping without calling avr32_tbis.
def Clearable (m : Machine) (v : Space) (key : PmapRef × Nat) : Prop :=
  ∃ i, v.info key.1 = some i ∧ InRange m key.2 key.1 ∧ (key.1 = .kernel ∨ v.seg key.1 (key.2 / nbseg) = true) ∧
    (has (v.pte key.1 (key.2 / nbpg)) avr32PgDirty = true → i.pmAsidgen ≠ v.mmu.asidGeneration)

theorem cleaned_twice (w : Word) : cleaned (cleaned w) = cleaned w := cleaned_clean (cleaned_dirty w)

theorem swept_cons (v : Space) (key : PmapRef × Nat) (l : List (PmapRef × Nat)) : (v.swept [key]).swept l = v.swept (key :: l) := by
  apply Space.ext <;> try rfl
  funext q vpn
  simp only [Space.swept,mem_cons,not_mem_nil,or_false]
  by_cases here : (q,vpn * nbpg) = key
  · simp [here,cleaned_twice]
  · simp [here]

theorem swept_else {k : PmapRef × Nat} (aligned : k.2 % nbpg = 0) (other : k ≠ key) : (v.swept [key]).pte k.1 (k.2 / nbpg) = v.pte k.1 (k.2 / nbpg) := by
  have whole : k.2 / nbpg * nbpg = k.2 := Nat.div_mul_cancel (Nat.dvd_of_mod_eq_zero aligned)
  simp [Space.swept,whole,other]

theorem swept_dirty (v : Space) (l : List (PmapRef × Nat)) (dirty : has ((v.swept l).pte pmap va) avr32PgDirty = true) : has (v.pte pmap va) avr32PgDirty = true := by
  dsimp only [Space.swept] at dirty
  split at dirty
  · rw [cleaned_dirty] at dirty
    cases dirty
  · exact dirty

theorem setPte_swept (aligned : key.2 % nbpg = 0) : v.setPte key.1 (key.2 / nbpg) (cleaned (v.pte key.1 (key.2 / nbpg))) = v.swept [key] := by
  have whole : key.2 / nbpg * nbpg = key.2 := Nat.div_mul_cancel (Nat.dvd_of_mod_eq_zero aligned)
  apply Space.ext <;> try rfl
  funext q vpn
  by_cases mine : q = key.1
  · subst q
    by_cases here : vpn = key.2 / nbpg
    · subst vpn
      simp [Space.setPte,Space.swept,whole]
    have other : (key.1,vpn * nbpg) ≠ key := by
      intro equal
      have addr := congrArg Prod.snd equal
      rw [← addr,Nat.mul_div_cancel _ (by decide)] at here
      exact here rfl
    simp [Space.setPte,Space.swept,here,other]
  have other : (q,vpn * nbpg) ≠ key := fun equal => mine (congrArg Prod.fst equal)
  simp [Space.setPte,Space.swept,mine,other]

theorem clearPte_returns (clearable : Clearable m v key) (aligned : key.2 % nbpg = 0) : v.clearPte m key = some (v.swept [key]) := by
  obtain ⟨i,info,range,backed,stale⟩ := clearable
  unfold Space.clearPte
  rw [info,some_bind,if_pos ⟨range,backed⟩]
  by_cases clean : has (v.pte key.1 (key.2 / nbpg)) avr32PgDirty = false
  · rw [if_pos clean,← setPte_swept aligned,cleaned_clean clean]
    simp [Space.setPte]
  · rw [if_neg clean,if_neg (stale (by simpa using clean)),setPte_swept aligned]

theorem clearPte_only (ran : v.clearPte m key = some v') : Clearable m v key := by
  obtain ⟨i,info,ran⟩ := bind_some ran
  split at ran
  · next both =>
    dsimp only at ran
    split at ran
    · next clean => exact ⟨i,info,both.1,both.2,fun dirty => by rw [clean] at dirty; cases dirty⟩
    split at ran
    · cases ran
    · next stale => exact ⟨i,info,both.1,both.2,fun _ => stale⟩
  · cases ran

theorem Clearable.swept (clearable : Clearable m v key) (l : List (PmapRef × Nat)) : Clearable m (v.swept l) key := by
  obtain ⟨i,info,range,backed,stale⟩ := clearable
  exact ⟨i,info,range,backed,fun dirty => stale (swept_dirty v l dirty)⟩

theorem clear_fold (clearable : ∀ key ∈ l, Clearable m v key) (aligned : ∀ key ∈ l, key.2 % nbpg = 0) : l.foldlM (Space.clearPte m) v = some (v.swept l) := by
  induction l generalizing v with
  | nil =>
    rfl
  | cons key l ih =>
    rw [foldlM_cons,clearPte_returns (clearable key (mem_cons_self ..)) (aligned key (mem_cons_self ..)),some_bind,
      ih (fun k member => (clearable k (mem_cons_of_mem _ member)).swept _) (fun k member => aligned k (mem_cons_of_mem _ member)),swept_cons]

theorem clear_fold_only (ran : l.foldlM (Space.clearPte m) v = some v') (aligned : ∀ key ∈ l, key.2 % nbpg = 0) : ∀ key ∈ l, Clearable m v key := by
  induction l generalizing v with
  | nil => exact fun _ member => absurd member not_mem_nil
  | cons key l ih =>
    obtain ⟨v₁,first,rest⟩ := bind_some ran
    have clearable := clearPte_only first
    rw [clearPte_returns clearable (aligned key (mem_cons_self ..))] at first
    cases first
    intro k member
    rcases mem_cons.mp member with rfl | later
    · exact clearable
    by_cases same : k = key
    · exact same ▸ clearable
    obtain ⟨i,info,range,backed,stale⟩ := ih rest (fun k member => aligned k (mem_cons_of_mem _ member)) k later
    rw [swept_else (aligned k member) same] at stale
    exact ⟨i,info,range,backed,stale⟩
end NetbsdAvr32.Avr32
