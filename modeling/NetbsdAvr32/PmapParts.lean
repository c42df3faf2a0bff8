import NetbsdAvr32.PmapLife
import NetbsdAvr32.PteBits

namespace NetbsdAvr32.Avr32
open Function Outcome Relation Space Option List
variable {m : Machine} {s s' : State} {v v' v₁ : Space} {pmap : PmapRef} {n va pa pg sva eva asid : Nat} {flush : Bool}
  {i : Info} {key : PmapRef × Nat} {again : Prop}

def KeysAligned (v : Space) : Prop := ∀ pg key, key ∈ v.pv pg → key.2 % nbpg = 0

theorem view_aligned (wf : Wf s) : KeysAligned (view m s) := by
  intro pg key member
  have rep := wf.rep m
  exact pv_aligned rep member

def insertPv (key : PmapRef × Nat) : List (PmapRef × Nat) → List (PmapRef × Nat)
  | [] => [key]
  | head :: rest => if key ∈ head :: rest then head :: rest else head :: key :: rest

-- The address space identifier pmap_remove flushes, and whether it does.
def flushAsid (pmap : PmapRef) (i : Info) : Nat := if pmap = .kernel then 0 else i.pmAsid
def needFlush (pmap : PmapRef) (i : Info) (u : Mmu) : Bool := pmap = .kernel || i.pmAsidgen == u.asidGeneration

def Space.evict (m : Machine) (pmap : PmapRef) (va : Nat) (i : Info) (v : Space) : Space :=
  v.unmapped m pmap va (flushAsid pmap i) (needFlush pmap i v.mmu) i

section
variable (m : Machine) (pmap : PmapRef) (va asid : Nat) (flush : Bool) (i : Info) (v : Space)

theorem unmapped_eq : v.unmapped m pmap va asid flush i =
    { v with
      pte := update v.pte pmap (update (v.pte pmap) (va / nbpg) 0#32)
      info := update v.info pmap (some (i.unmapped (v.pte pmap (va / nbpg))))
      pv := match physToVmPage m (avr32TlbpfnToPaddr (v.pte pmap (va / nbpg))).toNat with
        | some pg => update v.pv pg ((v.pv pg).erase (pmap,va))
        | none => v.pv
      mmu := if flush then v.mmu.flush va asid else v.mmu } := by
  unfold unmapped
  dsimp only
  cases physToVmPage m (avr32TlbpfnToPaddr (v.pte pmap (va / nbpg))).toNat <;> cases flush <;> rfl

theorem unmapped_pte : (v.unmapped m pmap va asid flush i).pte = update v.pte pmap (update (v.pte pmap) (va / nbpg) 0#32) := by rw [unmapped_eq]

theorem unmapped_info_eq : (v.unmapped m pmap va asid flush i).info = update v.info pmap (some (i.unmapped (v.pte pmap (va / nbpg)))) := by
  rw [unmapped_eq]

theorem unmapped_pv : (v.unmapped m pmap va asid flush i).pv =
      match physToVmPage m (avr32TlbpfnToPaddr (v.pte pmap (va / nbpg))).toNat with
      | some pg => update v.pv pg ((v.pv pg).erase (pmap,va))
      | none => v.pv := by
  rw [unmapped_eq]

theorem unmapped_mmu : (v.unmapped m pmap va asid flush i).mmu = if flush then v.mmu.flush va asid else v.mmu := by rw [unmapped_eq]
theorem unmapped_attrs : (v.unmapped m pmap va asid flush i).attrs = v.attrs := by rw [unmapped_eq]
theorem unmapped_seg : (v.unmapped m pmap va asid flush i).seg = v.seg := by rw [unmapped_eq]
theorem unmapped_nextPmap : (v.unmapped m pmap va asid flush i).nextPmap = v.nextPmap := by rw [unmapped_eq]
end

theorem unmapped_aligned (aligned : KeysAligned v) : KeysAligned (v.unmapped m pmap va asid flush i) := by
  intro pg key member
  rw [unmapped_pv] at member
  cases page : physToVmPage m (avr32TlbpfnToPaddr (v.pte pmap (va / nbpg))).toNat with
  | none =>
    rw [page] at member
    exact aligned pg key member
  | some pg' =>
    rw [page] at member
    by_cases same : pg = pg'
    · subst pg
      dsimp only at member
      rw [update_self] at member
      exact aligned pg' key (mem_of_mem_erase member)
    dsimp only at member
    rw [update_of_ne same] at member
    exact aligned pg key member

-- What the module keeps on top of Wf: kernel_pmap is never freed, and every
-- reverse-map entry names the start of a page.
structure Sound (v : Space) : Prop where
  kernel : (v.info .kernel).isSome
  aligned : KeysAligned v

theorem view_sound (wf : Wf s) : Sound (view m s) := by
  refine ⟨?_,view_aligned wf⟩
  have live := wf.kernel.1
  simpa [view] using live

theorem unmapped_sound (sound : Sound v) (held : v.info pmap = some i) : Sound (v.unmapped m pmap va asid flush i) :=
  ⟨(unmapped_info .kernel held).trans sound.kernel,unmapped_aligned sound.aligned⟩

theorem removeOne_parts (sound : Sound v) (ran : v.remove m pmap va (va + nbpg) = some v') :
    ∃ i, v.info pmap = some i ∧ InRange m va pmap ∧
      ((has (v.pte pmap (va / nbpg)) avr32PteValid = false ∧ v' = v) ∨
        (has (v.pte pmap (va / nbpg)) avr32PteValid = true ∧ v' = v.evict m pmap va i)) := by
  have single : pages va (va + nbpg) = [va] := by
    have one : pageCount va (va + nbpg) = 1 := by simp [pageCount,nbpg]
    simp [pages,one,pageList]
  have body : ∃ i, v.info pmap = some i ∧ v.unmapPte m pmap (flushAsid pmap i) (needFlush pmap i v.mmu) va = some v' := by
    unfold remove at ran
    rw [single] at ran
    cases pmap with
    | kernel =>
      obtain ⟨i,info⟩ := isSome_iff_exists.mp sound.kernel
      exact ⟨i,info,by simpa [flushAsid,needFlush,foldlM] using ran⟩
    | user n =>
      obtain ⟨i,info,rest⟩ := bind_some ran
      exact ⟨i,info,by simpa [flushAsid,needFlush,foldlM] using rest⟩
  obtain ⟨i,info,ran⟩ := body
  have inside := unmapPte_inside ran
  refine ⟨i,info,inside,?_⟩
  unfold unmapPte at ran
  rw [if_pos inside] at ran
  cases valid : has (v.pte pmap (va / nbpg)) avr32PteValid with
  | false =>
    simp only [valid,↓reduceIte,some.injEq] at ran
    exact .inl ⟨rfl,ran.symm⟩
  | true =>
    simp only [valid,Bool.true_eq_false,↓reduceIte,info,map_some,some.injEq] at ran
    exact .inr ⟨rfl,ran.symm⟩

theorem removeOne_valid (info : v.info (.user n) = some i) (below : va < vmMaxuserAddress)
    (valid : has (v.pte (.user n) (va / nbpg)) avr32PteValid = true) :
    v.remove m (.user n) va (va + nbpg) = some (v.evict m (.user n) va i) := by
  have single : pages va (va + nbpg) = [va] := by
    have one : pageCount va (va + nbpg) = 1 := by simp [pageCount,nbpg]
    simp [pages,one,pageList]
  have inside : InRange m va (.user n) := below
  unfold remove
  rw [single]
  simp [info,unmapPte,inside,valid,evict,flushAsid,needFlush,foldlM]

-- One mapping of page `pg` that clashes with `va` in the cache is taken out.
def Evicts (m : Machine) (va pg : Nat) (v v' : Space) : Prop :=
  ∃ key i, key ∈ v.pv pg ∧ v.info key.1 = some i ∧ key.2 % nbpg = 0 ∧ InRange m key.2 key.1 ∧
    avr32CacheIndexof m key.2 ≠ avr32CacheIndexof m va ∧ has (v.pte key.1 (key.2 / nbpg)) avr32PteValid = true ∧
    physToVmPage m (avr32TlbpfnToPaddr (v.pte key.1 (key.2 / nbpg))).toNat = some pg ∧ v' = v.evict m key.1 key.2 i

-- An entry whose PTE is not valid is found again after every `goto again`.
theorem enterPv_stuck (fuel : Nat) (sound : Sound v)
    (found : (v.pv pg).find? (fun key => avr32CacheIndexof m key.2 != avr32CacheIndexof m va) = some key)
    (stale : has (v.pte key.1 (key.2 / nbpg)) avr32PteValid = false) : v.enterPv m fuel pmap va pg = none := by
  induction fuel with
  | zero => rfl
  | succ fuel ih =>
    unfold enterPv
    cases list : v.pv pg with
    | nil => rw [list] at found; cases found
    | cons head rest =>
      rw [list] at found
      dsimp only
      rw [found]
      cases ran : v.remove m key.1 key.2 (key.2 + nbpg) with
      | none => simp [ran]
      | some v' =>
        obtain ⟨i,_,_,⟨_,rfl⟩ | ⟨valid,_⟩⟩ := removeOne_parts sound ran
        · dsimp only
          rw [ran,some_bind]
          exact ih
        rw [stale] at valid
        cases valid

theorem enterPv_parts (fuel : Nat) (sound : Sound v) (ran : v.enterPv m fuel pmap va pg = some v') :
    ∃ v₁, ReflTransGen (Evicts m va pg) v v₁ ∧ Sound v₁ ∧
      (∀ key ∈ v₁.pv pg, avr32CacheIndexof m key.2 = avr32CacheIndexof m va) ∧
      v' = {v₁ with pv := update v₁.pv pg (insertPv (pmap,va) (v₁.pv pg))} := by
  induction fuel generalizing v with
  | zero => cases ran
  | succ fuel ih =>
    unfold enterPv at ran
    cases list : v.pv pg with
    | nil =>
      rw [list] at ran
      refine ⟨v,.refl,sound,by simp [list],?_⟩
      rw [list]
      exact (some.inj ran).symm
    | cons head rest =>
      rw [list] at ran
      dsimp only at ran
      cases found : (head :: rest).find? (fun key => avr32CacheIndexof m key.2 != avr32CacheIndexof m va) with
      | none =>
        rw [found] at ran
        have colours : ∀ key ∈ v.pv pg, avr32CacheIndexof m key.2 = avr32CacheIndexof m va := by
          intro key member
          rw [list] at member
          simpa using find?_eq_none.mp found key member
        refine ⟨v,.refl,sound,colours,?_⟩
        rw [list,insertPv]
        split_ifs at ran ⊢ with listed
        · rw [← list,update_eq_self]
          exact (some.inj ran).symm
        · exact (some.inj ran).symm
      | some key =>
        rw [found] at ran
        obtain ⟨v₁,removed,rest'⟩ := bind_some ran
        have member : key ∈ v.pv pg := by rw [list]; exact mem_of_find?_eq_some found
        have clash : avr32CacheIndexof m key.2 ≠ avr32CacheIndexof m va := by
          have := find?_some found
          simpa using this
        have found' := found
        rw [← list] at found'
        obtain ⟨i,info,range,⟨stale,rfl⟩ | ⟨valid,rfl⟩⟩ := removeOne_parts sound removed
        · rw [enterPv_stuck fuel sound found' stale] at rest'
          cases rest'
        have sound₁ : Sound (v.evict m key.1 key.2 i) := unmapped_sound sound info
        -- A mapping of another frame leaves this list as it is: the loop
        -- comes back to the entry and finds its PTE gone.
        have mine : physToVmPage m (avr32TlbpfnToPaddr (v.pte key.1 (key.2 / nbpg))).toNat = some pg := by
          by_contra other
          have same : (v.evict m key.1 key.2 i).pv pg = v.pv pg := by
            rw [evict,unmapped_pv]
            cases page : physToVmPage m (avr32TlbpfnToPaddr (v.pte key.1 (key.2 / nbpg))).toNat with
            | none => rfl
            | some pg' =>
              have apart : pg ≠ pg' := fun equal => other (by rw [page,equal])
              exact update_of_ne apart _ _
          have gone : has ((v.evict m key.1 key.2 i).pte key.1 (key.2 / nbpg)) avr32PteValid = false := by
            rw [evict,unmapped_pte,update_self,update_self]
            exact has_zero _
          rw [← same] at found'
          rw [enterPv_stuck fuel sound₁ found' gone] at rest'
          cases rest'
        obtain ⟨v₂,steps,sound₂,colours,done⟩ := ih sound₁ rest'
        have first : Evicts m va pg v (v.evict m key.1 key.2 i) :=
          ⟨key,i,member,info,sound.aligned pg key member,range,clash,valid,mine,rfl⟩
        exact ⟨v₂,.head first steps,sound₂,colours,done⟩

def Space.store (v : Space) (n va : Nat) (i : Info) (w : Word) : Space :=
  {v.setPte (.user n) (va / nbpg) w with
    mmu := if i.pmAsidgen = v.mmu.asidGeneration then machTlbUpdate (tlbehiOf va i.pmAsid) w v.mmu else v.mmu}

def Info.wire (i : Info) (wired : Bool) : Info := {i with wiredCount := i.wiredCount + if wired then 1 else 0}

def Info.entered (i : Info) (entry : Word) (wired : Bool) : Info :=
  {i.wire wired with residentCount := i.residentCount + if has entry avr32PteValid then 0 else 1}

def Space.mapped (v : Space) (n va pg : Nat) (i : Info) (npte : Word) (wired : Bool) : Space :=
  {v with
    pv := update v.pv pg (insertPv (.user n,va) (v.pv pg))
    info := update v.info (.user n) (some (i.entered (v.pte (.user n) (va / nbpg)) wired))}.store n va i npte

theorem store_pte (v : Space) (n va : Nat) (i : Info) (w : Word) :
    (v.store n va i w).pte = update v.pte (.user n) (update (v.pte (.user n)) (va / nbpg) w) := rfl

theorem mapped_pte (v : Space) (n va pg : Nat) (i : Info) (w : Word) (wired : Bool) :
    (v.mapped n va pg i w wired).pte = update v.pte (.user n) (update (v.pte (.user n)) (va / nbpg) w) := rfl

theorem insert_sub (member : key ∈ insertPv k l) : key = k ∨ key ∈ l := by
  cases l with
  | nil => exact .inl (by simpa [insertPv] using member)
  | cons head rest =>
    simp only [insertPv] at member
    split_ifs at member with listed
    · exact .inr member
    simp only [mem_cons] at member ⊢
    tauto

def Space.listed (v : Space) (n va pg : Nat) (i : Info) (wired : Bool) : Space :=
  {v with
    pv := update v.pv pg (insertPv (.user n,va) (v.pv pg))
    info := update v.info (.user n) (some (i.wire wired))}

theorem listed_sound (sound : Sound v) (aligned : va % nbpg = 0) : Sound (v.listed n va pg i wired) := by
  refine ⟨?_,?_⟩
  · simpa [listed] using sound.kernel
  intro pg' key member
  by_cases here : pg' = pg
  · rw [here] at member
    simp only [listed,update_self] at member
    rcases insert_sub member with rfl | old
    · exact aligned
    · exact sound.aligned pg key old
  simp only [listed,update_of_ne here] at member
  exact sound.aligned pg' key member

theorem wired_listed (info : v.info (.user n) = some i) :
    (if wired = true then
        setInfo {v with pv := update v.pv pg (insertPv (.user n,va) (v.pv pg))} (.user n)
          {i with wiredCount := i.wiredCount + 1}
      else {v with pv := update v.pv pg (insertPv (.user n,va) (v.pv pg))}) = v.listed n va pg i wired := by
  cases wired with
  | true => rfl
  | false =>
    have plain : i.wire false = i := by simp [Info.wire]
    simp only [Bool.false_eq_true,↓reduceIte,listed,plain]
    rw [← info,update_eq_self]

theorem listed_evict (apart : ∀ pg', physToVmPage m (avr32TlbpfnToPaddr (v.pte (.user n) (va / nbpg))).toNat = some pg' →
      pg' ≠ pg) :
    (v.listed n va pg i wired).evict m (.user n) va (i.wire wired) =
      (v.evict m (.user n) va i).listed n va pg (i.unmapped (v.pte (.user n) (va / nbpg))) wired := by
  have asid : flushAsid (.user n) (i.wire wired) = flushAsid (.user n) i := rfl
  have need : needFlush (.user n) (i.wire wired) (v.listed n va pg i wired).mmu = needFlush (.user n) i v.mmu := rfl
  have word : (v.listed n va pg i wired).pte = v.pte := rfl
  simp only [evict,asid,need]
  apply Space.ext
  · simp only [Space.listed,unmapped_info_eq,update_idem]
    congr 2
    simp only [Info.wire,Info.unmapped,Info.mk.injEq,true_and,and_true]
    omega
  · simp only [listed,unmapped_seg]
  · simp only [listed,unmapped_pte]
  · simp only [listed,unmapped_pv]
    cases page : physToVmPage m (avr32TlbpfnToPaddr (v.pte (.user n) (va / nbpg))).toNat with
    | none => rfl
    | some pg' =>
      have other := apart pg' page
      dsimp only
      rw [update_of_ne other,update_of_ne (Ne.symm other),update_comm other]
  · simp only [listed,unmapped_attrs]
  · simp only [listed,unmapped_mmu]
  · simp only [listed,unmapped_nextPmap]

def Space.settled (v : Space) (n va pg : Nat) (i : Info) (npte : Word) (wired : Bool) : Space :=
  let v₁ := v.listed n va pg i wired
  (if has (v₁.pte (.user n) (va / nbpg)) avr32PteValid = false then
    v₁.setInfo (.user n) {i.wire wired with residentCount := (i.wire wired).residentCount + 1} else v₁).setPte
      (.user n) (va / nbpg) npte

theorem settled_exact (v : Space) (n va pg : Nat) (i : Info) (npte : Word) (wired : Bool) :
    v.settled n va pg i npte wired = {v with
      pv := update v.pv pg (insertPv (.user n,va) (v.pv pg))
      info := update v.info (.user n) (some (i.entered (v.pte (.user n) (va / nbpg)) wired))
      pte := update v.pte (.user n) (update (v.pte (.user n)) (va / nbpg) npte)} := by
  have word : (v.listed n va pg i wired).pte = v.pte := rfl
  unfold settled
  dsimp only
  rw [word]
  cases valid : has (v.pte (.user n) (va / nbpg)) avr32PteValid with
  | true =>
    have count : i.entered (v.pte (.user n) (va / nbpg)) wired = i.wire wired := by simp [Info.entered,Info.wire,valid]
    rw [count]
    rfl
  | false =>
    have count : i.entered (v.pte (.user n) (va / nbpg)) wired =
        {i.wire wired with residentCount := (i.wire wired).residentCount + 1} := by simp [Info.entered,Info.wire,valid]
    rw [count]
    simp [setInfo,listed,setPte]

theorem settled_mapped (ran : (do
      let j ← (v.settled n va pg i npte wired).info (.user n)
      some ((0 : Int),if j.pmAsidgen = (v.settled n va pg i npte wired).mmu.asidGeneration then
        (v.settled n va pg i npte wired).setMmu (machTlbUpdate (tlbehiOf va j.pmAsid) npte
          (v.settled n va pg i npte wired).mmu)
        else v.settled n va pg i npte wired)) = some (r,v')) : r = 0 ∧ v' = v.mapped n va pg i npte wired := by
  rw [settled_exact] at ran
  dsimp only at ran
  rw [update_self,some_bind] at ran
  cases ran
  refine ⟨rfl,?_⟩
  have gen : (i.entered (v.pte (.user n) (va / nbpg)) wired).pmAsidgen = i.pmAsidgen := rfl
  have asid : (i.entered (v.pte (.user n) (va / nbpg)) wired).pmAsid = i.pmAsid := rfl
  rw [gen,asid]
  unfold mapped store
  split <;> rfl

def Replaced (m : Machine) (n va pa : Nat) (v v' : Space) : Prop :=
  (v' = v ∧ (has (v.pte (.user n) (va / nbpg)) avr32PteValid = false ∨
    avr32TlbpfnToPaddr (v.pte (.user n) (va / nbpg)) = BitVec.ofNat 32 pa)) ∨
  ∃ i, v.info (.user n) = some i ∧ has (v.pte (.user n) (va / nbpg)) avr32PteValid = true ∧
    avr32TlbpfnToPaddr (v.pte (.user n) (va / nbpg)) ≠ BitVec.ofNat 32 pa ∧ v' = v.evict m (.user n) va i

theorem other_page (page : physToVmPage m pa = some pg) (aligned : pa % nbpg = 0)
    (other : avr32TlbpfnToPaddr w ≠ BitVec.ofNat 32 pa) (found : physToVmPage m (avr32TlbpfnToPaddr w).toNat = some pg') :
    pg' ≠ pg := by
  have number : ∀ x q, physToVmPage m x = some q → x / nbpg = q := by
    intro x q got
    unfold physToVmPage at got
    split at got
    · exact some.inj got
    · cases got
  intro equal
  refine other (frame_page ?_ aligned)
  rw [number _ _ found,number _ _ page,equal]

theorem userTail_parts (sound : Sound v) (page : physToVmPage m pa = some pg) (alignedVa : va % nbpg = 0)
    (alignedPa : pa % nbpg = 0)
    (ran : (do
        let (npte,v) ← enterPte m (.user n) va (BitVec.ofNat 32 pa) npte wired
          {v with pv := update v.pv pg (insertPv (.user n,va) (v.pv pg))}
        let i ← v.info (.user n)
        some ((0 : Int),if i.pmAsidgen = v.mmu.asidGeneration then
          v.setMmu (machTlbUpdate (tlbehiOf va i.pmAsid) npte v.mmu) else v)) = some (r,v')) :
    r = 0 ∧ va < vmMaxuserAddress ∧ ∃ v₁ i, Replaced m n va pa v v₁ ∧ v₁.info (.user n) = some i ∧
      v' = v₁.mapped n va pg i (enterWord npte wired) wired := by
  obtain ⟨⟨w,v₃⟩,entered,rest⟩ := bind_some ran
  obtain ⟨i,info,entered⟩ := bind_some entered
  have info' : v.info (.user n) = some i := info
  rw [wired_listed info'] at entered
  by_cases range : InRange m va (.user n)
  · rw [if_pos range] at entered
    have word : (v.listed n va pg i wired).pte = v.pte := rfl
    have held : (v.listed n va pg i wired).info (.user n) = some (i.wire wired) := update_self _ _ _
    by_cases moved : has (v.pte (.user n) (va / nbpg)) avr32PteValid = true ∧
        avr32TlbpfnToPaddr (v.pte (.user n) (va / nbpg)) ≠ BitVec.ofNat 32 pa
    · rw [word,if_pos moved] at entered
      obtain ⟨v₄,removed,entered⟩ := bind_some entered
      obtain ⟨i₄,info₄,entered⟩ := bind_some entered
      obtain ⟨i₃,same,_,⟨invalid,_⟩ | ⟨_,rfl⟩⟩ := removeOne_parts (listed_sound sound alignedVa) removed
      · rw [word,moved.1] at invalid
        cases invalid
      rw [held] at same
      cases same
      rw [listed_evict (fun pg' found => other_page page alignedPa moved.2 found)] at entered info₄
      have info₅ : (v.evict m (.user n) va i).info (.user n) = some (i.unmapped (v.pte (.user n) (va / nbpg))) := by
        rw [evict,unmapped_info_eq,update_self]
      have current : ((v.evict m (.user n) va i).listed n va pg (i.unmapped (v.pte (.user n) (va / nbpg))) wired).info
          (.user n) = some ((i.unmapped (v.pte (.user n) (va / nbpg))).wire wired) := update_self _ _ _
      rw [current] at info₄
      cases info₄
      cases entered
      obtain ⟨zero,done⟩ := settled_mapped rest
      exact ⟨zero,range,_,_,.inr ⟨i,info',moved.1,moved.2,rfl⟩,info₅,done⟩
    rw [word,if_neg moved,some_bind] at entered
    obtain ⟨i₄,info₄,entered⟩ := bind_some entered
    rw [held] at info₄
    cases info₄
    have kept : has (v.pte (.user n) (va / nbpg)) avr32PteValid = false ∨
        avr32TlbpfnToPaddr (v.pte (.user n) (va / nbpg)) = BitVec.ofNat 32 pa := by
      by_cases valid : has (v.pte (.user n) (va / nbpg)) avr32PteValid = true
      · exact .inr (not_not.mp (fun other => moved ⟨valid,other⟩))
      · exact .inl (by simpa using valid)
    cases entered
    obtain ⟨zero,done⟩ := settled_mapped rest
    exact ⟨zero,range,v,i,.inl ⟨rfl,kept⟩,info',done⟩
  · rw [if_neg range] at entered
    cases entered


theorem enter_parts (sound : Sound v) (alignedVa : va % nbpg = 0) (alignedPa : pa % nbpg = 0)
    (ran : v.enter m fuel (.user n) va pa prot flags mem = some (r,v')) :
    ∃ pg code, physToVmPage m pa = some pg ∧ pteProt (.user n) prot = .ok code ∧
      ((r = enomem ∧ v' = {v with attrs := update v.attrs pg (enterAttrs flags (v.attrs pg))}) ∨
        (r = 0 ∧ va < vmMaxuserAddress ∧ ∃ seg v₁ v₂ i,
          ReflTransGen (Evicts m va pg)
            {v with attrs := update v.attrs pg (enterAttrs flags (v.attrs pg)), seg := seg} v₁ ∧
          (∀ key ∈ v₁.pv pg, avr32CacheIndexof m key.2 = avr32CacheIndexof m va) ∧
          Replaced m n va pa v₁ v₂ ∧ v₂.info (.user n) = some i ∧
          v' = v₂.mapped n va pg i (userWord code prot (enterAttrs flags (v.attrs pg)) pa (has flags pmapWired))
            (has flags pmapWired))) := by
  obtain ⟨pg,page,ran⟩ := bind_some ran
  obtain ⟨code,chosen,ran⟩ := bind_some ran
  have code' : pteProt (.user n) prot = .ok code := by
    cases got : pteProt (.user n) prot with
    | error e => rw [got] at chosen; cases chosen
    | ok c => rw [got] at chosen; cases chosen; rfl
  refine ⟨pg,code,page,code',?_⟩
  simp only [reduceCtorEq,↓reduceIte] at ran
  by_cases above : vmMaxuserAddress ≤ va
  · rw [if_pos above] at ran; cases ran
  rw [if_neg above] at ran
  obtain ⟨_,_,ran⟩ := bind_some ran
  split at ran
  · split at ran
    · cases ran
      exact .inl ⟨rfl,rfl⟩
    · cases ran
  obtain ⟨v₁,listed,ran⟩ := bind_some ran
  have sound₀ : Sound {v with
      attrs := update v.attrs pg (enterAttrs flags (v.attrs pg))
      seg := update v.seg (.user n) (update (v.seg (.user n)) (va / nbseg) true)} := ⟨sound.kernel,sound.aligned⟩
  obtain ⟨v₂,steps,sound₂,colours,rfl⟩ := enterPv_parts fuel sound₀ listed
  obtain ⟨zero,below,v₃,i,replaced,info,done⟩ := userTail_parts sound₂ page alignedVa alignedPa ran
  exact .inr ⟨zero,below,_,v₂,v₃,i,steps,colours,replaced,info,done⟩
end NetbsdAvr32.Avr32
