import NetbsdAvr32.PmapRun

namespace NetbsdAvr32.Avr32
open Function Outcome Relation BitVec Nat Space Option
variable {m : Machine} {s s' : State} {v v' : Space} {pmap : PmapRef} {n va vpn asid rolls : Nat} {i : Info} {w : Word}
  {u u' : Mmu} {again : Prop} {p p' : Pmap}

theorem vpn_field (x : Word) (small : va < 2 ^ 32) (bits : ∀ k, 12 ≤ k → k < 32 → x.getLsbD k = va.testBit k) :
    tlbVpn x = va / nbpg := by
  have shape : tlbVpn x = x.toNat / 2 ^ 12 := by
    rw [tlbVpn,toNat_ushiftRight,shiftRight_eq_div_pow]
  rw [shape]
  apply eq_of_testBit_eq
  intro k
  have page : va / nbpg = va / 2 ^ 12 := rfl
  rw [page,testBit_div_two_pow,testBit_div_two_pow]
  by_cases inside : k + 12 < 32
  · exact bits (k + 12) (by omega) inside
  rw [high_bit small (by omega : 32 ≤ k + 12)]
  exact getLsbD_of_ge x _ (by omega)

theorem asid_high (small : asid < 256) (high : 8 ≤ k) : asid.testBit k = false := by
  have low : asid < 2 ^ 8 := small
  exact high_bit low high

theorem asid_field (x : Word) (small : asid < 256) (bits : ∀ k, k < 8 → x.getLsbD k = asid.testBit k) :
    tlbAsidField x = asid := by
  apply eq_of_testBit_eq
  intro k
  by_cases low : k < 8
  · have bit : (x &&& avr32PgAsid).getLsbD k = asid.testBit k := by
      rw [getLsbD_and,asid_bit (by omega),bits k low]
      simp [low]
    exact bit
  rw [asid_high small (by omega)]
  by_cases inside : k < 32
  · have bit : (x &&& avr32PgAsid).getLsbD k = false := by
      rw [getLsbD_and,asid_bit inside]
      simp [low]
    exact bit
  · exact getLsbD_of_ge _ _ (by omega)

theorem tlbValid_bit (small : k < 32) : avr32PgValid.getLsbD k = decide (k = 9) := cached_bit small

theorem tlbehiOf_fields (below : va < 2 ^ 32) (small : asid < 256) :
    tlbVpn (tlbehiOf va asid) = va / nbpg ∧ tlbAsidField (tlbehiOf va asid) = asid ∧
      has (tlbehiOf va asid) avr32PgValid = true := by
  have bit : ∀ k, k < 32 → (tlbehiOf va asid).getLsbD k =
      (va.testBit k && decide (12 ≤ k) || decide (k = 9) || asid.testBit k) := by
    intro k small
    simp only [tlbehiOf,avr32VaddrToTlbvpn,getLsbD_or,getLsbD_and,ofNat_bit small,vpn_bit small,
      tlbValid_bit small]
  refine ⟨vpn_field _ below ?_,asid_field _ small ?_,?_⟩
  · intro k high inside
    rw [bit k inside,asid_high small (by omega)]
    have other : k ≠ 9 := by omega
    simp [high,other]
  · intro k low
    rw [bit k (by omega)]
    have other : k ≠ 9 ∧ ¬ 12 ≤ k := by omega
    simp [other]
  rw [has_tlbValid,bit 9 (by decide)]
  simp

theorem flush_fields (below : va < 2 ^ 32) (aligned : va % nbpg = 0) (small : asid < 256) (u : Mmu) :
    u.flush va asid = u.drop (va / nbpg) asid := by
  have bit : ∀ k, k < 32 → (BitVec.ofNat 32 va ||| BitVec.ofNat 32 asid ||| avr32PgValid).getLsbD k =
      (va.testBit k || asid.testBit k || decide (k = 9)) := by
    intro k small
    simp only [getLsbD_or,ofNat_bit small,tlbValid_bit small]
  have page : tlbVpn (BitVec.ofNat 32 va ||| BitVec.ofNat 32 asid ||| avr32PgValid) = va / nbpg := by
    refine vpn_field _ below ?_
    intro k high inside
    rw [bit k inside,asid_high small (by omega)]
    have other : k ≠ 9 := by omega
    simp [other]
  have tag : tlbAsidField (BitVec.ofNat 32 va ||| BitVec.ofNat 32 asid ||| avr32PgValid) = asid := by
    refine asid_field _ small ?_
    intro k low
    rw [bit k (by omega),aligned_bit aligned (by omega)]
    have other : k ≠ 9 := by omega
    simp [other]
  unfold Mmu.flush
  dsimp only
  rw [page,tag]

def tlbWord (w : Word) : Word := w &&& ~~~(avr32PteWired ||| avr32PteValid)

theorem tlbWord_bit (small : k < 30) : (tlbWord w).getLsbD k = w.getLsbD k := by
  have one : avr32PteWired.getLsbD k = false := by rw [wired_bit (by omega)]; simp; omega
  have two : avr32PteValid.getLsbD k = false := by rw [valid_bit (by omega)]; simp; omega
  simp only [tlbWord,getLsbD_and,getLsbD_not,getLsbD_or,one,two]
  simp
  omega

structure Agrees (entry pte : Word) : Prop where
  valid : has pte avr32PteValid = true
  frame : avr32TlbpfnToPaddr entry = avr32TlbpfnToPaddr pte
  access : entry &&& avr32PgAccess = pte &&& avr32PgAccess
  dirty : has entry avr32PgDirty = true → has pte avr32PgDirty = true

theorem tlbWord_agrees (valid : has w avr32PteValid = true) : Agrees (tlbWord w) w := by
  refine ⟨valid,frame_same (fun k _ high => tlbWord_bit high),?_,?_⟩
  · apply eq_of_getLsbD_eq
    intro k small
    rw [getLsbD_and,getLsbD_and,access_bit small]
    by_cases inside : 4 ≤ k ∧ k < 7
    · rw [tlbWord_bit (by omega)]
    · simp [inside]
  intro dirty
  rw [has_dirty,tlbWord_bit (by decide)] at dirty
  rw [has_dirty]
  exact dirty

theorem tlbWord_local (plain : has w avr32PgGlobal = false) : has (tlbWord w) avr32PgGlobal = false := by
  rw [has_global,tlbWord_bit (by decide),← has_global]
  exact plain

theorem machTlbUpdate_spec (below : va < 2 ^ 32) (small : asid < 256) (w : Word) (u : Mmu) :
    machTlbUpdate (tlbehiOf va asid) w u = {u.drop (va / nbpg) asid with
      tlb := ⟨va / nbpg,asid,has (tlbWord w) avr32PgGlobal,tlbWord w⟩ :: (u.drop (va / nbpg) asid).tlb} := by
  obtain ⟨page,tag,valid⟩ := tlbehiOf_fields below small
  unfold machTlbUpdate
  rw [page,tag,valid]
  rfl

def tags (v : Space) (pmap : PmapRef) : Option (Nat × Nat) := (v.info pmap).map (fun i => (i.pmAsid,i.pmAsidgen))

-- ASIDs of the current generation are below pmap_next_asid and have one owner,
-- and an entry carrying one was taken from its owner's page table.
structure TlbSound (tag : PmapRef → Option (Nat × Nat)) (pte : PmapRef → Nat → Word) (u : Mmu) : Prop where
  room : u.maxAsid = 256 ∧ 1 ≤ u.nextAsid ∧ u.nextAsid ≤ 256
  past : ∀ q a g, tag q = some (a,g) → g ≤ u.asidGeneration
  below : ∀ q a, tag q = some (a,u.asidGeneration) → a < u.nextAsid
  distinct : ∀ q q' a, a ≠ 0 → tag q = some (a,u.asidGeneration) → tag q' = some (a,u.asidGeneration) → q = q'
  plain : ∀ e ∈ u.tlb, e.global = false ∧ e.asid < u.nextAsid
  coherent : ∀ e ∈ u.tlb, ∀ n, e.asid ≠ 0 → tag (.user n) = some (e.asid,u.asidGeneration) →
    Agrees e.pte (pte (.user n) e.vpn)
  current : ∃ a, tag u.cur = some (a,u.asidGeneration) ∧ u.tlbAsid = a ∧ (u.cur ≠ .kernel → a ≠ 0)
  words : ∀ n vpn, pte (.user n) vpn = 0#32 ∨
    (has (pte (.user n) vpn) avr32PteValid = true ∧ has (pte (.user n) vpn) avr32PgGlobal = false)

variable {tag : PmapRef → Option (Nat × Nat)} {pte pte' : PmapRef → Nat → Word}

theorem tlb_rewrite (n vpn : Nat) (w : Word) (sound : TlbSound tag pte u)
    (table : pte' = update pte (.user n) (update (pte (.user n)) vpn w))
    (word : w = 0#32 ∨ (has w avr32PteValid = true ∧ has w avr32PgGlobal = false))
    (same : u'.maxAsid = u.maxAsid ∧ u'.nextAsid = u.nextAsid ∧ u'.asidGeneration = u.asidGeneration ∧
      u'.cur = u.cur ∧ u'.tlbAsid = u.tlbAsid)
    (entries : ∀ e ∈ u'.tlb, (e ∈ u.tlb ∧
        (e.asid ≠ 0 → tag (.user n) = some (e.asid,u.asidGeneration) → e.vpn ≠ vpn)) ∨
      (e.global = false ∧ tag (.user n) = some (e.asid,u.asidGeneration) ∧ e.vpn = vpn ∧ Agrees e.pte w)) :
    TlbSound tag pte' u' := by
  obtain ⟨max,next,gen,cur,reg⟩ := same
  have here : pte' (.user n) vpn = w := by rw [table,update_self,update_self]
  have other : ∀ n' vpn', (n',vpn') ≠ (n,vpn) → pte' (.user n') vpn' = pte (.user n') vpn' := by
    intro n' vpn' apart
    rw [table]
    by_cases mine : n' = n
    · subst n'
      have away : vpn' ≠ vpn := fun equal => apart (by rw [equal])
      rw [update_self,update_of_ne away]
    · rw [update_of_ne (by simpa using mine)]
  refine ⟨?_,?_,?_,?_,?_,?_,?_,?_⟩
  · rw [max,next]
    exact sound.room
  · rw [gen]
    exact sound.past
  · rw [gen,next]
    exact sound.below
  · rw [gen]
    exact sound.distinct
  · intro e member
    rw [next]
    rcases entries e member with ⟨old,_⟩ | ⟨plain,mine,_,_⟩
    · exact sound.plain e old
    · exact ⟨plain,sound.below _ _ mine⟩
  · intro e member n' live owner
    rw [gen] at owner
    rcases entries e member with ⟨old,away⟩ | ⟨_,mine,page,agrees⟩
    · have apart : (n',e.vpn) ≠ (n,vpn) := by
        intro equal
        cases equal
        exact away live owner rfl
      rw [other n' e.vpn apart]
      exact sound.coherent e old n' live owner
    have equal := sound.distinct _ _ _ live owner mine
    cases equal
    rw [page,here]
    exact agrees
  · rw [gen,cur,reg]
    exact sound.current
  intro n' vpn'
  by_cases mine : (n',vpn') = (n,vpn)
  · cases mine
    rw [here]
    exact word
  rw [other n' vpn' mine]
  exact sound.words n' vpn'

theorem drop_entry (member : e ∈ (u.drop vpn asid).tlb) : e ∈ u.tlb ∧ (e.vpn = vpn → e.asid ≠ asid) := by
  simp only [Mmu.drop,List.mem_filter,TlbEntry.matches] at member
  refine ⟨member.1,?_⟩
  intro page tag
  simp [page,tag] at member

section
variable (sound : TlbSound tag pte u)
include sound

theorem tlb_store (below : va < vmMaxuserAddress)
    (mine : tag (.user n) = some (asid,u.asidGeneration)) (valid : has w avr32PteValid = true)
    (plain : has w avr32PgGlobal = false) :
    TlbSound tag (update pte (.user n) (update (pte (.user n)) (va / nbpg) w)) (machTlbUpdate (tlbehiOf va asid) w u) := by
  have small : asid < 256 := lt_of_lt_of_le (sound.below _ _ mine) sound.room.2.2
  have word : va < 2 ^ 32 := lt_trans below (by decide)
  rw [machTlbUpdate_spec word small]
  refine tlb_rewrite n (va / nbpg) w sound rfl (.inr ⟨valid,plain⟩) ⟨rfl,rfl,rfl,rfl,rfl⟩ ?_
  intro e member
  rcases List.mem_cons.mp member with rfl | old
  · exact .inr ⟨tlbWord_local plain,mine,rfl,tlbWord_agrees valid⟩
  obtain ⟨kept,away⟩ := drop_entry old
  refine .inl ⟨kept,?_⟩
  intro _ owner page
  rw [mine] at owner
  cases owner
  exact away page rfl

theorem tlb_stale (mine : tag (.user n) = some (asid,g)) (stale : g ≠ u.asidGeneration)
    (word : w = 0#32 ∨ (has w avr32PteValid = true ∧ has w avr32PgGlobal = false)) :
    TlbSound tag (update pte (.user n) (update (pte (.user n)) vpn w)) u := by
  refine tlb_rewrite n vpn w sound rfl word ⟨rfl,rfl,rfl,rfl,rfl⟩ ?_
  intro e member
  refine .inl ⟨member,?_⟩
  intro _ owner
  rw [mine] at owner
  simp only [some.injEq,Prod.mk.injEq] at owner
  exact absurd owner.2 stale

theorem tlb_flush (below : va < vmMaxuserAddress) (aligned : va % nbpg = 0)
    (mine : tag (.user n) = some (asid,u.asidGeneration)) :
    TlbSound tag (update pte (.user n) (update (pte (.user n)) (va / nbpg) 0#32)) (u.flush va asid) := by
  have small : asid < 256 := lt_of_lt_of_le (sound.below _ _ mine) sound.room.2.2
  have word : va < 2 ^ 32 := lt_trans below (by decide)
  rw [flush_fields word aligned small]
  refine tlb_rewrite n (va / nbpg) 0#32 sound rfl (.inl rfl) ⟨rfl,rfl,rfl,rfl,rfl⟩ ?_
  intro e member
  obtain ⟨kept,away⟩ := drop_entry member
  refine .inl ⟨kept,?_⟩
  intro _ owner page
  rw [mine] at owner
  cases owner
  exact away page rfl

theorem tlb_retag {tag' : PmapRef → Option (Nat × Nat)} 
    (old : ∀ q a g, tag' q = some (a,g) → tag q = some (a,g) ∨ (a = 0 ∧ g = u.asidGeneration))
    (cur : tag' u.cur = tag u.cur)
    (tables : ∀ n a g, a ≠ 0 → tag' (.user n) = some (a,g) → pte' (.user n) = pte (.user n))
    (words : ∀ n vpn, pte' (.user n) vpn = 0#32 ∨ pte' (.user n) vpn = pte (.user n) vpn) : TlbSound tag' pte' u := by
  have kept : ∀ q a g, a ≠ 0 → tag' q = some (a,g) → tag q = some (a,g) := by
    intro q a g live held
    rcases old q a g held with same | ⟨zero,_⟩
    · exact same
    · exact absurd zero live
  refine ⟨sound.room,?_,?_,?_,sound.plain,?_,?_,?_⟩
  · intro q a g held
    rcases old q a g held with same | ⟨_,gen⟩
    · exact sound.past q a g same
    · exact le_of_eq gen
  · intro q a held
    rcases old q a _ held with same | ⟨zero,_⟩
    · exact sound.below q a same
    rw [zero]
    exact sound.room.2.1
  · intro q q' a live one two
    exact sound.distinct q q' a live (kept q a _ live one) (kept q' a _ live two)
  · intro e member n live owner
    rw [tables n _ _ live owner]
    exact sound.coherent e member n live (kept _ _ _ live owner)
  · rw [cur]
    exact sound.current
  intro n vpn
  rcases words n vpn with zero | same
  · exact .inl zero
  rw [same]
  exact sound.words n vpn
end

-- The invariant of runs. Numbers not handed out name no pmap.
structure SpaceTlb (v : Space) : Prop where
  sound : TlbSound (tags v) v.pte v.mmu
  fresh : ∀ n, v.nextPmap ≤ n → v.info (.user n) = none

theorem tags_same (info : v.info (.user n) = some i) (infos : v'.info = update v.info (.user n) (some j))
    (asid : j.pmAsid = i.pmAsid) (gen : j.pmAsidgen = i.pmAsidgen) : tags v' = tags v := by
  funext q
  unfold tags
  rw [infos]
  by_cases mine : q = .user n
  · subst q
    rw [update_self,info]
    simp [asid,gen]
  · rw [update_of_ne mine]

theorem store_tlb (sound : TlbSound (tags v) v.pte v.mmu) (info : v.info (.user n) = some i)
    (below : va < vmMaxuserAddress) (valid : has w avr32PteValid = true) (plain : has w avr32PgGlobal = false) :
    TlbSound (tags v) (v.store n va i w).pte (v.store n va i w).mmu := by
  have mine : tags v (.user n) = some (i.pmAsid,i.pmAsidgen) := by simp [tags,info]
  unfold store
  split
  · rename_i current
    rw [current] at mine
    exact tlb_store sound below mine valid plain
  rename_i stale
  exact tlb_stale sound mine stale (.inr ⟨valid,plain⟩)

theorem fresh_kept (fresh : ∀ n, v.nextPmap ≤ n → v.info (.user n) = none) (info : v.info pmap = some i)
    (infos : v'.info = update v.info pmap (some j)) (next : v'.nextPmap = v.nextPmap) :
    ∀ n, v'.nextPmap ≤ n → v'.info (.user n) = none := by
  intro n late
  rw [next] at late
  have none := fresh n late
  have other : PmapRef.user n ≠ pmap := by
    intro equal
    rw [← equal,none] at info
    cases info
  rw [infos,update_of_ne other]
  exact none

theorem create_tlb (space : SpaceTlb v) : SpaceTlb v.create := by
  obtain ⟨sound,fresh⟩ := space
  have dead := fresh v.nextPmap (le_refl _)
  have idle : v.mmu.cur ≠ .user v.nextPmap := by
    intro equal
    obtain ⟨a,owner,_⟩ := sound.current
    rw [equal,tags,dead] at owner
    cases owner
  refine ⟨tlb_retag sound ?_ ?_ (fun _ _ _ _ _ => rfl) (fun _ _ => .inr rfl),?_⟩
  · intro q a g held
    by_cases new : q = .user v.nextPmap
    · subst q
      simp only [tags,create,update_self,map_some,some.injEq,Prod.mk.injEq] at held
      exact .inr ⟨held.1.symm,held.2.symm⟩
    simp only [tags,create,update_of_ne new] at held
    exact .inl held
  · simp only [tags,create]
    rw [update_of_ne idle]
  intro n late
  have later : v.nextPmap + 1 ≤ n := late
  have other : PmapRef.user n ≠ .user v.nextPmap := by
    intro equal
    cases equal
    omega
  simp only [create,update_of_ne other]
  exact fresh n (by omega)

theorem micro_tlb (space : SpaceTlb v) (step : Micro m again v v') : SpaceTlb v' := by
  have sound := space.sound
  cases step with
  | unmap n va i info aligned below valid =>
    have mine : tags v (.user n) = some (i.pmAsid,i.pmAsidgen) := by simp [tags,info]
    have infos := unmapped_info_eq m (.user n) va (flushAsid (.user n) i) (needFlush (.user n) i v.mmu) i v
    refine ⟨?_,fresh_kept space.fresh info infos (unmapped_nextPmap ..)⟩
    unfold evict
    rw [tags_same info infos rfl rfl,unmapped_pte,unmapped_mmu]
    by_cases current : i.pmAsidgen = v.mmu.asidGeneration
    · have need : needFlush (.user n) i v.mmu = true := by simp [needFlush,current]
      rw [if_pos need]
      rw [current] at mine
      exact tlb_flush sound below aligned mine
    have need : ¬ needFlush (.user n) i v.mmu = true := by simp [needFlush,current]
    rw [if_neg need]
    exact tlb_stale sound mine current (.inl rfl)
  | reprotect n va i prot code info aligned below valid chosen =>
    have word := sound.words n (va / nbpg)
    have plain : has (v.pte (.user n) (va / nbpg)) avr32PgGlobal = false := by
      rcases word with zero | both
      · rw [zero,has_zero] at valid; cases valid
      · exact both.2
    refine ⟨store_tlb sound info below ?_ ?_,space.fresh⟩
    · rw [has_valid,reprotected_bit chosen (by decide) (by decide) (by decide),← has_valid]
      exact valid
    rw [has_global,reprotected_bit chosen (by decide) (by decide) (by decide),← has_global]
    exact plain
  | map n va pa pg i prot code wired info alignedVa below alignedPa page chosen old colours once =>
    have low := (page_low page).1
    have stored := store_tlb (w := userWord code prot (v.attrs pg) pa wired) sound info below
      (userWord_valid alignedPa low) (userWord_local chosen alignedPa low)
    have infos : (v.mapped n va pg i (userWord code prot (v.attrs pg) pa wired) wired).info =
        update v.info (.user n) (some (i.entered (v.pte (.user n) (va / nbpg)) wired)) := rfl
    refine ⟨?_,fresh_kept space.fresh info infos rfl⟩
    rw [tags_same info infos rfl rfl]
    exact stored
  | create => exact create_tlb space
  | count pmap i c info =>
    refine ⟨?_,fresh_kept space.fresh info rfl rfl⟩
    have same : tags (v.setInfo pmap {i with pmCount := c}) = tags v := by
      funext q
      by_cases mine : q = pmap
      · subst q; simp [tags,setInfo,info]
      · simp [tags,setInfo,mine]
    rw [same]
    exact sound
  | free n idle empty =>
    refine ⟨tlb_retag sound ?_ ?_ ?_ ?_,?_⟩
    · intro q a g held
      by_cases mine : q = .user n
      · subst q; simp [tags] at held
      simp only [tags,update_of_ne mine] at held
      exact .inl held
    · simp only [tags]
      rw [update_of_ne idle]
    · intro n' a g _ held
      by_cases mine : n' = n
      · subst n'; simp [tags] at held
      · exact update_of_ne (by simpa using mine) _ _
    · intro n' vpn
      by_cases mine : n' = n
      · subst n'; simp
      refine .inr ?_
      dsimp only
      rw [update_of_ne (by simpa using mine)]
    intro n' late
    by_cases mine : n' = n
    · subst n'; simp
    dsimp only
    rw [update_of_ne (by simpa using mine)]
    exact space.fresh n' late
  | load n va i cur info below some =>
    obtain ⟨a,owner,reg,_⟩ := sound.current
    rw [cur] at owner
    rcases sound.words n (va / nbpg) with zero | ⟨valid,plain⟩
    · exact absurd zero some
    have stored := tlb_store sound below owner valid plain
    rw [update_eq_self,update_eq_self] at stored
    rw [← reg] at stored
    exact ⟨stored,space.fresh⟩
  | modify n va pg i cur info below valid writable frame =>
    obtain ⟨a,owner,_,_⟩ := sound.current
    rw [cur] at owner
    have asid : a = i.pmAsid := by
      simp only [tags,info,map_some,some.injEq,Prod.mk.injEq] at owner
      exact owner.1.symm
    subst asid
    rcases sound.words n (va / nbpg) with zero | ⟨_,plain⟩
    · rw [zero,has_zero] at valid; cases valid
    refine ⟨tlb_store sound below owner ?_ ?_,space.fresh⟩
    · rw [has_valid,dirtied_bit (by decide) (by decide),← has_valid]
      exact valid
    rw [has_global,dirtied_bit (by decide) (by decide),← has_global]
    exact plain
  | mark | segment => exact ⟨sound,space.fresh⟩

theorem setPid_register (small : asid < 256) (u : Mmu) : (machSetPid asid u).tlbAsid = asid := by
  refine asid_field _ small ?_
  intro k low
  rw [ofNat_bit (by omega)]

theorem switch_tlb (sound : TlbSound tag pte u) (mine : tag pmap = some (asid,u.asidGeneration)) (live : asid ≠ 0) :
    TlbSound tag pte {machSetPid asid u with cur := pmap} := by
  have small : asid < 256 := lt_of_lt_of_le (sound.below _ _ mine) sound.room.2.2
  exact ⟨sound.room,sound.past,sound.below,sound.distinct,sound.plain,sound.coherent,
    ⟨asid,mine,setPid_register small u,fun _ => live⟩,sound.words⟩

theorem allocate_tlb (sound : TlbSound tag pte u) (room : u.nextAsid ≠ u.maxAsid) :
    TlbSound (update tag pmap (some (u.nextAsid,u.asidGeneration))) pte
      {machSetPid u.nextAsid {u with nextAsid := u.nextAsid + 1} with cur := pmap} := by
  obtain ⟨max,least,most⟩ := sound.room
  have small : u.nextAsid < 256 := by omega
  have cases : ∀ q a g, update tag pmap (some (u.nextAsid,u.asidGeneration)) q = some (a,g) →
      (q = pmap ∧ a = u.nextAsid ∧ g = u.asidGeneration) ∨ (q ≠ pmap ∧ tag q = some (a,g)) := by
    intro q a g held
    by_cases mine : q = pmap
    · subst q
      rw [update_self] at held
      simp only [some.injEq,Prod.mk.injEq] at held
      exact .inl ⟨rfl,held.1.symm,held.2.symm⟩
    rw [update_of_ne mine] at held
    exact .inr ⟨mine,held⟩
  refine ⟨⟨max,by dsimp only [machSetPid]; omega,by dsimp only [machSetPid]; omega⟩,?_,?_,?_,?_,?_,?_,sound.words⟩
  · intro q a g held
    rcases cases q a g held with ⟨_,_,gen⟩ | ⟨_,old⟩
    · exact le_of_eq gen
    · exact sound.past q a g old
  · intro q a held
    rcases cases q a _ held with ⟨_,new,_⟩ | ⟨_,old⟩
    · rw [new]
      exact lt_succ_self _
    · exact lt_succ_of_lt (sound.below q a old)
  · intro q q' a live one two
    rcases cases q a _ one with ⟨mine,new,_⟩ | ⟨_,one⟩
    · rcases cases q' a _ two with ⟨too,_,_⟩ | ⟨_,two⟩
      · rw [mine,too]
      have less := sound.below q' a two
      omega
    rcases cases q' a _ two with ⟨_,new,_⟩ | ⟨_,two⟩
    · have less := sound.below q a one
      omega
    · exact sound.distinct q q' a live one two
  · intro e member
    obtain ⟨plain,less⟩ := sound.plain e member
    exact ⟨plain,lt_succ_of_lt less⟩
  · intro e member n live owner
    rcases cases _ _ _ owner with ⟨_,new,_⟩ | ⟨_,old⟩
    · have less := (sound.plain e member).2
      omega
    · exact sound.coherent e member n live old
  refine ⟨u.nextAsid,update_self _ _ _,setPid_register small {u with nextAsid := u.nextAsid + 1},fun _ => ?_⟩
  omega

theorem rollOver_tlb (pmap : PmapRef) (sound : TlbSound tag pte u) (few : u.asidGeneration + 1 < 2 ^ 32) :
    TlbSound (update tag pmap (some (1,u.asidGeneration + 1))) pte
      {machSetPid 1 {avr32Tbiap u with asidGeneration := (u.asidGeneration + 1) % 2 ^ 32, nextAsid := 2} with cur := pmap} := by
  have gen : (u.asidGeneration + 1) % 2 ^ 32 = u.asidGeneration + 1 := mod_eq_of_lt few
  rw [gen]
  have cases : ∀ q a g, update tag pmap (some (1,u.asidGeneration + 1)) q = some (a,g) →
      (q = pmap ∧ a = 1 ∧ g = u.asidGeneration + 1) ∨ g ≤ u.asidGeneration := by
    intro q a g held
    by_cases mine : q = pmap
    · subst q
      rw [update_self] at held
      simp only [some.injEq,Prod.mk.injEq] at held
      exact .inl ⟨rfl,held.1.symm,held.2.symm⟩
    rw [update_of_ne mine] at held
    exact .inr (sound.past q a g held)
  have empty : ∀ e, e ∉ (avr32Tbiap u).tlb := by
    intro e member
    simp only [avr32Tbiap,List.mem_filter] at member
    rw [(sound.plain e member.1).1] at member
    cases member.2
  refine ⟨⟨sound.room.1,by simp [machSetPid],by simp [machSetPid]⟩,?_,?_,?_,?_,?_,?_,sound.words⟩
  · intro q a g held
    rcases cases q a g held with ⟨_,_,new⟩ | old
    · exact le_of_eq new
    · exact le_succ_of_le old
  · intro q a held
    rcases cases q a _ held with ⟨_,one,_⟩ | old
    · rw [one]
      exact lt_succ_self 1
    · exact absurd old (not_succ_le_self _)
  · intro q q' a _ one two
    rcases cases q a _ one with ⟨mine,_,_⟩ | old
    · rcases cases q' a _ two with ⟨too,_,_⟩ | old
      · rw [mine,too]
      · exact absurd old (not_succ_le_self _)
    · exact absurd old (not_succ_le_self _)
  · intro e member
    exact absurd member (empty e)
  · intro e member
    exact absurd member (empty e)
  exact ⟨1,update_self _ _ _,setPid_register (by decide)
    {avr32Tbiap u with asidGeneration := u.asidGeneration + 1, nextAsid := 2},fun _ => by decide⟩

theorem activated_tlb (space : SpaceTlb v) (info : v.info pmap = some i)
    (few : (v.activated pmap i).mmu.asidGeneration = v.mmu.asidGeneration ∨ v.mmu.asidGeneration + 1 < 2 ^ 32) :
    SpaceTlb (v.activated pmap i) := by
  have sound := space.sound
  have retag : tags (v.activated pmap i) = update (tags v) pmap
      (some ((asidAlloc i v.mmu).1.pmAsid,(asidAlloc i v.mmu).1.pmAsidgen)) := by
    funext q
    by_cases mine : q = pmap
    · subst q; simp [tags,activated,setInfo]
    · simp [tags,activated,setInfo,mine]
  refine ⟨?_,fresh_kept space.fresh info rfl rfl⟩
  rw [retag]
  have table : (v.activated pmap i).pte = v.pte := rfl
  have mmu : (v.activated pmap i).mmu = {machSetPid (asidAlloc i v.mmu).1.pmAsid (asidAlloc i v.mmu).2 with cur := pmap} := rfl
  rw [table,mmu]
  rw [mmu] at few
  unfold asidAlloc at few ⊢
  by_cases need : i.pmAsid = pmapAsidReserved ∨ i.pmAsidgen ≠ v.mmu.asidGeneration
  · rw [if_pos need] at few ⊢
    by_cases full : v.mmu.nextAsid = v.mmu.maxAsid
    · rw [if_pos full] at few ⊢
      have room : v.mmu.asidGeneration + 1 < 2 ^ 32 := by
        rcases few with same | less
        · have wrapped : (v.mmu.asidGeneration + 1) % 2 ^ 32 = v.mmu.asidGeneration := same
          omega
        · exact less
      have gen : (v.mmu.asidGeneration + 1) % 2 ^ 32 = v.mmu.asidGeneration + 1 := mod_eq_of_lt room
      have rolled := rollOver_tlb pmap sound room
      rw [← gen] at rolled
      rw [mod_mod] at rolled
      exact rolled
    rw [if_neg full]
    exact allocate_tlb sound full
  rw [if_neg need]
  have held : tags v pmap = some (i.pmAsid,i.pmAsidgen) := by simp [tags,info]
  have current : i.pmAsidgen = v.mmu.asidGeneration := by
    by_contra stale
    exact need (.inr stale)
  have same : update (tags v) pmap (some (i.pmAsid,i.pmAsidgen)) = tags v := by rw [← held,update_eq_self]
  rw [same]
  rw [current] at held
  exact switch_tlb sound held (fun zero => need (.inl zero))

theorem activated_gen (moved : (v.activated pmap i).mmu.asidGeneration ≠ v.mmu.asidGeneration)
    (room : v.mmu.asidGeneration + 1 < 2 ^ 32) :
    (v.activated pmap i).mmu.asidGeneration = v.mmu.asidGeneration + 1 := by
  have mmu : (v.activated pmap i).mmu.asidGeneration = (asidAlloc i v.mmu).2.asidGeneration := rfl
  rw [mmu] at moved ⊢
  unfold asidAlloc at moved ⊢
  by_cases need : i.pmAsid = pmapAsidReserved ∨ i.pmAsidgen ≠ v.mmu.asidGeneration
  · rw [if_pos need] at moved ⊢
    by_cases full : v.mmu.nextAsid = v.mmu.maxAsid
    · rw [if_pos full]
      exact mod_eq_of_lt room
    rw [if_neg full] at moved
    exact absurd rfl moved
  rw [if_neg need] at moved
  exact absurd rfl moved

theorem initial_tlb : SpaceTlb (view m initial) := by
  have pmaps : ∀ q, q ≠ .kernel → tags (view m initial) q = none := by
    intro q other
    simp [tags,view,initial,other]
  have kernel : tags (view m initial) .kernel = some (0,0) := rfl
  have only : ∀ q a g, tags (view m initial) q = some (a,g) → q = .kernel ∧ a = 0 ∧ g = 0 := by
    intro q a g held
    by_cases mine : q = .kernel
    · subst q
      cases held
      exact ⟨rfl,rfl,rfl⟩
    rw [pmaps q mine] at held
    cases held
  refine ⟨⟨⟨rfl,le_refl 1,(by decide : 1 ≤ 256)⟩,?_,?_,?_,?_,?_,⟨0,rfl,rfl,fun other => absurd rfl other⟩,fun n vpn => .inl ?_⟩,?_⟩
  · intro q a g held
    exact le_of_eq (only q a g held).2.2
  · intro q a held
    rw [(only q a _ held).2.1]
    exact Nat.one_pos
  · intro q q' a live held
    exact absurd (only q a _ held).2.1 live
  · intro e member
    cases member
  · intro e member
    cases member
  · simp [view,pteAt,segPage,segtabOf,initial]
  intro n _
  simp [view,initial]

theorem run_tlb (run : Run m (UserAllowed m) rolls s) (few : rolls < 2 ^ 32) :
    SpaceTlb (view m s) ∧ s.mmu.asidGeneration = rolls := by
  induction run with
  | start => exact ⟨initial_tlb,rfl⟩
  | step before ok ran ih =>
    rename_i rolls _ now next op
    obtain ⟨space,count⟩ := ih (by omega)
    obtain ⟨wf,quiet⟩ := run_wf before (fun _ _ ok => ok)
    obtain ⟨_,effect⟩ := step_micro True wf quiet ok.1 ok.2 (.inl trivial) ran
    rcases effect_cases effect with steps | ⟨pmap,i,_,info,same⟩
    · have gen : next.mmu.asidGeneration = now.mmu.asidGeneration := micros_gen steps
      refine ⟨micros_keep (fun _ _ => micro_tlb) space steps,?_⟩
      rw [rollOver,if_pos gen,gen,count,add_zero]
    have gen : next.mmu.asidGeneration = ((view m now).activated pmap i).mmu.asidGeneration :=
      congrArg (fun v => v.mmu.asidGeneration) same
    by_cases kept : next.mmu.asidGeneration = now.mmu.asidGeneration
    · rw [rollOver,if_pos kept]
      refine ⟨?_,kept.trans count⟩
      rw [same]
      exact activated_tlb space info (.inl (gen.symm.trans kept))
    rw [rollOver,if_neg kept] at few ⊢
    have room : now.mmu.asidGeneration + 1 < 2 ^ 32 := by omega
    refine ⟨?_,?_⟩
    · rw [same]
      exact activated_tlb space info (.inr room)
    rw [gen] at kept ⊢
    rw [← count]
    exact activated_gen kept room

theorem live_tags (held : s.pmaps pmap = some p) : tags (view m s) pmap = some (p.pmAsid,p.pmAsidgen) := by
  simp [tags,view,held]

-- The pmap's ASID may be used without asking pmap_asid_alloc.
def Current (s : State) (pmap : PmapRef) (p : Pmap) : Prop :=
  s.pmaps pmap = some p ∧ p.pmAsid ≠ 0 ∧ p.pmAsidgen = s.mmu.asidGeneration

theorem tlb_coherent (run : Run m (UserAllowed m) rolls s) (few : rolls < 2 ^ 32) :
    (∀ n n' p p', n ≠ n' → Current s (.user n) p → Current s (.user n') p' → p.pmAsid ≠ p'.pmAsid) ∧
    (∀ n p, Current s (.user n) p → ∀ e ∈ s.mmu.tlb, e.global = false → e.asid = p.pmAsid →
      Agrees e.pte (pteAt m s (.user n) e.vpn)) := by
  have sound := (run_tlb run few).1.sound
  have owner : ∀ n p, Current s (.user n) p → tags (view m s) (.user n) = some (p.pmAsid,s.mmu.asidGeneration) := by
    intro n p tagged
    obtain ⟨held,_,gen⟩ := tagged
    rw [live_tags held,gen]
  constructor
  · intro n n' p p' apart one two same
    have first := owner n p one
    have second := owner n' p' two
    rw [← same] at second
    have equal := sound.distinct _ _ _ one.2.1 first second
    cases equal
    exact apart rfl
  · intro n p tagged e member _ asid
    have live : e.asid ≠ 0 := by
      rw [asid]
      exact tagged.2.1
    have mine : tags (view m s) (.user n) = some (e.asid,s.mmu.asidGeneration) := by
      rw [asid]
      exact owner n p tagged
    exact sound.coherent e member n live mine

def onePageLoaded : State :=
  let created := afterOp smallMachine 1 onePage .create
  let active := afterOp smallMachine 1 created (.activate (.user 0))
  let loaded := afterOp smallMachine 1 active (.tlbMiss 0x1000)
  afterOp smallMachine 1 loaded (.activate (.user 1))

theorem tlb_coherent_loaded : ∃ p p' e, Current onePageLoaded (.user 0) p ∧ Current onePageLoaded (.user 1) p' ∧
    p.pmAsid ≠ p'.pmAsid ∧ e ∈ onePageLoaded.mmu.tlb ∧ Agrees e.pte (pteAt smallMachine onePageLoaded (.user 0) e.vpn) := by
  have empty : Run smallMachine (UserAllowed smallMachine) _ (afterOp smallMachine 1 initial .create) :=
    run_next 1 .create .start ⟨trivial,trivial⟩ rfl
  have one := run_next 1 (.enter (.user 0) 0x1000 0x1000 3 0 true) empty ⟨by simp [UserOp],rfl,rfl⟩ rfl
  have created := run_next 1 .create one ⟨trivial,trivial⟩ rfl
  have active := run_next 1 (.activate (.user 0)) created ⟨trivial,trivial⟩ rfl
  have loaded := run_next 1 (.tlbMiss 0x1000) active ⟨trivial,trivial⟩ rfl
  have run : Run smallMachine (UserAllowed smallMachine) _ onePageLoaded :=
    run_next 1 (.activate (.user 1)) loaded ⟨trivial,trivial⟩ rfl
  have coherent := tlb_coherent run (by decide)
  have first : Current onePageLoaded (.user 0) ⟨⟨1,1,0,1,0⟩,some 0⟩ := ⟨rfl,by decide,rfl⟩
  have second : Current onePageLoaded (.user 1) ⟨⟨1,0,0,2,0⟩,some 1⟩ := ⟨rfl,by decide,rfl⟩
  refine ⟨_,_,⟨1,1,false,_⟩,first,second,coherent.1 0 1 _ _ (by decide) first second,List.mem_cons_self .., ?_⟩
  exact coherent.2 0 _ first _ (List.mem_cons_self ..) rfl rfl
end NetbsdAvr32.Avr32
