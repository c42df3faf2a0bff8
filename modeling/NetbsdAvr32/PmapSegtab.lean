import NetbsdAvr32.PmapExtract

-- Segment tables over their life: each belongs to one pmap or waits on
-- free_segtab, through the word in slot 0.
namespace NetbsdAvr32.Avr32
open Function Outcome Linked
variable {m : Machine} {s s' s'' : State} {pmap : PmapRef} {n k t a a₀ sva eva va pa pg rolls fuel : Nat} {i : Info} {p p' : Pmap} {w : Word}
  {l : List Nat}

structure Still (s s' : State) : Prop where
  tables : segtabOf s' = segtabOf s
  bound : s'.nextSeg = s.nextSeg
  first : s'.freeSegtab = s.freeSegtab
  kept : ∀ t, (∀ n, segtabOf s (.user n) ≠ some t) → s'.segtab t = s.segtab t
  cur : s'.mmu.cur = s.mmu.cur

theorem Still.refl (s : State) : Still s s := ⟨rfl,rfl,rfl,fun _ _ => rfl,rfl⟩

theorem Still.trans (one : Still s s') (two : Still s' s'') : Still s s'' :=
  ⟨two.tables.trans one.tables,two.bound.trans one.bound,two.first.trans one.first,
    fun t free => (two.kept t (by rw [one.tables]; exact free)).trans (one.kept t free),two.cur.trans one.cur⟩

theorem still_data (pmaps : s'.pmaps = s.pmaps) (tables : s'.segtab = s.segtab) (bound : s'.nextSeg = s.nextSeg)
    (first : s'.freeSegtab = s.freeSegtab) (cur : s'.mmu.cur = s.mmu.cur) : Still s s' :=
  ⟨by unfold segtabOf; rw [pmaps],bound,first,fun _ _ => by rw [tables],cur⟩

theorem still_pmap (live : s.pmaps pmap = some p) (same : p'.pmSegtab = p.pmSegtab) : Still s (s.setPmap pmap p') := by
  refine ⟨funext fun q => ?_,rfl,rfl,fun _ _ => rfl,rfl⟩
  show (update s.pmaps pmap (some p') q).bind Pmap.pmSegtab = (s.pmaps q).bind Pmap.pmSegtab
  by_cases mine : q = pmap
  · subst mine
    rw [update_self,live]
    exact same
  · rw [update_of_ne mine]

theorem still_pte (w : Word) (pte : PteRef) : Still s (s.setPte w pte) := by
  cases pte <;> exact still_data rfl rfl rfl rfl rfl

theorem still_pv (e : PvEntry) (pv : PvPtr) : Still s (s.setPv e pv) := by
  cases pv <;> exact still_data rfl rfl rfl rfl rfl

theorem getPmap_live (got : s.getPmap pmap = .ok p) : s.pmaps pmap = some p := by
  unfold State.getPmap at got
  split at got
  · cases got
    assumption
  · cases got

theorem pmapRemovePv_still (ran : pmapRemovePv pmap va pg s = .ok s') : Still s s' := by
  unfold pmapRemovePv at ran
  dsimp only at ran
  split at ran
  · split at ran
    · obtain ⟨npv,_,ran⟩ := bind_ok ran
      cases ran
      exact still_data rfl rfl rfl rfl rfl
    cases ran
    exact still_pv _ _
  obtain ⟨⟨pv,npv⟩,_,ran⟩ := bind_ok ran
  dsimp only at ran
  split at ran
  · cases ran
    exact .refl s
  obtain ⟨e,_,ran⟩ := bind_ok ran
  obtain ⟨prev,_,ran⟩ := bind_ok ran
  cases ran
  exact (still_pv _ pv).trans (still_data rfl rfl rfl rfl rfl)

theorem pmapRemovePte_still {asid : Nat} {flush : Bool} {pte : PteRef} (ran : pmapRemovePte m pmap sva asid flush pte s = .ok s') : Still s s' := by
  unfold pmapRemovePte at ran
  obtain ⟨entry,_,ran⟩ := bind_ok ran
  split at ran
  · cases ran
    exact .refl s
  obtain ⟨p,got,ran⟩ := bind_ok ran
  have counted : Still s (s.setPmap pmap {p with toInfo := p.toInfo.unmapped entry}) := still_pmap (getPmap_live got) rfl
  have tail : ∀ s₁ : State, Still s s₁ → (if flush = true then do
      let u ← tbisGlobal sva asid (s₁.setPte 0#32 pte).mmu
      Except.ok ((s₁.setPte 0#32 pte).setMmu u)
    else Except.ok (s₁.setPte 0#32 pte)) = .ok s' → Still s s' := by
    intro s₁ erased ran
    split at ran
    · obtain ⟨u,flushed,ran⟩ := bind_ok ran
      cases ran
      exact (erased.trans (still_pte 0#32 pte)).trans (still_data rfl rfl rfl rfl (tbis_cur flushed))
    cases ran
    exact erased.trans (still_pte 0#32 pte)
  dsimp only at ran
  split at ran
  · obtain ⟨s₁,unlisted,ran⟩ := bind_ok ran
    exact tail s₁ (counted.trans (pmapRemovePv_still unlisted)) ran
  · exact tail _ counted ran

theorem eachSegment_still {body : Nat → PteRef → State → Except Halt State} (one : ∀ va pte s s', body va pte s = .ok s' → Still s s')
    (ran : eachSegment body pmap k sva eva s = .ok s') : Still s s' := by
  induction k generalizing sva s with
  | zero => cases ran
  | succ k ih =>
    unfold eachSegment at ran
    split at ran
    · obtain ⟨found,_,ran⟩ := bind_ok ran
      cases found with
      | none => exact ih ran
      | some page =>
        obtain ⟨⟨last,s₁⟩,loop,ran⟩ := bind_ok ran
        have pages : Still s s₁ := eachPte_keeps (P := Still s) (fun va pte a b held step => held.trans (one va pte a b step)) (.refl s) loop
        exact pages.trans (ih ran)
    cases ran
    exact Still.refl _

theorem pmapRemove_still (ran : pmapRemove m pmap sva eva s = .ok s') : Still s s' := by
  unfold pmapRemove at ran
  split at ran
  · obtain ⟨⟨last,s₁⟩,loop,ran⟩ := bind_ok ran
    cases ran
    exact eachPte_keeps (P := Still s) (fun va pte a b held step => held.trans (pmapRemovePte_still step)) (Still.refl _) loop
  obtain ⟨p,_,ran⟩ := bind_ok ran
  exact eachSegment_still (fun _ _ _ _ step => pmapRemovePte_still step) ran

theorem pmapEnterPv_still : ∀ {fuel : Nat} {s : State}, pmapEnterPv m fuel pmap va pg s = .ok s' → Still s s' := by
  intro fuel
  induction fuel with
  | zero =>
    intro s ran
    cases ran
  | succ fuel ih =>
    intro s ran
    unfold pmapEnterPv at ran
    dsimp only at ran
    split at ran
    · cases ran
      exact still_pv _ (.header pg)
    obtain ⟨found,_,ran⟩ := bind_ok ran
    cases found with
    | some npv =>
      dsimp only at ran
      split at ran
      · cases ran
      obtain ⟨s₁,removed,ran⟩ := bind_ok ran
      exact (pmapRemove_still removed).trans (ih ran)
    | none =>
      obtain ⟨again,_,ran⟩ := bind_ok ran
      cases again with
      | some e =>
        cases ran
        exact .refl _
      | none =>
        cases ran
        exact still_data rfl rfl rfl rfl rfl

theorem pmapEnterPte_still {pa npte r : Word} {wired : Bool} {pte : PteRef} (ran : pmapEnterPte m pmap va pa npte wired pte s = .ok (r,s')) : Still s s' := by
  unfold pmapEnterPte at ran
  obtain ⟨p,got,ran⟩ := bind_ok ran
  obtain ⟨entry,_,ran⟩ := bind_ok ran
  have wires : Still s (if wired then s.setPmap pmap {p with wiredCount := p.wiredCount + 1} else s) := by
    split
    · exact still_pmap (getPmap_live got) rfl
    · exact .refl s
  have tail : ∀ s₁ : State, Still s s₁ → (do
      let entry ← getPte m s₁ pte
      let p ← s₁.getPmap pmap
      let s := if has entry avr32PteValid = false then s₁.setPmap pmap {p with residentCount := p.residentCount + 1} else s₁
      Except.ok (if wired then npte ||| avr32PteWired else npte,s.setPte (if wired then npte ||| avr32PteWired else npte) pte)) = .ok (r,s') → Still s s' := by
    intro s₁ evicts ran
    obtain ⟨entry,_,ran⟩ := bind_ok ran
    obtain ⟨p,got,ran⟩ := bind_ok ran
    cases ran
    refine evicts.trans (Still.trans ?_ (still_pte _ pte))
    split
    · exact still_pmap (getPmap_live got) rfl
    · exact .refl s₁
  dsimp only at ran
  split at ran
  · obtain ⟨s₁,evicted,ran⟩ := bind_ok ran
    exact tail s₁ (wires.trans (pmapRemove_still evicted)) ran
  · exact tail _ wires ran

theorem newSegmap_still (owned : segtabOf s (.user n) = some t) (tables : Nat → SegEntry) (ptes : Nat → Nat → Word) (next : Nat) :
    Still s {s with nextPt := next, ptpage := ptes, segtab := update s.segtab t tables} := by
  refine ⟨rfl,rfl,rfl,fun t' free => ?_,rfl⟩
  have other : t' ≠ t := fun same => free n (same ▸ owned)
  exact update_of_ne other _ _

theorem pmapEnter_still {prot flags : Word} {mem : Bool} {r : Int} (user : pmap ≠ .kernel) (ran : pmapEnter m fuel pmap va pa prot flags mem s = .ok (r,s')) :
    Still s s' := by
  unfold pmapEnter at ran
  dsimp only at ran
  split at ran
  · cases ran
  rename_i pg page
  obtain ⟨code,_,ran⟩ := bind_ok ran
  rw [if_neg user] at ran
  split at ran
  · cases ran
  obtain ⟨found,_,ran⟩ := bind_ok ran
  have tail : ∀ {s₁ s₂ s₃ : State} {npte npte' : Word} {pte : PteRef} (p : Pmap), pmapEnterPv m fuel pmap va pg s₁ = .ok s₂ →
      pmapEnterPte m pmap va (BitVec.ofNat 32 pa) npte (has flags pmapWired) pte s₂ = .ok (npte',s₃) → Still s s₁ →
      Still s (if p.pmAsidgen = s₃.mmu.asidGeneration then s₃.setMmu (machTlbUpdate (tlbehiOf va p.pmAsid) npte' s₃.mmu) else s₃) := by
    intro s₁ s₂ s₃ npte npte' pte p listed stored before
    refine ((before.trans (pmapEnterPv_still listed)).trans (pmapEnterPte_still stored)).trans ?_
    split
    · exact still_data rfl rfl rfl rfl (update_cur _ _ _)
    · exact .refl s₃
  split at ran
  · split at ran
    · cases ran
      exact still_data rfl rfl rfl rfl rfl
    · cases ran
  cases found with
  | some page =>
    dsimp only at ran
    obtain ⟨⟨page',s₁⟩,made,ran⟩ := bind_ok ran
    cases made
    obtain ⟨s₂,listed,ran⟩ := bind_ok ran
    obtain ⟨⟨npte,s₃⟩,stored,ran⟩ := bind_ok ran
    obtain ⟨p,_,ran⟩ := bind_ok ran
    cases ran
    exact tail p listed stored (still_data rfl rfl rfl rfl rfl)
  | none =>
    dsimp only at ran
    obtain ⟨p,got,ran⟩ := bind_ok ran
    have live : s.pmaps pmap = some p := getPmap_live got
    split at ran
    · cases ran
    rename_i t table
    obtain ⟨⟨page,s₁⟩,made,ran⟩ := bind_ok ran
    cases made
    obtain ⟨n,rfl⟩ : ∃ n, pmap = .user n := by
      cases pmap with
      | kernel => exact absurd rfl user
      | user n => exact ⟨n,rfl⟩
    have owned : segtabOf s (.user n) = some t := by
      unfold segtabOf
      rw [live]
      exact table
    have fresh := newSegmap_still owned (update (s.segtab t) (va / nbseg) (.ptes s.nextPt)) (update s.ptpage s.nextPt fun _ => 0#32) (s.nextPt + 1)
    obtain ⟨s₂,listed,ran⟩ := bind_ok ran
    obtain ⟨⟨npte,s₃⟩,stored,ran⟩ := bind_ok ran
    obtain ⟨p',_,ran⟩ := bind_ok ran
    cases ran
    exact tail p' listed stored (fresh.trans (still_data rfl rfl rfl rfl rfl))

def FreeList (s : State) (l : List Nat) : Prop := Path (fun t => some (s.segtab t)) segLink s.freeSegtab l none

-- Every table that was carved out of a page has an owner or waits.
def Accounted (s : State) : Prop := ∀ t < s.nextSeg, (∃ n, segtabOf s (.user n) = some t) ∨ ∃ l, FreeList s l ∧ t ∈ l

theorem Still.freeList (still : Still s s') (free : FreeList s l) (unowned : ∀ t ∈ l, ∀ n, segtabOf s (.user n) ≠ some t) : FreeList s' l := by
  unfold FreeList
  rw [still.first]
  refine Path.frame free fun t mem => ?_
  rw [still.kept t (unowned t mem)]

theorem Still.accounted (still : Still s s') (wf : Wf s) (whole : Accounted s) : Accounted s' := by
  intro t small
  rw [still.bound] at small
  rcases whole t small with ⟨n,owned⟩ | ⟨l,free,mem⟩
  · exact .inl ⟨n,by rw [still.tables]; exact owned⟩
  obtain ⟨l',path,members⟩ := wf.free
  obtain rfl := Path.unique free path
  exact .inr ⟨l,still.freeList free fun t mem => (members t mem).2.1,mem⟩

theorem putFreeSegtab_link (t : Nat) (s : State) : segLink ((putFreeSegtab t s).segtab t) = s.freeSegtab := by
  show segLink (update s.segtab t (update (s.segtab t) 0 (.ofLink s.freeSegtab)) t) = _
  rw [update_self]
  unfold segLink
  rw [update_self]
  cases s.freeSegtab <;> rfl

theorem FreeList.put (free : FreeList s l) (out : t ∉ l) : FreeList (putFreeSegtab t s) (t :: l) := by
  refine ⟨rfl,_,rfl,?_⟩
  rw [putFreeSegtab_link]
  refine Path.frame free fun a mem => ?_
  have other : a ≠ t := fun same => out (same ▸ mem)
  show Option.map segLink (some (update s.segtab t _ a)) = _
  rw [update_of_ne other]

theorem FreeList.carve (free : FreeList s l) (below : ∀ a ∈ l, a ≤ a₀) : ∃ l', FreeList (carveSegtabs k a₀ s) l' ∧
    ∀ a, a ∈ l' ↔ a ∈ l ∨ a₀ < a ∧ a ≤ a₀ + k := by
  induction k generalizing a₀ s l with
  | zero => exact ⟨l,free,fun a => ⟨.inl,fun mem => mem.elim id fun inside => by omega⟩⟩
  | succ k ih =>
    have out : a₀ + 1 ∉ l := fun mem => by
      have := below _ mem
      omega
    obtain ⟨l',free',mem'⟩ := ih (free.put out) (fun a mem => by
      rcases List.mem_cons.mp mem with rfl | old
      · exact Nat.le_refl _
      · exact Nat.le_succ_of_le (below a old))
    refine ⟨l',free',fun a => (mem' a).trans ?_⟩
    rw [List.mem_cons]
    constructor
    · rintro ((rfl | old) | inside)
      · exact .inr (by omega)
      · exact .inl old
      · exact .inr (by omega)
    rintro (old | inside)
    · exact .inl (.inr old)
    by_cases next : a = a₀ + 1
    · exact .inl (.inl next)
    · exact .inr (by omega)

theorem carve_kept (k a₀ : Nat) (s : State) : (carveSegtabs k a₀ s).nextSeg = s.nextSeg ∧ (carveSegtabs k a₀ s).pmaps = s.pmaps ∧ (carveSegtabs k a₀ s).mmu = s.mmu := by
  induction k generalizing a₀ s with
  | zero => exact ⟨rfl,rfl,rfl⟩
  | succ k ih => exact ih (a₀ + 1) (putFreeSegtab (a₀ + 1) s)

theorem takeSegtab_accounts (wf : Wf s) (whole : Accounted s) (took : takeSegtab s = .ok (t,s')) :
    s'.pmaps = s.pmaps ∧ s'.mmu = s.mmu ∧ ∀ a < s'.nextSeg, a = t ∨ (∃ n, segtabOf s (.user n) = some a) ∨ ∃ l, FreeList s' l ∧ a ∈ l := by
  obtain ⟨l,path,members⟩ := wf.free
  unfold takeSegtab at took
  cases first : s.freeSegtab with
  | some t₀ =>
    rw [first] at took
    dsimp only at took
    obtain ⟨link,read,took⟩ := bind_ok took
    cases took
    rw [first] at path
    cases l with
    | nil => cases path
    | cons b l =>
      have nodup := path.nodup
      obtain ⟨same,cell,got,rest⟩ := path
      cases same
      cases got
      have out : t ∉ l := (List.nodup_cons.mp nodup).1
      have next : link = segLink (s.segtab t) := by
        unfold segLink
        cases entry : s.segtab t 0 with
        | null | link t' =>
          rw [entry] at read
          cases read
          rfl
        | ptes page =>
          rw [entry] at read
          cases read
      refine ⟨rfl,rfl,fun a small => ?_⟩
      rcases whole a small with owned | ⟨l',free,mem⟩
      · exact .inr (.inl owned)
      have whole' : FreeList s (t :: l) := by
        unfold FreeList
        rw [first]
        exact ⟨rfl,_,rfl,rest⟩
      obtain rfl := Path.unique free whole'
      rcases List.mem_cons.mp mem with rfl | later
      · exact .inl rfl
      refine .inr (.inr ⟨l,?_,later⟩)
      subst next
      refine rest.frame fun b mem => ?_
      have other : b ≠ t := fun same => out (same ▸ mem)
      show Option.map segLink (some (update s.segtab t _ b)) = _
      rw [update_of_ne other]
  | none =>
    rw [first] at took
    cases took
    have empty : l = [] := by
      rw [first] at path
      cases l with
      | nil => rfl
      | cons b l =>
        obtain ⟨same,_⟩ := path
        cases same
    subst empty
    have start : FreeList {s with
        nextSeg := s.nextSeg + segtabsPerPage
        freeSegtab := none
        segtab := fun i => if s.nextSeg ≤ i ∧ i < s.nextSeg + segtabsPerPage then fun _ => .null else s.segtab i} [] := rfl
    obtain ⟨bound,pmaps,mmu⟩ := carve_kept (segtabsPerPage - 1) s.nextSeg {s with
        nextSeg := s.nextSeg + segtabsPerPage
        freeSegtab := none
        segtab := fun i => if s.nextSeg ≤ i ∧ i < s.nextSeg + segtabsPerPage then fun _ => .null else s.segtab i}
    obtain ⟨l',free,mem⟩ := start.carve (k := segtabsPerPage - 1) (fun a held => by cases held)
    refine ⟨pmaps,mmu,fun a small => ?_⟩
    rw [bound] at small
    dsimp only at small
    rcases Nat.lt_trichotomy a s.nextSeg with older | rfl | newer
    · rcases whole a older with owned | ⟨l,free',held⟩
      · exact .inr (.inl owned)
      obtain rfl := Path.unique free' path
      cases held
    · exact .inl rfl
    · exact .inr (.inr ⟨l',free,(mem a).mpr (.inr ⟨newer,by omega⟩)⟩)

theorem create_accounted (wf : Wf s) (whole : Accounted s) : ∃ s', pmapCreate s = .ok s' ∧ Accounted s' ∧ s'.mmu.cur = s.mmu.cur ∧
    ∃ t, segtabOf s' (.user s.nextPmap) = some t ∧ ∀ i, i < pmapSegtabsize → s'.segtab t i = .null := by
  obtain ⟨t,s₁,took,wf₁,pages,pmaps,spare,same⟩ := takeSegtab_ok (m := ⟨0,fun _ => false,0,nofun,Nat.zero_le _⟩) wf
  obtain ⟨_,mmu,all⟩ := takeSegtab_accounts wf whole took
  have next : s₁.nextPmap = s.nextPmap := congrArg Space.nextPmap same
  have tables : ∀ n, segtabOf s₁ (.user n) = segtabOf s (.user n) := by
    intro n
    unfold segtabOf
    rw [pmaps]
  refine ⟨{s₁.setPmap (.user s₁.nextPmap) ⟨⟨1,0,0,pmapAsidReserved,s₁.mmu.asidGeneration⟩,some t⟩ with nextPmap := s₁.nextPmap + 1},
    by rw [pmapCreate,took]; rfl,?_,by show s₁.mmu.cur = _; rw [mmu],t,?_,spare.empty⟩
  · intro a small
    rcases all a small with rfl | ⟨n,owned⟩ | ⟨l,free,mem⟩
    · refine .inl ⟨s₁.nextPmap,?_⟩
      show (update s₁.pmaps (.user s₁.nextPmap) _ (.user s₁.nextPmap)).bind Pmap.pmSegtab = _
      rw [update_self]
      rfl
    · refine .inl ⟨n,?_⟩
      have live : (s.pmaps (.user n)).isSome := by
        unfold segtabOf at owned
        cases held : s.pmaps (.user n) with
        | none =>
          rw [held] at owned
          cases owned
        | some p => rfl
      have below := (wf.owner n live).1
      have other : PmapRef.user n ≠ .user s₁.nextPmap := by
        intro same
        cases same
        omega
      show (update s₁.pmaps (.user s₁.nextPmap) _ (.user n)).bind Pmap.pmSegtab = _
      rw [update_of_ne other,pmaps]
      exact owned
    · exact .inr ⟨l,free,mem⟩
  rw [← next]
  show (update s₁.pmaps (.user s₁.nextPmap) _ (.user s₁.nextPmap)).bind Pmap.pmSegtab = _
  rw [update_self]
  rfl

theorem destroy_accounted (wf : Wf s) (whole : Accounted s) (ran : pmapDestroy (.user n) s = .ok s') : Accounted s' ∧ s'.mmu.cur = s.mmu.cur := by
  unfold pmapDestroy at ran
  obtain ⟨p,got,ran⟩ := bind_ok ran
  have live := getPmap_live got
  dsimp only at ran
  split_ifs at ran with shared
  · cases ran
    have still : Still s (s.setPmap (.user n) {p with pmCount := p.pmCount - 1}) := still_pmap live rfl
    exact ⟨still.accounted wf whole,rfl⟩
  obtain ⟨_,t,owned⟩ := wf.owner n (by simp [live])
  have table : p.pmSegtab = some t := by simpa [segtabOf,live] using owned
  have freed := freeSegmaps_all (wf.table n t owned).2
  rw [table] at ran
  dsimp only at ran
  rw [freed] at ran
  have same : s' = freedPmap n t s := (Except.ok.inj ran).symm
  subst same
  refine ⟨fun a small => ?_,rfl⟩
  obtain ⟨l,path,members⟩ := wf.free
  have out : t ∉ l := fun mem => (members t mem).2.1 n owned
  have rest : FreeList (emptied t s) l := by
    refine path.frame fun b mem => ?_
    have other : b ≠ t := fun same => out (same ▸ mem)
    show Option.map segLink (some (update s.segtab t _ b)) = _
    rw [update_of_ne other]
  have list : FreeList (freedPmap n t s) (t :: l) := rest.put out
  rcases whole a small with ⟨k,held⟩ | ⟨l',free,mem⟩
  · by_cases mine : k = n
    · subst mine
      rw [owned] at held
      cases held
      exact .inr ⟨_,list,List.mem_cons_self ..⟩
    refine .inl ⟨k,?_⟩
    have other : PmapRef.user k ≠ .user n := fun same => mine (PmapRef.user.inj same)
    show (update s.pmaps (.user n) none (.user k)).bind Pmap.pmSegtab = _
    rw [update_of_ne other]
    exact held
  obtain rfl := Path.unique free path
  exact .inr ⟨_,list,List.mem_cons_of_mem _ mem⟩

-- pmap_create, pmap_destroy of the only reference, and pmap_enter between them.
def Recycles (_ : State) : Op → Prop
  | .create => True
  | .destroy pmap => pmap ≠ .kernel
  | .enter pmap va _ _ _ _ => pmap ≠ .kernel ∧ va % nbpg = 0
  | _ => False

theorem recycles_step {op : Op} (wf : Wf s) (whole : Accounted s) (cur : s.mmu.cur = .kernel) (ok : Recycles s op) (ran : step m fuel s op = .ok s') :
    Wf s' ∧ Accounted s' ∧ s'.mmu.cur = .kernel := by
  cases op with
  | create =>
    obtain ⟨s₁,made,wf',_⟩ := pmapCreate_ok m wf
    obtain ⟨s₂,made',whole',same,_⟩ := create_accounted wf whole
    obtain rfl := Except.ok.inj (made.symm.trans ran)
    obtain rfl := Except.ok.inj (made'.symm.trans ran)
    exact ⟨wf',whole',same.trans cur⟩
  | destroy pmap =>
    cases pmap with
    | kernel => exact absurd rfl ok
    | user n =>
      have idle : s.mmu.cur ≠ .user n := by
        rw [cur]
        exact nofun
      obtain ⟨_,_,wf',_⟩ := (pmapDestroy_sim (m := m) wf fun _ _ _ => idle).forward ran
      obtain ⟨whole',same⟩ := destroy_accounted wf whole ran
      exact ⟨wf',whole',same.trans cur⟩
  | enter pmap va pa prot flags mem =>
    have rep := wf.rep m
    obtain ⟨⟨r,s₁⟩,entered,done⟩ := bind_ok ran
    cases done
    obtain ⟨_,_,_,_,wf',_⟩ := (pmapEnter_sim fuel rep ok.2).forward entered
    have still := pmapEnter_still ok.1 entered
    exact ⟨wf',still.accounted wf whole,still.cur.trans cur⟩
  | _ => exact ok.elim

theorem run_accounted (run : Run m Recycles rolls s) : Wf s ∧ Accounted s ∧ s.mmu.cur = .kernel := by
  induction run with
  | start => exact ⟨initial_wf,fun t small => absurd small (Nat.not_lt_zero t),rfl⟩
  | step _ ok ran ih => exact recycles_step ih.1 ih.2.1 ih.2.2 ok ran

-- Every table has one owner or one place on the list, and the next pmap starts
-- with an empty one.
theorem segtabs_recycled (run : Run m Recycles rolls s) :
    (∃ l, FreeList s l ∧ l.Nodup ∧ ∀ t < s.nextSeg, t ∈ l ∧ (∀ n, segtabOf s (.user n) ≠ some t) ∨ t ∉ l ∧ ∃! n, segtabOf s (.user n) = some t) ∧
      ∃ s', pmapCreate s = .ok s' ∧ ∃ t, segtabOf s' (.user s.nextPmap) = some t ∧ ∀ i, i < pmapSegtabsize → s'.segtab t i = .null := by
  obtain ⟨wf,whole,_⟩ := run_accounted run
  obtain ⟨s',made,_,_,t,owned,empty⟩ := create_accounted wf whole
  obtain ⟨l,path,members⟩ := wf.free
  refine ⟨⟨l,path,path.nodup,fun t small => ?_⟩,s',made,t,owned,empty⟩
  by_cases mem : t ∈ l
  · exact .inl ⟨mem,(members t mem).2.1⟩
  refine .inr ⟨mem,?_⟩
  rcases whole t small with ⟨n,owned⟩ | ⟨l',free,held⟩
  · exact ⟨n,owned,fun n' owned' => wf.tables n' n t owned' owned⟩
  · obtain rfl := Path.unique free path
    exact absurd held mem

def recycledOnce : State :=
  afterOp smallMachine 1 (afterOp smallMachine 1 (afterOp smallMachine 1 initial .create) (.enter (.user 0) 0x1000 0x1000 3 0 true)) (.destroy (.user 0))

set_option maxRecDepth 8000 in
theorem segtabs_recycled_once : ∃ s', pmapCreate recycledOnce = .ok s' ∧ ∃ t, segtabOf s' (.user recycledOnce.nextPmap) = some t ∧
    ∀ i, i < pmapSegtabsize → s'.segtab t i = .null := by
  have empty : Run smallMachine Recycles _ (afterOp smallMachine 1 initial .create) := run_next 1 .create .start trivial rfl
  have one := run_next 1 (.enter (.user 0) 0x1000 0x1000 3 0 true) empty ⟨nofun,rfl⟩ rfl
  have run : Run smallMachine Recycles _ recycledOnce := run_next 1 (.destroy (.user 0)) one nofun rfl
  exact (segtabs_recycled run).2
end NetbsdAvr32.Avr32
