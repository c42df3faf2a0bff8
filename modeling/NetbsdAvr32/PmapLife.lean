import NetbsdAvr32.PmapRefine

namespace NetbsdAvr32.Avr32
open Function Outcome Space Nat
variable {m : Machine} {tab : PmapRef → Nat → Option Nat} {s s' : State} {v v' : Space} {pmap : PmapRef}
  {n t va pa pg : Nat} {i : Info} {p : Pmap}

structure Spare (s : State) (t : Nat) : Prop where
  below : t < s.nextSeg
  unowned : ∀ n, segtabOf s (.user n) ≠ some t
  empty : ∀ i, i < pmapSegtabsize → s.segtab t i = .null
  unlisted : ∃ l, Linked.Path (fun t => some (s.segtab t)) segLink s.freeSegtab l none ∧ t ∉ l ∧
    ∀ t ∈ l, t < s.nextSeg ∧ (∀ n, segtabOf s (.user n) ≠ some t) ∧
      (∀ page, s.segtab t 0 ≠ .ptes page) ∧ ∀ i, i < pmapSegtabsize → i ≠ 0 → s.segtab t i = .null

theorem Wf.unownedTables (wf : Wf s) (tables : Nat → Nat → SegEntry) (first : Option Nat) (grow : s.nextSeg ≤ bound)
    (same : ∀ n t, segtabOf s (.user n) = some t → tables t = s.segtab t)
    (list : ∃ l, Linked.Path (fun t => some (tables t)) segLink first l none ∧
      ∀ t ∈ l, t < bound ∧ (∀ n, segtabOf s (.user n) ≠ some t) ∧
        (∀ page, tables t 0 ≠ .ptes page) ∧ ∀ i, i < pmapSegtabsize → i ≠ 0 → tables t i = .null) :
    Wf {s with segtab := tables, freeSegtab := first, nextSeg := bound} ∧
      segPage {s with segtab := tables, freeSegtab := first, nextSeg := bound} = segPage s := by
  have pages : segPage {s with segtab := tables, freeSegtab := first, nextSeg := bound} = segPage s := by
    funext q i
    have owner : segtabOf {s with segtab := tables, freeSegtab := first, nextSeg := bound} q = segtabOf s q := rfl
    simp only [segPage,owner]
    cases q with
    | kernel => rw [wf.kernel.2]
    | user n =>
      cases owned : segtabOf s (.user n) with
      | none => rfl
      | some t => simp only [same n t owned]
  refine ⟨?_,pages⟩
  refine {wf with table := ?_, pages := ?_, pagesBelow := ?_, free := list}
  · intro n t owned
    have old := wf.table n t owned
    refine ⟨lt_of_lt_of_le old.1 grow,?_⟩
    have kept : tables t = s.segtab t := same n t owned
    simpa only [kept] using old.2
  · rw [pages]; exact wf.pages
  · rw [pages]; exact wf.pagesBelow

theorem view_tables (pages : segPage s' = segPage s) (sys : s'.sysmap = s.sysmap) (ptes : s'.ptpage = s.ptpage) :
    pteAt m s' = pteAt m s := by
  funext q vpn
  cases q with
  | kernel => simp only [pteAt,sys]
  | user n => simp only [pteAt,pages,ptes]

theorem putFreeSegtab_spare (wf : Wf s) (spare : Spare s t) :
    Wf (putFreeSegtab t s) ∧ segPage (putFreeSegtab t s) = segPage s := by
  obtain ⟨l,path,out,members⟩ := spare.unlisted
  have apart : ∀ a ∈ l, update s.segtab t (update (s.segtab t) 0 (.ofLink s.freeSegtab)) a = s.segtab a := by
    intro a member
    have other : a ≠ t := fun equal => out (equal ▸ member)
    rw [update_of_ne other]
  have link : segLink (update (s.segtab t) 0 (.ofLink s.freeSegtab)) = s.freeSegtab := by
    unfold segLink
    cases s.freeSegtab <;> rfl
  refine wf.unownedTables _ _ (le_refl _) ?_ ⟨t :: l,⟨rfl,_,rfl,?_⟩,?_⟩
  · intro n t' owned
    have other : t' ≠ t := fun equal => spare.unowned n (equal ▸ owned)
    rw [update_of_ne other]
  · rw [update_self,link]
    exact path.frame (fun a member => by rw [apart a member])
  intro a member
  rcases List.mem_cons.mp member with rfl | old
  · refine ⟨spare.below,spare.unowned,?_,?_⟩
    · intro page
      cases s.freeSegtab <;> simp [SegEntry.ofLink]
    intro i index rest
    rw [update_self,update_of_ne rest]
    exact spare.empty i index
  rw [apart a old]
  exact members a old

theorem Spare.put (mine : Spare s a) (other : Spare s t) (apart : a ≠ t) : Spare (putFreeSegtab t s) a := by
  obtain ⟨l,path,out,members⟩ := mine.unlisted
  obtain ⟨l',path',out',_⟩ := other.unlisted
  cases path.unique path'
  have kept : ∀ b, b ≠ t → (putFreeSegtab t s).segtab b = s.segtab b := fun b other => update_of_ne other _ _
  have link : segLink ((putFreeSegtab t s).segtab t) = s.freeSegtab := by
    simp only [putFreeSegtab,update_self,segLink]
    cases s.freeSegtab <;> rfl
  refine ⟨mine.below,mine.unowned,?_,t :: l,⟨rfl,_,rfl,?_⟩,?_,?_⟩
  · rw [kept a apart]
    exact mine.empty
  · rw [link]
    refine path.frame (fun b member => ?_)
    rw [kept b (fun equal => out' (equal ▸ member))]
  · simp [apart,out]
  intro b member
  rcases List.mem_cons.mp member with rfl | old
  · refine ⟨other.below,other.unowned,?_,?_⟩
    · intro page
      simp only [putFreeSegtab,update_self]
      cases s.freeSegtab <;> simp [SegEntry.ofLink]
    intro i index rest
    simp only [putFreeSegtab,update_self,update_of_ne rest]
    exact other.empty i index
  rw [kept b (fun equal => out' (equal ▸ old))]
  exact members b old

theorem carveSegtabs_spare (stp : Nat) (wf : Wf s) (fresh : ∀ j, stp < j → j ≤ stp + k → Spare s j) (mine : Spare s a)
    (outside : a ≤ stp) : Wf (carveSegtabs k stp s) ∧ segPage (carveSegtabs k stp s) = segPage s ∧
      Spare (carveSegtabs k stp s) a ∧ view m (carveSegtabs k stp s) = view m s ∧
      (carveSegtabs k stp s).pmaps = s.pmaps := by
  induction k generalizing stp s with
  | zero => exact ⟨wf,rfl,mine,rfl,rfl⟩
  | succ k ih =>
    have next := fresh (stp + 1) (lt_succ_self _) (by omega)
    obtain ⟨wf₁,pages₁⟩ := putFreeSegtab_spare wf next
    have view₁ : view m (putFreeSegtab (stp + 1) s) = view m s := by
      apply Space.ext <;> try rfl
      · funext q i; simp only [view]; rw [pages₁]
      · exact view_tables pages₁ rfl rfl
    have rest := ih (stp + 1) wf₁ (fun j low high => (fresh j (by omega) (by omega)).put next (by omega))
      (mine.put next (by omega)) (by omega)
    exact ⟨rest.1,rest.2.1.trans pages₁,rest.2.2.1,rest.2.2.2.1.trans view₁,rest.2.2.2.2⟩

theorem takeSegtab_ok (wf : Wf s) : ∃ t s', takeSegtab s = .ok (t,s') ∧ Wf s' ∧ segPage s' = segPage s ∧
    s'.pmaps = s.pmaps ∧ Spare s' t ∧ view m s' = view m s := by
  unfold takeSegtab
  obtain ⟨l,path,members⟩ := wf.free
  cases free : s.freeSegtab with
  | some t =>
    rw [free] at path
    cases l with
    | nil => cases path
    | cons a l =>
      have nodup := path.nodup
      obtain ⟨same,cell,got,rest⟩ := path
      cases same
      cases got
      have out : t ∉ l := (List.nodup_cons.mp nodup).1
      have mine := members t (by simp)
      have apart : ∀ a ∈ l, update s.segtab t (update (s.segtab t) 0 .null) a = s.segtab a := by
        intro a member
        have other : a ≠ t := fun equal => out (equal ▸ member)
        rw [update_of_ne other]
      have read : (s.segtab t 0).toLink = .ok (segLink (s.segtab t)) := by
        unfold segLink
        cases entry : s.segtab t 0 with
        | null => rfl
        | link t' => rfl
        | ptes page => exact absurd entry (mine.2.2.1 page)
      have list : Linked.Path (fun a => some (update s.segtab t (update (s.segtab t) 0 .null) a)) segLink
          (segLink (s.segtab t)) l none ∧ ∀ a ∈ l, a < s.nextSeg ∧ (∀ n, segtabOf s (.user n) ≠ some a) ∧
          (∀ page, update s.segtab t (update (s.segtab t) 0 .null) a 0 ≠ .ptes page) ∧
          ∀ i, i < pmapSegtabsize → i ≠ 0 → update s.segtab t (update (s.segtab t) 0 .null) a i = .null := by
        refine ⟨rest.frame (fun a member => by rw [apart a member]),?_⟩
        intro a member
        rw [apart a member]
        exact members a (List.mem_cons_of_mem _ member)
      obtain ⟨wf',pages⟩ := wf.unownedTables (update s.segtab t (update (s.segtab t) 0 .null)) (segLink (s.segtab t))
        (le_refl _) (fun n t' owned => by
          have other : t' ≠ t := fun equal => mine.2.1 n (equal ▸ owned)
          rw [update_of_ne other]) ⟨l,list⟩
      refine ⟨t,_,by dsimp only; rw [read]; rfl,wf',pages,rfl,⟨mine.1,mine.2.1,?_,l,list.1,out,list.2⟩,?_⟩
      · intro i index
        dsimp only
        rw [update_self]
        by_cases first : i = 0
        · rw [first,update_self]
        rw [update_of_ne first]
        exact mine.2.2.2 i index first
      · apply Space.ext <;> try rfl
        · funext q i; simp only [view]; rw [pages]
        · exact view_tables pages rfl rfl
  | none =>
    have zeroed : ∀ j, s.nextSeg ≤ j ∧ j < s.nextSeg + segtabsPerPage → ∀ n, segtabOf s (.user n) ≠ some j := by
      intro j range n owned
      have := (wf.table n j owned).1
      omega
    obtain ⟨wf',pages⟩ := wf.unownedTables (fun i => if s.nextSeg ≤ i ∧ i < s.nextSeg + segtabsPerPage then fun _ => .null
        else s.segtab i) none (le_add_right s.nextSeg segtabsPerPage) (fun n t owned => by
          have old := (wf.table n t owned).1
          rw [if_neg (by omega)]) ⟨[],rfl,by simp⟩
    have spare : ∀ j, s.nextSeg ≤ j → j < s.nextSeg + segtabsPerPage → Spare {s with
        segtab := fun i => if s.nextSeg ≤ i ∧ i < s.nextSeg + segtabsPerPage then fun _ => .null else s.segtab i
        freeSegtab := none
        nextSeg := s.nextSeg + segtabsPerPage} j := by
      intro j low high
      refine ⟨high,zeroed j ⟨low,high⟩,?_,[],rfl,by simp,by simp⟩
      intro i _
      simp [low,high]
    have carved := carveSegtabs_spare (m := m) (k := segtabsPerPage - 1) s.nextSeg wf'
      (fun j low high => spare j (le_of_lt low) (by simp only [segtabsPerPage,nbpg,pmapSegtabsize] at *; omega))
      (spare s.nextSeg (le_refl _) (by simp [segtabsPerPage,nbpg,pmapSegtabsize])) (le_refl _)
    have same : view m {s with
        segtab := fun i => if s.nextSeg ≤ i ∧ i < s.nextSeg + segtabsPerPage then fun _ => .null else s.segtab i
        freeSegtab := none
        nextSeg := s.nextSeg + segtabsPerPage} = view m s := by
      apply Space.ext <;> try rfl
      · funext q i; simp only [view]; rw [pages]
      · exact view_tables pages rfl rfl
    exact ⟨_,_,rfl,carved.1,carved.2.1.trans pages,carved.2.2.2.2,carved.2.2.1,carved.2.2.2.1.trans same⟩

def Space.create (v : Space) : Space :=
  {v with
    info := update v.info (.user v.nextPmap) (some ⟨1,0,0,pmapAsidReserved,v.mmu.asidGeneration⟩)
    nextPmap := v.nextPmap + 1}

theorem newPmap_wf (wf : Wf s) (spare : Spare s t) (i : Info) :
    Wf {s.setPmap (.user s.nextPmap) ⟨i,some t⟩ with nextPmap := s.nextPmap + 1} ∧
      segPage {s.setPmap (.user s.nextPmap) ⟨i,some t⟩ with nextPmap := s.nextPmap + 1} = segPage s := by
  generalize reached : ({s.setPmap (.user s.nextPmap) ⟨i,some t⟩ with nextPmap := s.nextPmap + 1} : State) = s'
  have dead : s.pmaps (.user s.nextPmap) = none := by
    cases held : s.pmaps (.user s.nextPmap) with
    | none => rfl
    | some p => exact absurd (wf.owner s.nextPmap (by simp [held])).1 (lt_irrefl _)
  have tables : segtabOf s' = update (segtabOf s) (.user s.nextPmap) (some t) := by
    subst s'
    funext q
    by_cases new : q = .user s.nextPmap
    · subst q; simp [segtabOf,State.setPmap]
    · simp [segtabOf,State.setPmap,new]
  have live : ∀ q, q ≠ .user s.nextPmap → s'.pmaps q = s.pmaps q := by
    intro q other
    subst s'
    simp [State.setPmap,other]
  have segs : s'.segtab = s.segtab := by subst s'; rfl
  have pages : segPage s' = segPage s := by
    funext q j
    by_cases new : q = .user s.nextPmap
    · subst q
      have before : segtabOf s (.user s.nextPmap) = none := by simp [segtabOf,dead]
      simp only [segPage,tables,update_self,before,segs]
      split
      · rename_i index
        rw [spare.empty j index]
      · rfl
    · simp only [segPage,tables,update_of_ne new,segs]
  have owners : ∀ n t', segtabOf s' (.user n) = some t' →
      (n = s.nextPmap ∧ t' = t) ∨ (n ≠ s.nextPmap ∧ segtabOf s (.user n) = some t') := by
    intro n t' owned
    rw [tables] at owned
    by_cases new : n = s.nextPmap
    · subst n
      rw [update_self,Option.some.injEq] at owned
      exact .inl ⟨rfl,owned.symm⟩
    have other : PmapRef.user n ≠ .user s.nextPmap := by simpa using new
    rw [update_of_ne other] at owned
    exact .inr ⟨new,owned⟩
  refine ⟨?_,pages⟩
  refine ⟨?_,?_,?_,?_,?_,?_,?_,?_,?_,?_,?_,?_,?_,?_⟩
  · rw [live .kernel (by simp),tables,update_of_ne (by simp)]
    exact wf.kernel
  · intro n here
    have grown : s'.nextPmap = s.nextPmap + 1 := by subst s'; rfl
    rw [grown,tables]
    by_cases new : n = s.nextPmap
    · subst n
      exact ⟨lt_succ_self _,t,update_self _ _ _⟩
    have other : PmapRef.user n ≠ .user s.nextPmap := by simpa using new
    rw [live _ other] at here
    rw [update_of_ne other]
    have old := wf.owner n here
    exact ⟨lt_succ_of_lt old.1,old.2⟩
  · intro n t' owned
    have bound : s'.nextSeg = s.nextSeg := by subst s'; rfl
    rw [bound,segs]
    rcases owners n t' owned with ⟨_,rfl⟩ | ⟨_,old⟩
    · exact ⟨spare.below,fun i index t'' => by rw [spare.empty i index]; simp⟩
    · exact wf.table n t' old
  · intro n n' t' one two
    rcases owners n t' one with ⟨rfl,rfl⟩ | ⟨_,one⟩
    · rcases owners n' t' two with ⟨rfl,_⟩ | ⟨_,two⟩
      · rfl
      · exact absurd two (spare.unowned n')
    rcases owners n' t' two with ⟨_,rfl⟩ | ⟨_,two⟩
    · exact absurd one (spare.unowned n)
    · exact wf.tables n n' t' one two
  · rw [pages]; exact wf.pages
  · rw [pages]
    have bound : s'.nextPt = s.nextPt := by subst s'; rfl
    rw [bound]
    exact wf.pagesBelow
  · obtain ⟨l,path,out,members⟩ := spare.unlisted
    have first : s'.freeSegtab = s.freeSegtab := by subst s'; rfl
    have bound : s'.nextSeg = s.nextSeg := by subst s'; rfl
    rw [first,bound,segs]
    refine ⟨l,path,?_⟩
    intro a member
    have old := members a member
    refine ⟨old.1,?_,old.2.2⟩
    intro n owned
    rcases owners n a owned with ⟨_,rfl⟩ | ⟨_,owned⟩
    · exact out member
    · exact old.2.1 n owned
  · have cur : s'.mmu = s.mmu := by subst s'; rfl
    have base : s'.segbase = s.segbase := by subst s'; rfl
    have other : s.mmu.cur ≠ .user s.nextPmap := by
      intro equal
      have here := wf.segbase.1
      rw [equal,dead] at here
      cases here
    rw [cur,base,live _ other,tables,update_of_ne other]
    exact wf.segbase
  all_goals subst s'
  · exact wf.chain
  · exact wf.nodeBelow
  · exact wf.nodeKeys
  · exact wf.headAligned
  · exact wf.headEmpty
  · exact wf.disjoint

theorem pmapCreate_ok (m : Machine) (wf : Wf s) :
    ∃ s', pmapCreate s = .ok s' ∧ Wf s' ∧ view m s' = (view m s).create := by
  obtain ⟨t,s₁,took,wf₁,pages₁,pmaps₁,spare,same⟩ := takeSegtab_ok (m := m) wf
  obtain ⟨wf₂,pages₂⟩ := newPmap_wf wf₁ spare ⟨1,0,0,pmapAsidReserved,s₁.mmu.asidGeneration⟩
  refine ⟨_,by rw [pmapCreate,took]; rfl,wf₂,?_⟩
  rw [← same]
  apply Space.ext
  · funext q
    by_cases new : q = .user s₁.nextPmap
    · subst q; simp [view,create,State.setPmap]
    · simp [view,create,State.setPmap,new]
  · funext q j; simp only [view,create]; rw [pages₂]
  · exact view_tables pages₂ rfl rfl
  all_goals rfl

theorem freeSegmaps_spec (t k i : Nat) (s : State) (links : ∀ j, i ≤ j → j < i + k → ∀ t', s.segtab t j ≠ .link t') :
    freeSegmaps t k i s = .ok {s with
      segtab := update s.segtab t (fun j => if i ≤ j ∧ j < i + k then .null else s.segtab t j)} := by
  induction k generalizing i s with
  | zero =>
    have same : (fun j => if i ≤ j ∧ j < i + 0 then SegEntry.null else s.segtab t j) = s.segtab t := by
      funext j
      rw [if_neg (by omega)]
    rw [same,update_eq_self]
    rfl
  | succ k ih =>
    have merge : ∀ tab, tab = update (s.segtab t) i .null → (fun j => if i + 1 ≤ j ∧ j < i + 1 + k then SegEntry.null
        else tab j) = fun j => if i ≤ j ∧ j < i + (k + 1) then .null else s.segtab t j := by
      rintro _ rfl
      funext j
      by_cases here : j = i
      · subst j
        rw [if_neg (by omega),if_pos (by omega),update_self]
      rw [update_of_ne here]
      split
      · rw [if_pos (by omega)]
      · rw [if_neg (by omega)]
    unfold freeSegmaps
    cases entry : s.segtab t i with
    | null =>
      rw [ih (i + 1) s (fun j low high => links j (by omega) (by omega)),merge]
      rw [← entry,update_eq_self]
    | ptes page =>
      dsimp only
      rw [ih]
      · simp only [update_self,update_idem]
        rw [merge _ rfl]
      intro j low high t'
      have other : j ≠ i := by omega
      simp only [update_self,update_of_ne other]
      exact links j (by omega) (by omega) t'
    | link t' => exact absurd entry (links i (le_refl _) (by omega) t')

def emptied (t : Nat) (s : State) : State :=
  {s with segtab := update s.segtab t (fun j => if j < pmapSegtabsize then .null else s.segtab t j)}

theorem freeSegmaps_all (links : ∀ j, j < pmapSegtabsize → ∀ t', s.segtab t j ≠ .link t') :
    freeSegmaps t pmapSegtabsize 0 s = .ok (emptied t s) := by
  rw [freeSegmaps_spec t pmapSegtabsize 0 s (fun j _ high => links j (by omega))]
  simp [emptied]

def Space.destroy (v : Space) (pmap : PmapRef) : Option Space := do
  let i ← v.info pmap
  if 0 < i.pmCount - 1 then some (v.setInfo pmap {i with pmCount := i.pmCount - 1})
  else some {v with
    info := update v.info pmap none
    seg := update v.seg pmap (fun _ => false)
    pte := update v.pte pmap (fun _ => 0#32)}

def freedPmap (n t : Nat) (s : State) : State :=
  {putFreeSegtab t (emptied t s) with pmaps := update s.pmaps (.user n) none}

theorem freedPmap_wf (wf : Wf s) (owned : segtabOf s (.user n) = some t) (other : s.mmu.cur ≠ .user n) :
    Wf (freedPmap n t s) ∧ segPage (freedPmap n t s) = update (segPage s) (.user n) (fun _ => none) := by
  generalize reached : freedPmap n t s = s'
  have tables : segtabOf s' = update (segtabOf s) (.user n) none := by
    subst s'
    funext q
    by_cases mine : q = .user n
    · subst q; simp [segtabOf,freedPmap]
    · simp [segtabOf,freedPmap,mine]
  have live : ∀ q, q ≠ .user n → s'.pmaps q = s.pmaps q := by
    intro q other
    subst s'
    simp [freedPmap,other]
  have kept : ∀ t', t' ≠ t → s'.segtab t' = s.segtab t' := by
    intro t' other
    subst s'
    simp [freedPmap,putFreeSegtab,emptied,other]
  have owners : ∀ k t', segtabOf s' (.user k) = some t' → k ≠ n ∧ t' ≠ t ∧ segtabOf s (.user k) = some t' := by
    intro k t' held
    rw [tables] at held
    by_cases mine : k = n
    · subst k; rw [update_self] at held; cases held
    have apart : PmapRef.user k ≠ .user n := by simpa using mine
    rw [update_of_ne apart] at held
    exact ⟨mine,fun equal => mine (wf.tables k n t' held (equal ▸ owned)),held⟩
  have pages : segPage s' = update (segPage s) (.user n) (fun _ => none) := by
    funext q j
    by_cases mine : q = .user n
    · subst q; simp [segPage,tables]
    simp only [segPage,tables,update_of_ne mine]
    cases q with
    | kernel => rw [wf.kernel.2]
    | user k =>
      cases held : segtabOf s (.user k) with
      | none => rfl
      | some t' =>
        have apart : t' ≠ t := fun equal => mine (by rw [wf.tables k n t' held (equal ▸ owned)])
        simp only [kept t' apart]
  have found : ∀ q j page, segPage s' q j = some page → segPage s q j = some page := by
    intro q j page here
    rw [pages] at here
    by_cases mine : q = .user n
    · subst q; rw [update_self] at here; cases here
    · rwa [update_of_ne mine] at here
  refine ⟨?_,pages⟩
  refine ⟨?_,?_,?_,?_,?_,?_,?_,?_,?_,?_,?_,?_,?_,?_⟩
  · rw [live .kernel (by simp),tables,update_of_ne (by simp)]
    exact wf.kernel
  · intro k here
    have mine : PmapRef.user k ≠ .user n := by
      intro equal
      rw [equal] at here
      subst s'
      simp [freedPmap] at here
    rw [live _ mine] at here
    rw [tables,update_of_ne mine]
    have bound : s'.nextPmap = s.nextPmap := by subst s'; rfl
    rw [bound]
    exact wf.owner k here
  · intro k t' held
    obtain ⟨_,apart,old⟩ := owners k t' held
    have bound : s'.nextSeg = s.nextSeg := by subst s'; rfl
    rw [bound,kept t' apart]
    exact wf.table k t' old
  · intro k k' t' one two
    exact wf.tables k k' t' (owners k t' one).2.2 (owners k' t' two).2.2
  · intro q q' j j' page one two
    exact wf.pages q q' j j' page (found q j page one) (found q' j' page two)
  · intro q j page here
    have bound : s'.nextPt = s.nextPt := by subst s'; rfl
    rw [bound]
    exact wf.pagesBelow q j page (found q j page here)
  · obtain ⟨l,path,members⟩ := wf.free
    have out : t ∉ l := fun member => (members t member).2.1 n owned
    have first : s'.freeSegtab = some t := by subst s'; rfl
    have bound : s'.nextSeg = s.nextSeg := by subst s'; rfl
    have mine : s'.segtab t = update (fun j => if j < pmapSegtabsize then .null else s.segtab t j) 0
        (.ofLink s.freeSegtab) := by
      subst s'
      simp [freedPmap,putFreeSegtab,emptied]
    have link : segLink (s'.segtab t) = s.freeSegtab := by
      rw [mine,segLink,update_self]
      cases s.freeSegtab <;> rfl
    rw [first,bound]
    refine ⟨t :: l,⟨rfl,_,rfl,?_⟩,?_⟩
    · rw [link]
      refine path.frame (fun b member => ?_)
      rw [kept b (fun equal => out (equal ▸ member))]
    intro b member
    rcases List.mem_cons.mp member with rfl | old
    · refine ⟨(wf.table n b owned).1,fun k held => (owners k b held).2.1 rfl,?_,?_⟩
      · intro page
        rw [mine,update_self]
        cases s.freeSegtab <;> simp [SegEntry.ofLink]
      intro i index rest
      rw [mine,update_of_ne rest,if_pos index]
    rw [kept b (fun equal => out (equal ▸ old))]
    have was := members b old
    refine ⟨was.1,fun k held => was.2.1 k (owners k b held).2.2,was.2.2⟩
  · have cur : s'.mmu = s.mmu := by subst s'; rfl
    have base : s'.segbase = s.segbase := by subst s'; rfl
    rw [cur,base,live _ other,tables,update_of_ne other]
    exact wf.segbase
  all_goals subst s'
  · exact wf.chain
  · exact wf.nodeBelow
  · exact wf.nodeKeys
  · exact wf.headAligned
  · exact wf.headEmpty
  · exact wf.disjoint

theorem pmapDestroy_sim (wf : Wf s)
    (idle : ∀ p, s.pmaps (.user n) = some p → p.pmCount - 1 ≤ 0 → s.mmu.cur ≠ .user n) :
    Simulates (fun s' v' => Wf s' ∧ view m s' = v') (pmapDestroy (.user n) s) ((view m s).destroy (.user n)) := by
  have rep := wf.rep m
  refine (getPmap_sim rep (.user n)).bind (fun p i held => ?_)
  obtain ⟨live,rfl⟩ := held
  by_cases shared : 0 < p.pmCount - 1
  · rw [if_pos shared,if_pos shared]
    obtain ⟨wf',same,_⟩ := setPmap_rep rep live {p with pmCount := p.pmCount - 1} rfl
    exact ⟨wf',same⟩
  rw [if_neg shared,if_neg shared]
  obtain ⟨_,t,owned⟩ := wf.owner n (by simp [live])
  have table : p.pmSegtab = some t := by simpa [segtabOf,live] using owned
  have other := idle p live (by omega)
  have links := (wf.table n t owned).2
  have freed := freeSegmaps_all links
  obtain ⟨wf',pages⟩ := freedPmap_wf wf owned other
  rw [table]
  dsimp only
  rw [freed]
  suffices same : Wf (freedPmap n t s) ∧ view m (freedPmap n t s) = {view m s with
      info := update (view m s).info (.user n) none
      seg := update (view m s).seg (.user n) (fun _ => false)
      pte := update (view m s).pte (.user n) (fun _ => 0#32)} from same
  refine ⟨wf',?_⟩
  apply Space.ext
  · funext q
    by_cases mine : q = .user n
    · subst q; simp [view,freedPmap]
    · simp [view,freedPmap,mine]
  · funext q j
    simp only [view]
    rw [pages]
    by_cases mine : q = .user n
    · subst q; simp
    · simp [mine]
  · funext q vpn
    by_cases mine : q = .user n
    · subst q
      simp only [view,pteAt]
      rw [pages]
      simp
    simp only [view]
    rw [update_of_ne mine]
    cases q with
    | kernel => rfl
    | user k =>
      simp only [pteAt]
      rw [pages,update_of_ne mine]
      rfl
  all_goals rfl

def Space.reference (v : Space) (pmap : PmapRef) : Option Space :=
  (v.info pmap).map (fun i => v.setInfo pmap {i with pmCount := i.pmCount + 1})

theorem pmapReference_sim (wf : Wf s) :
    Simulates (fun s' v' => Wf s' ∧ view m s' = v') (pmapReference pmap s) ((view m s).reference pmap) := by
  have rep := wf.rep m
  unfold pmapReference reference
  rw [Option.map_eq_bind]
  refine (getPmap_sim rep pmap).bind (fun p i held => ?_)
  obtain ⟨live,rfl⟩ := held
  obtain ⟨wf',same,_⟩ := setPmap_rep rep live {p with pmCount := p.pmCount + 1} rfl
  exact ⟨wf',same⟩

-- pmap_asid_alloc on the two records it touches.
def asidAlloc (i : Info) (u : Mmu) : Info × Mmu :=
  if i.pmAsid = pmapAsidReserved ∨ i.pmAsidgen ≠ u.asidGeneration then
    let u := if u.nextAsid = u.maxAsid then
        {avr32Tbiap u with asidGeneration := (u.asidGeneration + 1) % 2 ^ 32, nextAsid := 1}
      else u
    ({i with pmAsid := u.nextAsid, pmAsidgen := u.asidGeneration},{u with nextAsid := u.nextAsid + 1})
  else (i,u)

def Space.activated (v : Space) (pmap : PmapRef) (i : Info) : Space :=
  {v.setInfo pmap (asidAlloc i v.mmu).1 with
    mmu := {machSetPid (asidAlloc i v.mmu).1.pmAsid (asidAlloc i v.mmu).2 with cur := pmap}}

def Space.activate (v : Space) (pmap : PmapRef) : Option Space := (v.info pmap).map (v.activated pmap)

theorem pmapAsidAlloc_ok (rep : Rep m tab s v) (live : s.pmaps pmap = some p) :
    ∃ s', pmapAsidAlloc pmap s = .ok s' ∧
      Rep m tab s' {v.setInfo pmap (asidAlloc p.toInfo v.mmu).1 with mmu := (asidAlloc p.toInfo v.mmu).2} ∧
      s'.pmaps pmap = some {p with toInfo := (asidAlloc p.toInfo v.mmu).1} := by
  have got : s.getPmap pmap = .ok p := by simp [State.getPmap,live]
  unfold pmapAsidAlloc
  rw [got,ok_bind,← mmu_same rep]
  unfold asidAlloc
  split
  · refine ⟨_,rfl,?_,by simp [State.setPmap,State.setMmu]⟩
    refine setMmu_rep (setPmap_rep rep live _ (by rfl)) ?_
    split <;> rfl
  have same : update v.info pmap (some p.toInfo) = v.info := by
    have here : some p.toInfo = v.info pmap := by rw [← rep.2.1]; simp [view,live]
    rw [here]
    exact update_eq_self _ _
  refine ⟨s,rfl,?_,live⟩
  simp only [setInfo,same]
  rw [mmu_same rep]
  exact rep

theorem pmapActivate_sim (wf : Wf s) :
    Simulates (fun s' v' => Wf s' ∧ view m s' = v') (pmapActivate pmap s) ((view m s).activate pmap) := by
  have rep := wf.rep m
  unfold pmapActivate activate
  cases held : s.pmaps pmap with
  | none => simp [pmapAsidAlloc,State.getPmap,view,held,Simulates]
  | some p =>
    obtain ⟨s₁,ran,⟨wf₁,same,_⟩,live⟩ := pmapAsidAlloc_ok rep held
    have got : s₁.getPmap pmap = .ok {p with toInfo := (asidAlloc p.toInfo (view m s).mmu).1} := by
      simp [State.getPmap,live]
    have info : (view m s).info pmap = some p.toInfo := by simp [view,held]
    rw [ran,ok_bind,got,ok_bind,info,Option.map_some]
    have current : s₁.mmu = (asidAlloc p.toInfo (view m s).mmu).2 := congrArg mmu same
    refine ⟨{wf₁ with segbase := ?_},?_⟩
    · refine ⟨by dsimp only; rw [live]; rfl,?_⟩
      have table : segtabOf s₁ pmap = p.pmSegtab := by simp [segtabOf,live]
      exact table.symm
    unfold activated
    rw [← current]
    apply Space.ext
    · have part := congrArg Space.info same
      exact part
    · have part := congrArg seg same
      exact part
    · have part := congrArg pte same
      exact part
    · have part := congrArg pv same
      exact part
    · have part := congrArg attrs same
      exact part
    · rfl
    have part := congrArg nextPmap same
    exact part

def Space.tlbMiss (v : Space) (va : Nat) : Option Space :=
  if v.mmu.cur = .kernel then none
  else if va < vmMaxuserAddress then
    let entry := v.pte v.mmu.cur (va / nbpg)
    if entry = 0#32 then some v
    else some (v.setMmu (machTlbUpdate (tlbehiOf va v.mmu.tlbAsid) entry v.mmu))
  else none

theorem usertlbmiss_sim (wf : Wf s) :
    Simulates (fun found v' => Wf (found.getD s) ∧ view m (found.getD s) = v') (usertlbmiss va s)
      ((view m s).tlbMiss va) := by
  have index : va / nbseg < pmapSegtabsize ↔ va < vmMaxuserAddress := by
    simp only [nbseg,pmapSegtabsize,vmMaxuserAddress]
    omega
  have seg : va / nbpg / nptepg = va / nbseg := by simp only [nbpg,nptepg,nbseg]; omega
  unfold usertlbmiss tlbMiss
  have cur : (view m s).mmu = s.mmu := rfl
  rw [wf.segbase.2,cur]
  cases now : s.mmu.cur with
  | kernel => simp [wf.kernel.2,Simulates]
  | user n =>
    have here := wf.segbase.1
    rw [now] at here
    obtain ⟨_,t,owned⟩ := wf.owner n here
    simp only [owned,reduceCtorEq,↓reduceIte,index]
    by_cases below : va < vmMaxuserAddress
    · simp only [below,↓reduceIte]
      have links := (wf.table n t owned).2 (va / nbseg) (index.mpr below)
      cases entry : s.segtab t (va / nbseg) with
      | link t' => exact absurd entry (links t')
      | null =>
        have none : segPage s (.user n) (va / nbseg) = none := by simp [segPage,owned,entry]
        have zero : (view m s).pte (.user n) (va / nbpg) = 0#32 := by simp [view,pteAt,seg,none]
        simp only [zero,↓reduceIte]
        exact ⟨wf,rfl⟩
      | ptes page =>
        have found : segPage s (.user n) (va / nbseg) = some page := by simp [segPage,owned,index.mpr below,entry]
        have same : (view m s).pte (.user n) (va / nbpg) = s.ptpage page (va / nbpg % nptepg) := by
          simp [view,pteAt,seg,found]
        rw [same]
        dsimp only
        split_ifs with empty
        · exact ⟨wf,rfl⟩
        have rep := wf.rep m
        obtain ⟨wf',same',_⟩ := setMmu_rep rep
          (update_cur (tlbehiOf va s.mmu.tlbAsid) (s.ptpage page (va / nbpg % nptepg)) s.mmu)
        exact ⟨wf',same'⟩
    · simp [below,Simulates]

def Space.tlbMod (m : Machine) (v : Space) (va : Nat) : Option Space := do
  let pmap := v.mmu.cur
  let i ← v.info pmap
  if pmap ≠ .kernel ∧ va < vmMaxuserAddress then
    let entry := v.pte pmap (va / nbpg)
    if has entry avr32PteValid = false ∨ has entry avr32PgDirty then none
    else if avr32ReadOnlyPte entry then none
    else
      let entry := entry ||| avr32PgDirty
      let v := v.setPte pmap (va / nbpg) entry
      let v := v.setMmu (machTlbUpdate (tlbehiOf va i.pmAsid) entry v.mmu)
      let pg := (avr32TlbpfnToPaddr entry).toNat / nbpg
      if m.managed pg then some {v with attrs := update v.attrs pg (v.attrs pg ||| (pvModified ||| pvReferenced))}
      else none
  else none

theorem trapTlbMod_sim (wf : Wf s) :
    Simulates (fun s' v' => Wf s' ∧ view m s' = v') (trapTlbMod m va s) ((view m s).tlbMod m va) := by
  have rep := wf.rep m
  unfold trapTlbMod tlbMod
  have cur : (view m s).mmu = s.mmu := rfl
  dsimp only
  rw [cur]
  cases now : s.mmu.cur with
  | kernel =>
    obtain ⟨p,held⟩ := Option.isSome_iff_exists.mp wf.kernel.1
    have table : p.pmSegtab = none := by simpa [segtabOf,held] using wf.kernel.2
    simp [pmapSegmap,State.getPmap,held,table,view,Simulates]
  | user n =>
    have here := wf.segbase.1
    rw [now] at here
    obtain ⟨p,held⟩ := Option.isSome_iff_exists.mp here
    have info : (view m s).info (.user n) = some p.toInfo := by simp [view,held]
    have lookup := segmap_sim rep n va
    rw [info,some_bind]
    by_cases below : va < vmMaxuserAddress
    · simp only [info,Option.isSome_some,below,and_self,↓reduceIte] at lookup
      obtain ⟨_,ran,rfl⟩ := lookup.backward rfl
      rw [ran,ok_bind]
      simp only [ne_eq,reduceCtorEq,not_false_eq_true,below,and_self,↓reduceIte]
      have seg : va / nbpg / nptepg = va / nbseg := by simp only [nbpg,nptepg,nbseg]; omega
      cases found : segPage s (.user n) (va / nbseg) with
      | none =>
        have zero : (view m s).pte (.user n) (va / nbpg) = 0#32 := by simp [view,pteAt,seg,found]
        simp [zero,has_zero,Simulates]
      | some page =>
        have points : Points (segPage s) (userPte page va) (.user n) va := ⟨below,page,found,rfl⟩
        have range : InRange m va (.user n) := below
        have read := getPte_sim rep points
        rw [if_pos range] at read
        obtain ⟨entry,got,rfl⟩ := read.backward rfl
        dsimp only
        rw [got,ok_bind]
        generalize word : (view m s).pte (.user n) (va / nbpg) = entry
        by_cases bad : has entry avr32PteValid = false ∨ has entry avr32PgDirty = true
        · rw [if_pos bad,if_pos bad]; trivial
        rw [if_neg bad,if_neg bad]
        cases ro : avr32ReadOnlyPte entry with
        | true => trivial
        | false =>
          have written := setPte_rep rep points range (entry ||| avr32PgDirty)
          have again : (s.setPte (entry ||| avr32PgDirty) (userPte page va)).getPmap (.user n) = .ok p := by
            have same : (s.setPte (entry ||| avr32PgDirty) (userPte page va)).pmaps = s.pmaps := rfl
            simp [State.getPmap,same,held]
          rw [again,ok_bind]
          have loaded := setMmu_rep written
            (update_cur (tlbehiOf va p.pmAsid) (entry ||| avr32PgDirty)
              (s.setPte (entry ||| avr32PgDirty) (userPte page va)).mmu)
          cases managed : m.managed ((avr32TlbpfnToPaddr (entry ||| avr32PgDirty)).toNat / nbpg) with
          | false => trivial
          | true =>
            simp only [↓reduceIte,pmapSetModified,physToVmPage,managed]
            obtain ⟨wf',same,_⟩ := attrs_rep (c := update s.attrs
              ((avr32TlbpfnToPaddr (entry ||| avr32PgDirty)).toNat / nbpg)
              (s.attrs ((avr32TlbpfnToPaddr (entry ||| avr32PgDirty)).toNat / nbpg) ||| (pvModified ||| pvReferenced))) loaded
            exact ⟨wf',same⟩
    simp only [below,and_false,↓reduceIte] at lookup
    obtain ⟨e,failed⟩ := lookup.failed
    rw [failed]
    simp [below,Simulates]
end NetbsdAvr32.Avr32
