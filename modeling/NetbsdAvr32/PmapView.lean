import NetbsdAvr32.PmapOps

namespace NetbsdAvr32.Avr32
open Function Outcome State

def segtabOf (s : State) (pmap : PmapRef) : Option Nat := (s.pmaps pmap).bind Pmap.pmSegtab

def segPage (s : State) (pmap : PmapRef) (i : Nat) : Option Nat :=
  match segtabOf s pmap with
  | none => none
  | some t => if i < pmapSegtabsize then
      match s.segtab t i with
      | .ptes page => some page
      | _ => none
    else none

def kernelVpn : Nat := vmMinKernelAddress / nbpg

def pteAt (m : Machine) (s : State) : PmapRef → Nat → Word
  | .kernel, vpn => if kernelVpn ≤ vpn ∧ vpn < kernelVpn + m.sysmapsize then s.sysmap (vpn - kernelVpn) else 0#32
  | .user n, vpn => match segPage s (.user n) (vpn / nptepg) with
    | some page => s.ptpage page (vpn % nptepg)
    | none => 0#32

def PvEntry.key (e : PvEntry) : Option (PmapRef × Nat) := e.pvPmap.map (·,e.pvVa)
def pvNodes (s : State) (pg : Nat) : List Nat := Linked.walk s.pvNode PvEntry.pvNext s.nextPv (s.pvHead pg).pvNext
def nodeKey (s : State) (n : Nat) : Option (PmapRef × Nat) := (s.pvNode n).bind PvEntry.key

-- The pv list of a page: the header unless its pv_pmap is NULL, then the chain.
def pvList (s : State) (pg : Nat) : List (PmapRef × Nat) :=
  match (s.pvHead pg).key with
  | none => []
  | some key => key :: (pvNodes s pg).filterMap (nodeKey s)

-- The abstract pmap module: page tables and reverse map as plain functions.
@[ext]
structure Space where
  info : PmapRef → Option Info
  seg : PmapRef → Nat → Bool
  pte : PmapRef → Nat → Word
  pv : Nat → List (PmapRef × Nat)
  attrs : Nat → Word
  mmu : Mmu
  nextPmap : Nat

def view (m : Machine) (s : State) : Space where
  info := fun pmap => (s.pmaps pmap).map Pmap.toInfo
  seg := fun pmap i => (segPage s pmap i).isSome
  pte := pteAt m s
  pv := pvList s
  attrs := s.attrs
  mmu := s.mmu
  nextPmap := s.nextPmap

def segLink (table : Nat → SegEntry) : Option Nat :=
  match table 0 with
  | .link t => some t
  | _ => none

-- The shape every pointer structure of the module keeps.
structure Wf (s : State) : Prop where
  kernel : (s.pmaps .kernel).isSome ∧ segtabOf s .kernel = none
  owner : ∀ n, (s.pmaps (.user n)).isSome → n < s.nextPmap ∧ ∃ t, segtabOf s (.user n) = some t
  table : ∀ n t, segtabOf s (.user n) = some t → t < s.nextSeg ∧
    ∀ i, i < pmapSegtabsize → ∀ t', s.segtab t i ≠ .link t'
  tables : ∀ n n' t, segtabOf s (.user n) = some t → segtabOf s (.user n') = some t → n = n'
  pages : ∀ pmap pmap' i i' page, segPage s pmap i = some page → segPage s pmap' i' = some page →
    pmap = pmap' ∧ i = i'
  pagesBelow : ∀ pmap i page, segPage s pmap i = some page → page < s.nextPt
  free : ∃ l, Linked.Path (fun t => some (s.segtab t)) segLink s.freeSegtab l none ∧
    ∀ t ∈ l, t < s.nextSeg ∧ (∀ n, segtabOf s (.user n) ≠ some t) ∧
      (∀ page, s.segtab t 0 ≠ .ptes page) ∧ ∀ i, i < pmapSegtabsize → i ≠ 0 → s.segtab t i = .null
  segbase : (s.pmaps s.mmu.cur).isSome ∧ s.segbase = segtabOf s s.mmu.cur
  chain : ∀ pg, Linked.Path s.pvNode PvEntry.pvNext (s.pvHead pg).pvNext (pvNodes s pg) none
  nodeBelow : ∀ n e, s.pvNode n = some e → n < s.nextPv
  nodeKeys : ∀ n e, s.pvNode n = some e → ∃ pmap va, e.key = some (pmap,va) ∧ va % nbpg = 0
  headAligned : ∀ pg pmap va, (s.pvHead pg).key = some (pmap,va) → va % nbpg = 0
  headEmpty : ∀ pg, (s.pvHead pg).key = none → (s.pvHead pg).pvNext = none
  disjoint : ∀ pg pg' n, n ∈ pvNodes s pg → n ∈ pvNodes s pg' → pg = pg'

-- `tab` records which page of PTEs backs each segment.
def Rep (m : Machine) (tab : PmapRef → Nat → Option Nat) (s : State) (v : Space) : Prop :=
  Wf s ∧ view m s = v ∧ segPage s = tab

theorem Wf.rep {s : State} (wf : Wf s) (m : Machine) : Rep m (segPage s) s (view m s) := ⟨wf,rfl,rfl⟩
def kvInRange (m : Machine) (va : Nat) : Prop := kernelVpn ≤ va / nbpg ∧ va / nbpg < kernelVpn + m.sysmapsize
instance : Decidable (kvInRange m va) := inferInstanceAs (Decidable (_ ∧ _))

def InRange (m : Machine) (va : Nat) : PmapRef → Prop
  | .kernel => kvInRange m va
  | .user _ => va < vmMaxuserAddress

instance : Decidable (InRange m va pmap) := match pmap with
  | .kernel => inferInstanceAs (Decidable (kvInRange m va))
  | .user _ => inferInstanceAs (Decidable (va < vmMaxuserAddress))

theorem kvtopte_range (m : Machine) (va : Nat) :
    kvtopte va < m.sysmapsize ↔ kvInRange m va := by
  have small := m.sysmap_small
  unfold kvtopte
  split_ifs with above
  · simp only [kvInRange,kernelVpn,vmMinKernelAddress,nbpg] at *
    omega
  simp only [kvInRange,kernelVpn,vmMinKernelAddress,nbpg] at *
  omega

theorem kvtopte_index (range : kvInRange m va) : kvtopte va = va / nbpg - kernelVpn := by
  have above : vmMinKernelAddress ≤ va := by
    simp only [kvInRange,kernelVpn,vmMinKernelAddress,nbpg] at *
    omega
  unfold kvtopte
  rw [if_pos above]
  simp only [kvInRange,kernelVpn,vmMinKernelAddress,nbpg] at *
  omega

def Points (tab : PmapRef → Nat → Option Nat) (pte : PteRef) (pmap : PmapRef) (va : Nat) : Prop :=
  match pmap with
  | .kernel => pte = sysPte va
  | .user n => va < vmMaxuserAddress ∧ ∃ page, tab (.user n) (va / nbseg) = some page ∧ pte = userPte page va

theorem Wf.data (wf : Wf s) (cur : u.cur = s.mmu.cur) :
    Wf {s with sysmap := a, ptpage := b, attrs := c, mmu := u} :=
  {wf with segbase := by rw [cur]; exact wf.segbase}

theorem Wf.pmaps (wf : Wf s) (live : ∀ pmap, (q pmap).isSome = (s.pmaps pmap).isSome)
    (same : ∀ pmap, (q pmap).bind Pmap.pmSegtab = segtabOf s pmap) : Wf {s with pmaps := q} := by
  have tab : segtabOf {s with pmaps := q} = segtabOf s := funext same
  have page : segPage {s with pmaps := q} = segPage s := by
    funext pmap i
    simp only [segPage,tab]
  refine ⟨?_,?_,?_,?_,?_,?_,?_,?_,wf.chain,wf.nodeBelow,wf.nodeKeys,wf.headAligned,wf.headEmpty,wf.disjoint⟩
  · rw [tab]; exact ⟨(live _).trans wf.kernel.1,wf.kernel.2⟩
  · rw [tab]; intro n some; exact wf.owner n ((live _).symm.trans some)
  · rw [tab]; exact wf.table
  · rw [tab]; exact wf.tables
  · rw [page]; exact wf.pages
  · rw [page]; exact wf.pagesBelow
  · rw [tab]; exact wf.free
  · rw [tab]; exact ⟨(live _).trans wf.segbase.1,wf.segbase.2⟩

def Space.setPte (v : Space) (pmap : PmapRef) (vpn : Nat) (w : Word) : Space :=
  {v with pte := update v.pte pmap (update (v.pte pmap) vpn w)}

def Space.setInfo (v : Space) (pmap : PmapRef) (i : Info) : Space := {v with info := update v.info pmap (some i)}

section
variable (rep : Rep m tab s v)
include rep

theorem setPmap_rep (got : s.pmaps pmap = some p) (p' : Pmap)
    (same : p'.pmSegtab = p.pmSegtab) :
    Rep m tab (s.setPmap pmap p') (v.setInfo pmap p'.toInfo) := by
  obtain ⟨wf,rfl,rfl⟩ := rep
  have live : ∀ q, (update s.pmaps pmap (some p') q).isSome = (s.pmaps q).isSome := by
    intro q
    by_cases equal : q = pmap
    · subst q; simp [got]
    · simp [equal]
  have seg : ∀ q, (update s.pmaps pmap (some p') q).bind Pmap.pmSegtab = segtabOf s q := by
    intro q
    by_cases equal : q = pmap
    · subst q; simp [segtabOf,got,same]
    · simp [segtabOf,equal]
  have page : segPage (s.setPmap pmap p') = segPage s := by
    funext q i
    have tab : segtabOf (s.setPmap pmap p') q = segtabOf s q := seg q
    simp only [segPage,tab]; rfl
  refine ⟨wf.pmaps live seg,?_,page⟩
  have pte : pteAt m (s.setPmap pmap p') = pteAt m s := by
    funext q vpn
    cases q with
    | kernel => rfl
    | user n => simp only [pteAt,page]; rfl
  apply Space.ext
  · funext q
    by_cases equal : q = pmap
    · subst q; simp [view,setPmap,Space.setInfo]
    · simp [view,setPmap,Space.setInfo,equal]
  · funext q i; simp only [view,page]; rfl
  · exact pte
  all_goals rfl

theorem getPmap_sim (pmap : PmapRef) :
    Simulates (fun p i => s.pmaps pmap = some p ∧ p.toInfo = i) (s.getPmap pmap) (v.info pmap) := by
  obtain ⟨wf,rfl,rfl⟩ := rep
  cases got : s.pmaps pmap with
  | none | some p => simp [getPmap,view,got,Simulates]

theorem getPte_sim (points : Points tab pte pmap va) :
    Simulates (fun w w' => w = w') (getPte m s pte)
      (if InRange m va pmap then some (v.pte pmap (va / nbpg)) else none) := by
  obtain ⟨wf,rfl,rfl⟩ := rep
  cases pmap with
  | kernel =>
    cases points
    simp only [getPte,sysPte,kvtopte_range,InRange]
    by_cases range : kvInRange m va
    · have inside : kernelVpn ≤ va / nbpg ∧ va / nbpg < kernelVpn + m.sysmapsize := range
      simp [range,Simulates,view,pteAt,kvtopte_index range,inside]
    · simp [range,Simulates]
  | user n =>
    obtain ⟨below,page,got,rfl⟩ := points
    have seg : va / nbpg / nptepg = va / nbseg := by simp only [nbpg,nptepg,nbseg]; omega
    have small : va / nbpg % nptepg < nptepg := Nat.mod_lt _ (by decide)
    simp [InRange,below,userPte,getPte,small,Simulates,view,pteAt,seg,got]

theorem setPte_rep (points : Points tab pte pmap va) (range : InRange m va pmap) (w : Word) :
    Rep m tab (s.setPte w pte) (v.setPte pmap (va / nbpg) w) := by
  obtain ⟨wf,rfl,rfl⟩ := rep
  cases pmap with
  | kernel =>
    cases points
    have index := kvtopte_index range
    refine ⟨wf.data rfl,?_,rfl⟩
    apply Space.ext <;> try rfl
    funext q vpn
    cases q with
    | user n => simp [view,Space.setPte,sysPte,setPte,pteAt,segPage,segtabOf]
    | kernel =>
      have inside : kernelVpn ≤ va / nbpg ∧ va / nbpg < kernelVpn + m.sysmapsize := range
      simp only [view,Space.setPte,sysPte,setPte,index,update_self]
      by_cases equal : vpn = va / nbpg
      · subst vpn
        simp [pteAt,inside]
      rw [update_of_ne equal]
      unfold pteAt
      by_cases low : kernelVpn ≤ vpn
      · have other : vpn - kernelVpn ≠ va / nbpg - kernelVpn := by omega
        simp [other]
      · simp [low]
  | user n =>
    obtain ⟨below,page,got,rfl⟩ := points
    refine ⟨wf.data rfl,?_,rfl⟩
    apply Space.ext <;> try rfl
    funext q vpn
    have seg : va / nbpg / nptepg = va / nbseg := by simp only [nbpg,nptepg,nbseg]; omega
    cases q with
    | kernel => simp [view,Space.setPte,userPte,setPte,pteAt]
    | user k =>
      have tab : segPage (s.setPte w (userPte page va)) = segPage s := rfl
      simp only [view,Space.setPte,pteAt,tab]
      cases found : segPage s (.user k) (vpn / nptepg) with
      | none =>
        by_cases equal : k = n
        · subst k
          have other : vpn ≠ va / nbpg := by
            rintro rfl
            rw [seg,got] at found
            cases found
          simp [other,pteAt,found]
        · simp [equal,pteAt,found]
      | some page' =>
        by_cases same : page' = page
        · subst page'
          obtain ⟨owner,index⟩ := wf.pages _ _ _ _ _ found got
          cases owner
          by_cases equal : vpn = va / nbpg
          · subst vpn
            simp [userPte,setPte]
          have other : vpn % nptepg ≠ va / nbpg % nptepg := by
            intro rest
            apply equal
            rw [← Nat.div_add_mod vpn nptepg,← Nat.div_add_mod (va / nbpg) nptepg,rest,index,seg]
          simp [userPte,setPte,other,equal,pteAt,found]
        have other : (PmapRef.user k,vpn) ≠ (.user n,va / nbpg) := by
          intro equal
          cases equal
          rw [seg,got] at found
          exact same (Option.some.inj found).symm
        by_cases equal : k = n
        · subst k
          have apart : vpn ≠ va / nbpg := fun h => other (by rw [h])
          simp [userPte,setPte,same,apart,pteAt,found]
        · simp [userPte,setPte,same,equal,pteAt,found]

theorem setMmu_rep (cur : u.cur = s.mmu.cur) : Rep m tab (s.setMmu u) {v with mmu := u} := by
  obtain ⟨wf,rfl,rfl⟩ := rep
  exact ⟨wf.data cur,rfl,rfl⟩

theorem mmu_same : s.mmu = v.mmu := congrArg Space.mmu rep.2.1

theorem attrs_rep : Rep m tab {s with attrs := c} {v with attrs := c} := by
  obtain ⟨wf,rfl,rfl⟩ := rep
  exact ⟨wf.data rfl,rfl,rfl⟩
end

theorem is_exact (e : PvEntry) (pmap : PmapRef) (va : Nat) : e.is pmap va = true ↔ e.key = some (pmap,va) := by
  simp [PvEntry.is,PvEntry.key]

theorem nodeKey_of (got : s.pvNode n = some e) : nodeKey s n = e.key := by simp [nodeKey,got]

theorem chain_below (wf : Wf s) (member : n ∈ pvNodes s pg) : n < s.nextPv := by
  obtain ⟨e,got⟩ := (wf.chain pg).live member
  exact wf.nodeBelow n e got

theorem chain_length (wf : Wf s) (pg : Nat) : (pvNodes s pg).length ≤ s.nextPv :=
  Linked.length_bound (wf.chain pg).nodup (fun _ member => chain_below wf member)

def keysOf (head : PvEntry) (node : Nat → Option PvEntry) (l : List Nat) : List (PmapRef × Nat) :=
  match head.key with
  | none => []
  | some key => key :: l.filterMap (fun n => (node n).bind PvEntry.key)

theorem pvList_keys (s : State) (pg : Nat) : pvList s pg = keysOf (s.pvHead pg) s.pvNode (pvNodes s pg) := rfl

theorem pv_rep (rep : Rep m tab s v) (pg : Nat) (head : PvEntry) (node : Nat → Option PvEntry) (l : List Nat)
    (grow : s.nextPv ≤ bound) (path : Linked.Path node PvEntry.pvNext head.pvNext l none)
    (members : ∀ n ∈ l, n ∈ pvNodes s pg ∨ s.nextPv ≤ n)
    (others : ∀ n, n ∉ pvNodes s pg → n < s.nextPv → node n = s.pvNode n)
    (cells : ∀ n e, node n = some e → n < bound ∧ ∃ pmap va, e.key = some (pmap,va) ∧ va % nbpg = 0)
    (aligned : ∀ pmap va, head.key = some (pmap,va) → va % nbpg = 0)
    (empty : head.key = none → head.pvNext = none) :
    Rep m tab {s with pvHead := update s.pvHead pg head, pvNode := node, nextPv := bound}
      {v with pv := update v.pv pg (keysOf head node l)} := by
  obtain ⟨wf,rfl,rfl⟩ := rep
  have here : pvNodes {s with pvHead := update s.pvHead pg head, pvNode := node, nextPv := bound} pg = l := by
    have short : l.length ≤ bound := by
      refine Linked.length_bound path.nodup ?_
      intro n member
      obtain ⟨e,got⟩ := path.live member
      exact (cells n e got).1
    simp only [pvNodes,update_self]
    exact path.walk short
  have untouched : ∀ pg', pg' ≠ pg → ∀ n ∈ pvNodes s pg', node n = s.pvNode n := by
    intro pg' other n member
    refine others n ?_ (chain_below wf member)
    intro mine
    exact other (wf.disjoint _ _ n member mine)
  have there : ∀ pg', pg' ≠ pg →
      Linked.Path node PvEntry.pvNext (s.pvHead pg').pvNext (pvNodes s pg') none := by
    intro pg' other
    refine (wf.chain pg').frame ?_
    intro n member
    rw [untouched pg' other n member]
  have away : ∀ pg', pg' ≠ pg →
      pvNodes {s with pvHead := update s.pvHead pg head, pvNode := node, nextPv := bound} pg' = pvNodes s pg' := by
    intro pg' other
    have short := Nat.le_trans (chain_length wf pg') grow
    simp only [pvNodes,update_of_ne other]
    exact (there pg' other).walk short
  refine ⟨?_,?_,rfl⟩
  · refine {wf with chain := ?_, nodeBelow := fun n e got => (cells n e got).1,
                    nodeKeys := fun n e got => (cells n e got).2, headAligned := ?_, headEmpty := ?_, disjoint := ?_}
    · intro pg'
      by_cases equal : pg' = pg
      · subst pg'; rw [here]; simpa using path
      · rw [away pg' equal]; simpa [equal] using there pg' equal
    · intro pg' pmap va key
      by_cases equal : pg' = pg
      · subst pg'; exact aligned pmap va (by simpa using key)
      · exact wf.headAligned pg' pmap va (by simpa [equal] using key)
    · intro pg' key
      by_cases equal : pg' = pg
      · subst pg'; simpa using empty (by simpa using key)
      · simpa [equal] using wf.headEmpty pg' (by simpa [equal] using key)
    intro pg₁ pg₂ n first second
    have mixed : ∀ pg', pg' ≠ pg → n ∈ l → n ∈ pvNodes s pg' → False := by
      intro pg' other new old
      rcases members n new with mine | fresh
      · exact other (wf.disjoint _ _ n old mine)
      have := chain_below wf old
      omega
    by_cases one : pg₁ = pg
    · by_cases two : pg₂ = pg
      · exact one.trans two.symm
      rw [one,here] at first; rw [away pg₂ two] at second
      exact (mixed pg₂ two first second).elim
    rw [away pg₁ one] at first
    by_cases two : pg₂ = pg
    · rw [two,here] at second
      exact (mixed pg₁ one second first).elim
    rw [away pg₂ two] at second
    exact wf.disjoint _ _ n first second
  · apply Space.ext <;> try rfl
    funext pg'
    by_cases equal : pg' = pg
    · subst pg'
      simp only [view,pvList_keys,here,update_self]
    simp only [view,pvList_keys,away pg' equal,update_of_ne equal,keysOf]
    have same : (pvNodes s pg').filterMap (fun n => (node n).bind PvEntry.key) =
        (pvNodes s pg').filterMap (fun n => (s.pvNode n).bind PvEntry.key) := by
      refine List.filterMap_congr ?_
      intro n member
      rw [untouched pg' equal n member]
    rw [same]

def lastPtr (pv : PvPtr) : List Nat → PvPtr
  | [] => pv
  | n :: l => lastPtr (.node n) l

theorem lastPtr_concat (pv : PvPtr) (l : List Nat) (n : Nat) : lastPtr pv (l ++ [n]) = .node n := by
  induction l generalizing pv with
  | nil => rfl
  | cons a l ih => exact ih (.node a)

theorem pvSearch_spec (pmap : PmapRef) (va : Nat) (pv : PvPtr)
    (path : Linked.Path s.pvNode PvEntry.pvNext p l none) (enough : l.length < fuel) :
    (∃ last, pvSearch s pmap va fuel pv p = .ok (last,none) ∧ ∀ n ∈ l, nodeKey s n ≠ some (pmap,va)) ∨
    ∃ front n rest, l = front ++ n :: rest ∧ nodeKey s n = some (pmap,va) ∧
      (∀ a ∈ front, nodeKey s a ≠ some (pmap,va)) ∧
      pvSearch s pmap va fuel pv p = .ok (lastPtr pv front,some n) := by
  induction l generalizing p pv fuel with
  | nil =>
    cases path
    cases fuel with
    | zero => simp at enough
    | succ fuel => exact .inl ⟨pv,rfl,by simp⟩
  | cons n l ih =>
    obtain ⟨rfl,e,got,rest⟩ := path
    cases fuel with
    | zero => simp at enough
    | succ fuel =>
      have key := nodeKey_of got
      by_cases hit : e.is pmap va = true
      · refine .inr ⟨[],n,l,rfl,?_,by simp,?_⟩
        · rw [key]; exact (is_exact e pmap va).mp hit
        · simp [pvSearch,getPv,got,hit,lastPtr,bind,Except.bind]
      have miss : nodeKey s n ≠ some (pmap,va) := by
        rw [key]; exact fun same => hit ((is_exact e pmap va).mpr same)
      have unfolded : pvSearch s pmap va (fuel + 1) pv (some n) = pvSearch s pmap va fuel (.node n) e.pvNext := by
        simp [pvSearch,getPv,got,hit,bind,Except.bind]
      rw [unfolded]
      rcases ih (.node n) rest (by simpa using enough) with ⟨last,ran,none⟩ | ⟨front,a,tail,split,found,before,ran⟩
      · refine .inl ⟨last,ran,?_⟩
        intro b member
        rcases List.mem_cons.mp member with rfl | later
        · exact miss
        · exact none b later
      refine .inr ⟨n :: front,a,tail,by rw [split]; rfl,found,?_,ran⟩
      intro b member
      rcases List.mem_cons.mp member with rfl | later
      · exact miss
      · exact before b later

def Space.erasePv (v : Space) (pg : Nat) (key : PmapRef × Nat) : Space :=
  {v with pv := update v.pv pg ((v.pv pg).erase key)}

theorem erase_absent (v : Space) (absent : key ∉ v.pv pg) : v.erasePv pg key = v := by
  apply Space.ext <;> try rfl
  funext pg'
  by_cases equal : pg' = pg
  · subst pg'; simp [Space.erasePv,List.erase_of_not_mem absent]
  · simp [Space.erasePv,equal]

theorem erase_head (rep : Rep m tab s v) (hit : (s.pvHead pg).is pmap va = true) :
    ∃ s', pmapRemovePv pmap va pg s = .ok s' ∧ Rep m tab s' (v.erasePv pg (pmap,va)) := by
  have wf := rep.1
  have key := (is_exact _ _ _).mp hit
  have list : v.pv pg = keysOf (s.pvHead pg) s.pvNode (pvNodes s pg) := by rw [← rep.2.1]; rfl
  have path := wf.chain pg
  unfold pmapRemovePv
  simp only [hit,↓reduceIte]
  cases next : (s.pvHead pg).pvNext with
  | none =>
    have nil : pvNodes s pg = [] := by rw [next] at path; exact path.unique rfl
    refine ⟨_,rfl,?_⟩
    have done := pv_rep rep pg ⟨none,none,(s.pvHead pg).pvVa,(s.pvHead pg).pvFlags⟩ s.pvNode []
      (Nat.le_refl _) rfl (by simp) (fun _ _ _ => rfl)
      (fun n e got => ⟨wf.nodeBelow n e got,wf.nodeKeys n e got⟩) (by simp [PvEntry.key]) (fun _ => rfl)
    have erased : (v.pv pg).erase (pmap,va) = [] := by simp [list,keysOf,key,nil]
    rw [Space.erasePv,erased]
    exact done
  | some n =>
    rw [next] at path
    obtain ⟨rest,nodes⟩ : ∃ rest, pvNodes s pg = n :: rest := by
      cases nodes : pvNodes s pg with
      | nil => rw [nodes] at path; cases path
      | cons a rest => rw [nodes] at path; cases Option.some.inj path.1; exact ⟨rest,rfl⟩
    have nodup := path.nodup
    rw [nodes] at path nodup
    obtain ⟨_,e,got,tail⟩ := path
    have off : n ∉ rest := (List.nodup_cons.mp nodup).1
    obtain ⟨other,addr,second,aligned⟩ := wf.nodeKeys n e got
    simp only [getPv,got]
    refine ⟨_,rfl,?_⟩
    have done := pv_rep rep pg
      {e with pvFlags := e.pvFlags ||| ((s.pvHead pg).pvFlags &&& (pvModified ||| pvReferenced))}
      (update s.pvNode n none) rest (Nat.le_refl _) (tail.free off) (fun a member => .inl (by rw [nodes]; exact List.mem_cons_of_mem _ member))
      (fun a out _ => by
        have apart : a ≠ n := fun same => out (by rw [nodes,same]; simp)
        rw [update_of_ne apart])
      (fun a cell live => by
        have apart : a ≠ n := fun same => by subst a; simp at live
        rw [update_of_ne apart] at live
        exact ⟨wf.nodeBelow a cell live,wf.nodeKeys a cell live⟩)
      (fun p w same => by
        have : e.key = some (p,w) := same
        rw [second] at this
        cases this
        exact aligned)
      (fun same => by
        have : e.key = none := same
        rw [second] at this
        cases this)
    have erased : (v.pv pg).erase (pmap,va) =
        keysOf {e with pvFlags := e.pvFlags ||| ((s.pvHead pg).pvFlags &&& (pvModified ||| pvReferenced))}
          (update s.pvNode n none) rest := by
      have same : rest.filterMap (fun a => (update s.pvNode n none a).bind PvEntry.key) =
          rest.filterMap (fun a => (s.pvNode a).bind PvEntry.key) := by
        refine List.filterMap_congr ?_
        intro a member
        have apart : a ≠ n := fun same => off (same ▸ member)
        rw [update_of_ne apart]
      have headKey : ∀ flags, PvEntry.key {e with pvFlags := flags} = some (other,addr) := fun _ => second
      rw [list]
      simp [keysOf,key,nodes,got,second,headKey,same]
    rw [Space.erasePv,erased]
    exact done

theorem erase_behind (rep : Rep m tab s v) (nodes : pvNodes s pg = front ++ n :: rest) (got : s.pvNode n = some e)
    (prev : s.getPv (lastPtr (.header pg) front) = .ok cell) :
    Rep m tab (pmapPvFree n (s.setPv {cell with pvNext := e.pvNext} (lastPtr (.header pg) front)))
      {v with pv := update v.pv pg (keysOf (s.pvHead pg) s.pvNode (front ++ rest))} := by
  have wf := rep.1
  have path := wf.chain pg
  have nodup := path.nodup
  rw [nodes] at path nodup
  have offN : n ∉ front ++ rest := by
    have := (List.nodup_middle.mp nodup)
    exact (List.nodup_cons.mp this).1
  have keyed : ∀ a live, s.pvNode a = some live → a < s.nextPv ∧ ∃ pmap va, live.key = some (pmap,va) ∧ va % nbpg = 0 :=
    fun a live found => ⟨wf.nodeBelow a live found,wf.nodeKeys a live found⟩
  rcases List.eq_nil_or_concat front with rfl | ⟨before,a,rfl⟩
  · simp only [lastPtr,getPv,Except.ok.injEq] at prev
    subst cell
    have tail := path.tail got
    have done := pv_rep rep pg {s.pvHead pg with pvNext := e.pvNext} (update s.pvNode n none) rest
      (Nat.le_refl _) (tail.free (by simpa using offN))
      (fun b member => .inl (by rw [nodes]; simp [member]))
      (fun b out _ => by
        have apart : b ≠ n := fun same => out (by rw [nodes,same]; simp)
        rw [update_of_ne apart])
      (fun b live found => by
        have apart : b ≠ n := fun same => by subst b; simp at found
        rw [update_of_ne apart] at found
        exact keyed b live found)
      (fun pmap va key => wf.headAligned pg pmap va key)
      (fun key => by
        have empty := wf.headEmpty pg key
        rw [empty] at path
        cases path.1)
    have same : keysOf {s.pvHead pg with pvNext := e.pvNext} (update s.pvNode n none) rest =
        keysOf (s.pvHead pg) s.pvNode ([] ++ rest) := by
      have cells : rest.filterMap (fun b => (update s.pvNode n none b).bind PvEntry.key) =
          rest.filterMap (fun b => (s.pvNode b).bind PvEntry.key) := by
        refine List.filterMap_congr ?_
        intro b member
        have apart : b ≠ n := fun same => offN (by simpa [← same] using member)
        rw [update_of_ne apart]
      have headKey : PvEntry.key {s.pvHead pg with pvNext := e.pvNext} = (s.pvHead pg).key := rfl
      simp only [keysOf,headKey,cells,List.nil_append]
    rw [← same]
    exact done
  rw [List.concat_eq_append] at *
  rw [lastPtr_concat] at prev ⊢
  have gotA : s.pvNode a = some cell := by
    cases found : s.pvNode a with
    | none => simp [getPv,found] at prev
    | some other => simpa [getPv,found] using prev
  have cut : Linked.Path (update (update s.pvNode a (some {cell with pvNext := e.pvNext})) n none) PvEntry.pvNext
      (s.pvHead pg).pvNext (before ++ a :: rest) none := by
    have shape : Linked.Path s.pvNode PvEntry.pvNext (s.pvHead pg).pvNext (before ++ a :: n :: rest) none := by
      simpa using path
    exact shape.cut got rfl
  have done := pv_rep rep pg (s.pvHead pg) (update (update s.pvNode a (some {cell with pvNext := e.pvNext})) n none)
    (before ++ a :: rest) (Nat.le_refl _) cut
    (fun b member => .inl (by rw [nodes]; simp at member ⊢; tauto))
    (fun b out _ => by
      have apartN : b ≠ n := fun same => out (by rw [nodes,same]; simp)
      have apartA : b ≠ a := fun same => out (by rw [nodes,same]; simp)
      rw [update_of_ne apartN,update_of_ne apartA])
    (fun b live found => by
      have apart : b ≠ n := fun same => by subst b; simp at found
      rw [update_of_ne apart] at found
      by_cases equal : b = a
      · subst b
        simp only [update_self,Option.some.injEq] at found
        subst live
        exact keyed a cell gotA
      rw [update_of_ne equal] at found
      exact keyed b live found)
    (fun pmap va key => wf.headAligned pg pmap va key) (fun key => wf.headEmpty pg key)
  have same : keysOf (s.pvHead pg) (update (update s.pvNode a (some {cell with pvNext := e.pvNext})) n none)
      (before ++ a :: rest) = keysOf (s.pvHead pg) s.pvNode (before ++ [a] ++ rest) := by
    have cells : (before ++ a :: rest).filterMap (fun b =>
          (update (update s.pvNode a (some {cell with pvNext := e.pvNext})) n none b).bind PvEntry.key) =
        (before ++ a :: rest).filterMap (fun b => (s.pvNode b).bind PvEntry.key) := by
      refine List.filterMap_congr ?_
      intro b member
      have apart : b ≠ n := fun same => offN (by simpa [← same] using member)
      rw [update_of_ne apart]
      by_cases equal : b = a
      · subst b; simp [gotA,PvEntry.key]
      · rw [update_of_ne equal]
    simp only [keysOf,cells]
    simp
  rw [← same]
  have shape : s.setPv {cell with pvNext := e.pvNext} (.node a) =
      {s with pvNode := update s.pvNode a (some {cell with pvNext := e.pvNext})} := rfl
  have head : update s.pvHead pg (s.pvHead pg) = s.pvHead := update_eq_self pg s.pvHead
  rw [head] at done
  exact done

theorem pmapRemovePv_sim (rep : Rep m tab s v) (pmap : PmapRef) (va pg : Nat) :
    ∃ s', pmapRemovePv pmap va pg s = .ok s' ∧ Rep m tab s' (v.erasePv pg (pmap,va)) := by
  by_cases hit : (s.pvHead pg).is pmap va = true
  · exact erase_head rep hit
  have wf := rep.1
  have list : v.pv pg = keysOf (s.pvHead pg) s.pvNode (pvNodes s pg) := by rw [← rep.2.1]; rfl
  have miss : (s.pvHead pg).key ≠ some (pmap,va) := fun same => hit ((is_exact _ _ _).mpr same)
  have enough : (pvNodes s pg).length < s.nextPv + 1 := Nat.lt_succ_of_le (chain_length wf pg)
  unfold pmapRemovePv
  simp only [hit,Bool.false_eq_true,↓reduceIte]
  rcases pvSearch_spec pmap va (.header pg) (wf.chain pg) enough with
    ⟨last,ran,absent⟩ | ⟨front,n,rest,nodes,found,before,ran⟩
  · refine ⟨s,by simp [ran,bind,Except.bind],?_⟩
    have out : (pmap,va) ∉ v.pv pg := by
      rw [list,keysOf]
      cases key : (s.pvHead pg).key with
      | none => simp
      | some k =>
        simp only [List.mem_cons,List.mem_filterMap,not_or,not_exists,not_and]
        refine ⟨fun same => miss (by rw [key,same]),fun n member => ?_⟩
        exact absent n member
    rw [erase_absent v out]
    exact rep
  obtain ⟨e,got⟩ := (wf.chain pg).live (a := n) (by rw [nodes]; simp)
  obtain ⟨cell,prev⟩ : ∃ cell, s.getPv (lastPtr (.header pg) front) = .ok cell := by
    rcases List.eq_nil_or_concat front with rfl | ⟨most,a,rfl⟩
    · exact ⟨_,rfl⟩
    obtain ⟨cell,live⟩ := (wf.chain pg).live (a := a) (by rw [nodes]; simp)
    rw [List.concat_eq_append,lastPtr_concat]
    exact ⟨cell,by simp [getPv,live]⟩
  have node : s.getPv (.node n) = .ok e := by simp [getPv,got]
  refine ⟨_,by simp [ran,node,prev,bind,Except.bind]; rfl,?_⟩
  have erased : (v.pv pg).erase (pmap,va) = keysOf (s.pvHead pg) s.pvNode (front ++ rest) := by
    rw [list]
    unfold keysOf
    cases key : (s.pvHead pg).key with
    | none => rfl
    | some k =>
      have apart : k ≠ (pmap,va) := fun same => miss (by rw [key,same])
      have front' : (pmap,va) ∉ front.filterMap (fun a => (s.pvNode a).bind PvEntry.key) := by
        simp only [List.mem_filterMap,not_exists,not_and]
        exact before
      have here : (s.pvNode n).bind PvEntry.key = some (pmap,va) := found
      simp [nodes,apart,List.erase_append_right _ front',here]
  rw [Space.erasePv,erased]
  exact erase_behind rep nodes got prev

-- The operations of pmap.c on the abstract module. `none` is a call that does
-- not return.
def Space.setMmu (v : Space) (u : Mmu) : Space := {v with mmu := u}

def Mmu.flush (va asid : Nat) (u : Mmu) : Mmu :=
  let tlbehi := BitVec.ofNat 32 va ||| BitVec.ofNat 32 asid ||| avr32PgValid
  u.drop (tlbVpn tlbehi) (tlbAsidField tlbehi)

def pageList (sva : Nat) : Nat → List Nat
  | 0 => []
  | k + 1 => sva :: pageList (sva + nbpg) k

def pageCount (sva eva : Nat) : Nat := (eva - sva + nbpg - 1) / nbpg
def pages (sva eva : Nat) : List Nat := pageList sva (pageCount sva eva)
instance pvKeyLawful : LawfulBEq (PmapRef × Nat) := inferInstance

def Space.unmapped (m : Machine) (pmap : PmapRef) (va asid : Nat) (flush : Bool) (i : Info) (v : Space) : Space :=
  let entry := v.pte pmap (va / nbpg)
  let v := v.setInfo pmap (i.unmapped entry)
  let v := match physToVmPage m (avr32TlbpfnToPaddr entry).toNat with
    | some pg => v.erasePv pg (pmap,va)
    | none => v
  let v := v.setPte pmap (va / nbpg) 0#32
  if flush then v.setMmu (v.mmu.flush va asid) else v

def Space.unmapPte (m : Machine) (pmap : PmapRef) (asid : Nat) (flush : Bool) (v : Space) (va : Nat) : Option Space :=
  if InRange m va pmap then
    if has (v.pte pmap (va / nbpg)) avr32PteValid = false then some v
    else (v.info pmap).map (fun i => v.unmapped m pmap va asid flush i)
  else none

def Space.remove (m : Machine) (pmap : PmapRef) (sva eva : Nat) (v : Space) : Option Space :=
  if pmap = .kernel then (pages sva eva).foldlM (Space.unmapPte m pmap 0 true) v
  else do
    let i ← v.info pmap
    (pages sva eva).foldlM (Space.unmapPte m pmap i.pmAsid (i.pmAsidgen == v.mmu.asidGeneration)) v

def Space.protectPte (m : Machine) (pmap : PmapRef) (code : Word) (tlbehi : Nat → Word) (needupdate : Bool)
    (v : Space) (va : Nat) : Option Space :=
  if InRange m va pmap then
    let entry := v.pte pmap (va / nbpg)
    if has entry avr32PteValid = false then some v
    else
      let entry := reprotected code entry
      let v := v.setPte pmap (va / nbpg) entry
      some (if needupdate then v.setMmu (machTlbUpdate (tlbehi va) entry v.mmu) else v)
  else none

def Space.protect (m : Machine) (pmap : PmapRef) (sva eva : Nat) (prot : Word) (v : Space) : Option Space :=
  if 8 ≤ prot.toNat then none
  else if has prot vmProtRead = false then v.remove m pmap sva eva
  else do
    let code ← (pteProt pmap prot).toOption
    let i ← v.info pmap
    if pmap = .kernel then
      (pages sva eva).foldlM (Space.protectPte m pmap code
        (fun va => avr32VaddrToTlbvpn (BitVec.ofNat 32 va) ||| BitVec.ofNat 32 i.pmAsid) true) v
    else if vmMaxuserAddress < sva then none
    else if vmMaxuserAddress < eva then none
    else (pages sva eva).foldlM (Space.protectPte m pmap code (fun va => tlbehiOf va i.pmAsid)
      (i.pmAsidgen == v.mmu.asidGeneration)) v

def Space.enterPv (m : Machine) : Nat → PmapRef → Nat → Nat → Space → Option Space
  | 0, _, _, _, _ => none
  | k + 1, pmap, va, pg, v => match v.pv pg with
    | [] => some {v with pv := update v.pv pg [(pmap,va)]}
    | head :: rest =>
      match (head :: rest).find? (fun key => avr32CacheIndexof m key.2 != avr32CacheIndexof m va) with
      | some key => do
        let v ← v.remove m key.1 key.2 (key.2 + nbpg)
        v.enterPv m k pmap va pg
      | none =>
        if (pmap,va) ∈ head :: rest then some v
        else some {v with pv := update v.pv pg (head :: (pmap,va) :: rest)}

def Space.enterPte (m : Machine) (pmap : PmapRef) (va : Nat) (pa : Word) (npte : Word) (wired : Bool) (v : Space) :
    Option (Word × Space) := do
  let i ← v.info pmap
  let v := if wired then v.setInfo pmap {i with wiredCount := i.wiredCount + 1} else v
  let npte := if wired then npte ||| avr32PteWired else npte
  if InRange m va pmap then do
    let entry := v.pte pmap (va / nbpg)
    let v ← if has entry avr32PteValid ∧ avr32TlbpfnToPaddr entry ≠ pa then v.remove m pmap va (va + nbpg)
      else some v
    let i ← v.info pmap
    let v := if has (v.pte pmap (va / nbpg)) avr32PteValid = false then
        v.setInfo pmap {i with residentCount := i.residentCount + 1} else v
    some (npte,v.setPte pmap (va / nbpg) npte)
  else none

-- The protection, cache and dirty bits pmap_enter chooses first.
def enterBits (code prot attrs : Word) : Word :=
  if has prot vmProtWrite ∧ has attrs pvModified then code ||| avr32PgCached ||| avr32PgDirty
  else code ||| avr32PgCached

def kernelPte (bits pa : Word) : Word :=
  bits ||| (avr32PaddrToTlbpfn pa ||| avr32PgValid ||| avr32PgCached ||| avr32PgSize4K ||| avr32PgGlobal)

def userPteWord (bits pa : Word) : Word :=
  bits ||| (avr32PaddrToTlbpfn pa ||| avr32PteValid ||| avr32PgCached ||| avr32PgSize4K)

def enterWord (npte : Word) (wired : Bool) : Word := if wired then npte ||| avr32PteWired else npte

def Space.enter (m : Machine) (fuel : Nat) (pmap : PmapRef) (va pa : Nat) (prot flags : Word) (mem : Bool)
    (v : Space) : Option (Int × Space) := do
  let wired := has flags pmapWired
  let pg ← physToVmPage m pa
  let attrs := enterAttrs flags (v.attrs pg)
  let v := {v with attrs := update v.attrs pg attrs}
  let code ← (pteProt pmap prot).toOption
  let bits := enterBits code prot attrs
  if pmap = .kernel then do
    let v ← v.enterPv m fuel pmap va pg
    let (npte,v) ← v.enterPte m pmap va (BitVec.ofNat 32 pa) (kernelPte bits (BitVec.ofNat 32 pa)) wired
    let i ← v.info pmap
    some (0,v.setMmu (machTlbUpdate (tlbehiOf va i.pmAsid) npte v.mmu))
  else if vmMaxuserAddress ≤ va then none
  else do
    let _ ← v.info pmap
    if v.seg pmap (va / nbseg) = false ∧ mem = false then
      if has flags pmapCanfail then some (enomem,v) else none
    else do
      let v := {v with seg := update v.seg pmap (update (v.seg pmap) (va / nbseg) true)}
      let v ← v.enterPv m fuel pmap va pg
      let (npte,v) ← v.enterPte m pmap va (BitVec.ofNat 32 pa) (userPteWord bits (BitVec.ofNat 32 pa)) wired
      let i ← v.info pmap
      some (0,if i.pmAsidgen = v.mmu.asidGeneration then
        v.setMmu (machTlbUpdate (tlbehiOf va i.pmAsid) npte v.mmu) else v)
end NetbsdAvr32.Avr32
