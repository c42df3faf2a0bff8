import NetbsdAvr32.PmapSteps
import NetbsdAvr32.PmapTlb

-- What pmap_clear_modify leaves of the dirty bits of a page.
namespace NetbsdAvr32.Avr32
open Function Outcome Relation Space
variable {m : Machine} {s s' : State} {v v' : Space} {pmap : PmapRef} {n va vpn pa pg rolls fuel : Nat} {i : Info} {key : PmapRef × Nat} {b : Bool} {r : Bool × State}

-- The PTE maps the page: it is AVR32_PTE_VALID, or the mapping is on the page's pv list.
def MapsAt (m : Machine) (s : State) (pg : Nat) (pmap : PmapRef) (vpn : Nat) : Prop :=
  (avr32TlbpfnToPaddr (pteAt m s pmap vpn)).toNat = pg * nbpg ∧ (has (pteAt m s pmap vpn) avr32PteValid = true ∨ (pmap,vpn * nbpg) ∈ pvList s pg)

def TlbFor (s : State) (key : PmapRef × Nat) (e : TlbEntry) : Prop :=
  e.vpn = key.2 / nbpg ∧ (key.1 = .kernel ∨ e.global = false ∧ ∃ p, Current s key.1 p ∧ e.asid = p.pmAsid)

structure Clean (m : Machine) (s : State) (pg : Nat) : Prop where
  attr : has (s.attrs pg) pvModified = false
  ptes : ∀ pmap vpn, MapsAt m s pg pmap vpn → has (pteAt m s pmap vpn) avr32PgDirty = false
  tlb : ∀ key ∈ pvList s pg, ∀ e ∈ s.mmu.tlb, TlbFor s key e → has e.pte avr32PgDirty = false

-- No mapping on the list is dirty while its pmap has an ASID of the current
-- generation, no entry of the TLB is, and what pmap_kenter_pa mapped is listed.
structure Spared (m : Machine) (s : State) (pg : Nat) : Prop where
  stale : has (s.attrs pg) pvModified = true → ∀ key ∈ pvList s pg, has (pteAt m s key.1 (key.2 / nbpg)) avr32PgDirty = true →
    ∀ p, s.pmaps key.1 = some p → p.pmAsidgen ≠ s.mmu.asidGeneration
  tlb : ∀ key ∈ pvList s pg, ∀ e ∈ s.mmu.tlb, TlbFor s key e → has e.pte avr32PgDirty = false
  kenter : ∀ vpn, has (pteAt m s .kernel vpn) avr32PteValid = true → (avr32TlbpfnToPaddr (pteAt m s .kernel vpn)).toNat = pg * nbpg →
    has (pteAt m s .kernel vpn) avr32PgDirty = true → has (s.attrs pg) pvModified = true ∧ (PmapRef.kernel,vpn * nbpg) ∈ pvList s pg

theorem maps_frame (managed : m.managed pg = true) (w : Word) : Maps m w pg ↔ has w avr32PteValid = true ∧ (avr32TlbpfnToPaddr w).toNat = pg * nbpg := by
  refine and_congr_right (fun _ => ?_)
  have whole := frame_aligned w
  unfold physToVmPage
  constructor
  · intro found
    split at found
    · have number := Option.some.inj found
      simp only [nbpg] at *
      omega
    · cases found
  intro equal
  rw [equal,Nat.mul_div_cancel _ (by decide),managed]
  rfl

theorem listed_clearable (wf : Wf s) (ledger : Ledger m (view m s)) (member : key ∈ pvList s pg)
    (stale : has (pteAt m s key.1 (key.2 / nbpg)) avr32PgDirty = true → ∀ p, s.pmaps key.1 = some p → p.pmAsidgen ≠ s.mmu.asidGeneration) :
    Clearable m (view m s) key := by
  obtain ⟨pmap,va⟩ := key
  have aligned : va % nbpg = 0 := view_aligned (m := m) wf pg _ member
  cases pmap with
  | kernel =>
    obtain ⟨p,held⟩ := Option.isSome_iff_exists.mp wf.kernel.1
    exact ⟨p.toInfo,by simp [view,held],ledger.kernel pg va member,.inl rfl,fun dirty => stale dirty p held⟩
  | user n =>
    have whole : va / nbpg * nbpg = va := Nat.div_mul_cancel (Nat.dvd_of_mod_eq_zero aligned)
    have maps : Maps m (pteAt m s (.user n) (va / nbpg)) pg := (ledger.listed.user pg n (va / nbpg)).mp (by rw [whole]; exact member)
    have some : pteAt m s (.user n) (va / nbpg) ≠ 0#32 := by
      intro zero
      rw [zero] at maps
      exact not_maps (has_zero _) maps
    obtain ⟨page,p,found,held,below⟩ := pte_backed some
    rw [whole] at below
    have seg : va / nbpg / nptepg = va / nbseg := by
      simp only [nbpg,nptepg,nbseg]
      omega
    rw [seg] at found
    exact ⟨p.toInfo,by simp [view,held],below,.inr (by simp [view,found]),fun dirty => stale dirty p held⟩

theorem tlbFor_view : TlbFor s key e ↔ e.vpn = key.2 / nbpg ∧ (key.1 = .kernel ∨ e.global = false ∧
    ∃ i, (view m s).info key.1 = some i ∧ i.pmAsid ≠ 0 ∧ i.pmAsidgen = (view m s).mmu.asidGeneration ∧ e.asid = i.pmAsid) := by
  constructor
  · rintro ⟨page,kernel | ⟨plain,p,⟨held,live,gen⟩,asid⟩⟩
    · exact ⟨page,.inl kernel⟩
    · exact ⟨page,.inr ⟨plain,p.toInfo,by simp [view,held],live,gen,asid⟩⟩
  rintro ⟨page,kernel | ⟨plain,i,info,live,gen,asid⟩⟩
  · exact ⟨page,.inl kernel⟩
  obtain ⟨p,held,rfl⟩ := Option.map_eq_some_iff.mp info
  exact ⟨page,.inr ⟨plain,p,⟨held,live,gen⟩,asid⟩⟩

theorem tlbFor_same (info : (view m s').info = (view m s).info) (mmu : (view m s').mmu = (view m s).mmu) (key : PmapRef × Nat) (e : TlbEntry) :
    TlbFor s' key e ↔ TlbFor s key e := by
  rw [tlbFor_view (m := m),tlbFor_view (m := m),info,mmu]

theorem clean_plain (ledger : Ledger m (view m s)) (managed : m.managed pg = true) (plain : has (s.attrs pg) pvModified = false) :
    Clean m s pg ↔ Spared m s pg := by
  constructor
  · intro clean
    refine ⟨fun set => ?_,clean.tlb,fun vpn valid frame dirty => ?_⟩
    · rw [plain] at set
      cases set
    rw [clean.ptes .kernel vpn ⟨frame,.inl valid⟩] at dirty
    cases dirty
  intro spared
  refine ⟨plain,fun pmap vpn maps => ?_,spared.tlb⟩
  have unset : has (s.attrs pg) pvModified = true → False := fun set => by
    rw [plain] at set
    cases set
  by_contra dirty
  have dirty : has (pteAt m s pmap vpn) avr32PgDirty = true := by simpa using dirty
  obtain ⟨frame,mapped⟩ := maps
  cases pmap with
  | user n =>
    have maps : Maps m (pteAt m s (.user n) vpn) pg := by
      rcases mapped with valid | member
      · exact (maps_frame managed _).mpr ⟨valid,frame⟩
      · exact (ledger.listed.user pg n vpn).mp member
    exact unset (ledger.dirty.recorded n vpn pg maps dirty)
  | kernel =>
    by_cases valid : has (pteAt m s .kernel vpn) avr32PteValid = true
    · exact unset (spared.kenter vpn valid frame dirty).1
    have invalid : has (pteAt m s .kernel vpn) avr32PteValid = false := by simpa using valid
    exact unset (ledger.entered vpn pg invalid dirty frame).1

theorem clean_swept (ledger : Ledger m (view m s)) (managed : m.managed pg = true) (set : has (s.attrs pg) pvModified = true)
    (after : view m s' = (view m s).cleanedPage pg) :
    Clean m s' pg ↔ (∀ key ∈ pvList s pg, ∀ e ∈ s.mmu.tlb, TlbFor s key e → has e.pte avr32PgDirty = false) ∧
      ∀ vpn, has (pteAt m s .kernel vpn) avr32PteValid = true → (avr32TlbpfnToPaddr (pteAt m s .kernel vpn)).toNat = pg * nbpg →
        has (pteAt m s .kernel vpn) avr32PgDirty = true → has (s.attrs pg) pvModified = true ∧ (PmapRef.kernel,vpn * nbpg) ∈ pvList s pg := by
  have pte : pteAt m s' = fun q vpn => if (q,vpn * nbpg) ∈ pvList s pg then cleaned (pteAt m s q vpn) else pteAt m s q vpn := congrArg pte after
  have lists : pvList s' = pvList s := congrArg pv after
  have mmu : s'.mmu = s.mmu := congrArg mmu after
  have attrs : s'.attrs = update s.attrs pg (s.attrs pg &&& ~~~pvModified) := congrArg attrs after
  have infos : (view m s').info = (view m s).info := by rw [after]; rfl
  have units : (view m s').mmu = (view m s).mmu := by rw [after]; rfl
  have same := tlbFor_same infos units
  have word (q : PmapRef) (vpn : Nat) : avr32TlbpfnToPaddr (pteAt m s' q vpn) = avr32TlbpfnToPaddr (pteAt m s q vpn) ∧
      has (pteAt m s' q vpn) avr32PteValid = has (pteAt m s q vpn) avr32PteValid := by
    rw [pte]
    dsimp only
    split
    · exact ⟨cleaned_frame _,cleaned_valid _⟩
    · exact ⟨rfl,rfl⟩
  have listed (q : PmapRef) (vpn : Nat) (member : (q,vpn * nbpg) ∈ pvList s pg) : has (pteAt m s' q vpn) avr32PgDirty = false := by
    rw [pte]
    dsimp only
    rw [if_pos member]
    exact cleaned_dirty _
  constructor
  · intro clean
    refine ⟨fun key member e inside for_ => ?_,fun vpn valid frame dirty => ⟨set,?_⟩⟩
    · exact clean.tlb key (by rwa [lists]) e (by rwa [mmu]) ((same key e).mpr for_)
    by_contra missing
    have kept := clean.ptes .kernel vpn ⟨(word .kernel vpn).1 ▸ frame,.inl ((word .kernel vpn).2.trans valid)⟩
    rw [pte] at kept
    dsimp only at kept
    rw [if_neg missing,dirty] at kept
    cases kept
  rintro ⟨tlb,kenter⟩
  refine ⟨?_,fun pmap vpn maps => ?_,fun key member e inside for_ => ?_⟩
  · rw [attrs,update_self]
    exact modified_cleared _
  · by_cases member : (pmap,vpn * nbpg) ∈ pvList s pg
    · exact listed pmap vpn member
    obtain ⟨frame,mapped⟩ := maps
    rw [(word pmap vpn).1] at frame
    have valid : has (pteAt m s pmap vpn) avr32PteValid = true := by
      rcases mapped with valid | listed
      · rwa [(word pmap vpn).2] at valid
      rw [lists] at listed
      exact absurd listed member
    have kept : pteAt m s' pmap vpn = pteAt m s pmap vpn := by
      rw [pte]
      exact if_neg member
    cases pmap with
    | user n =>
      have maps : Maps m (pteAt m s (.user n) vpn) pg := (maps_frame managed _).mpr ⟨valid,frame⟩
      exact absurd ((ledger.listed.user pg n vpn).mpr maps) member
    | kernel =>
      rw [kept]
      by_contra dirty
      exact member (kenter vpn valid frame (by simpa using dirty)).2
  rw [lists] at member
  rw [mmu] at inside
  exact tlb key member e inside ((same key e).mp for_)

theorem clear_exact (wf : Wf s) (ledger : Ledger m (view m s)) (managed : m.managed pg = true) :
    (∃ b s', pmapClearModify m pg s = .ok (b,s') ∧ Clean m s' pg) ↔ Spared m s pg := by
  have rep := wf.rep m
  have sim := pmapClearModify_sim rep ledger.tags.2.2.2 pg
  have aligned : ∀ key ∈ (view m s).pv pg, key.2 % nbpg = 0 := fun key member => view_aligned wf pg key member
  cases set : has (s.attrs pg) pvModified with
  | false =>
    rw [clearModify_plain set] at sim
    obtain ⟨⟨b,s'⟩,ran,_,_,same,_⟩ := sim.backward rfl
    have moved : Clean m s' pg ↔ Clean m s pg := by
      have pte : pteAt m s' = pteAt m s := congrArg pte same
      have lists : pvList s' = pvList s := congrArg pv same
      have mmu : s'.mmu = s.mmu := congrArg mmu same
      have attrs : s'.attrs = s.attrs := congrArg attrs same
      have infos : (view m s').info = (view m s).info := congrArg info same
      have units : (view m s').mmu = (view m s).mmu := congrArg Space.mmu same
      have tlb := tlbFor_same infos units
      constructor
      · rintro ⟨attr,ptes,entries⟩
        exact ⟨attrs ▸ attr,by simpa only [MapsAt,pte,lists] using ptes,by simpa only [lists,mmu,tlb] using entries⟩
      rintro ⟨attr,ptes,entries⟩
      exact ⟨attrs.symm ▸ attr,by simpa only [MapsAt,pte,lists] using ptes,by simpa only [lists,mmu,tlb] using entries⟩
    rw [← clean_plain ledger managed set,← moved]
    constructor
    · rintro ⟨b',s₁,ran₁,clean⟩
      rw [ran] at ran₁
      cases ran₁
      exact clean
    · exact fun clean => ⟨b,s',ran,clean⟩
  | true =>
    constructor
    · rintro ⟨b,s',ran,clean⟩
      obtain ⟨⟨b',v'⟩,got,_,_,same,_⟩ := sim.forward ran
      have clearable := clearModify_only set aligned got
      rw [clearModify_swept set clearable aligned] at got
      have after : view m s' = (view m s).cleanedPage pg := same.trans (congrArg Prod.snd (Option.some.inj got)).symm
      obtain ⟨tlb,kenter⟩ := (clean_swept ledger managed set after).mp clean
      refine ⟨fun _ key member dirty p held => ?_,tlb,kenter⟩
      obtain ⟨i,info,_,_,stale⟩ := clearable key member
      have mine : (view m s).info key.1 = some p.toInfo := by simp [view,held]
      rw [mine] at info
      cases info
      exact stale dirty
    intro spared
    have clearable : ∀ key ∈ (view m s).pv pg, Clearable m (view m s) key := fun key member =>
      listed_clearable wf ledger member (spared.stale set key member)
    rw [clearModify_swept set clearable aligned] at sim
    obtain ⟨⟨b,s'⟩,ran,_,_,same,_⟩ := sim.backward rfl
    exact ⟨b,s',ran,(clean_swept ledger managed set same).mpr ⟨spared.tlb,spared.kenter⟩⟩

theorem clear_modify_spared (run : Run m (Allowed m) rolls s) (managed : m.managed pg = true) :
    (∃ b s', pmapClearModify m pg s = .ok (b,s') ∧ Clean m s' pg) ↔ Spared m s pg :=
  clear_exact (reached_wf run) (run_ledger run) managed

theorem clear_modify_spared_one : ∃ b s', pmapClearModify smallMachine 1 onePage = .ok (b,s') ∧ Clean smallMachine s' 1 := by
  have created : Run smallMachine (Allowed smallMachine) _ (afterOp smallMachine 1 initial .create) := run_next 1 .create .start trivial rfl
  have run : Run smallMachine (Allowed smallMachine) _ onePage := run_next 1 (.enter (.user 0) 0x1000 0x1000 3 0 true) created ⟨rfl,rfl⟩ rfl
  have clear : has (onePage.attrs 1) pvModified = false := by decide
  have entries : ∀ e ∈ onePage.mmu.tlb, has e.pte avr32PgDirty = false := by decide
  refine (clear_modify_spared run rfl).mpr ⟨fun set => ?_,fun _ _ e inside _ => entries e inside,fun vpn valid => ?_⟩
  · cases set
  · have empty : pteAt smallMachine onePage .kernel vpn = 0#32 := if_neg fun both => Nat.lt_irrefl _ (Nat.lt_of_le_of_lt both.1 both.2)
    rw [empty,has_zero] at valid
    cases valid

def dirtyPage : State :=
  let created := afterOp smallMachine 1 initial .create
  let active := afterOp smallMachine 1 created (.activate (.user 0))
  afterOp smallMachine 1 active (.enter (.user 0) 0x1000 0x1000 3 2 true)

theorem clear_modify_panics : (∃ rolls, Run smallMachine (Allowed smallMachine) rolls dirtyPage) ∧ smallMachine.managed 1 = true ∧
    pmapClearModify smallMachine 1 dirtyPage = .error (.panic "avr32_tbis: invalid entry") := by
  have created : Run smallMachine (Allowed smallMachine) _ (afterOp smallMachine 1 initial .create) := run_next 1 .create .start trivial rfl
  have active := run_next 1 (.activate (.user 0)) created trivial rfl
  have run : Run smallMachine (Allowed smallMachine) _ dirtyPage := run_next 1 (.enter (.user 0) 0x1000 0x1000 3 2 true) active ⟨rfl,rfl⟩ rfl
  exact ⟨⟨_,run⟩,rfl,rfl⟩
end NetbsdAvr32.Avr32
