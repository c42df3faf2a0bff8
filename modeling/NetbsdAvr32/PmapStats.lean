import Mathlib.Algebra.BigOperators.Group.Finset.Piecewise
import NetbsdAvr32.PmapRun

namespace NetbsdAvr32.Avr32
open Function Outcome Relation Finset PmapRef Info
variable {m : Machine} {s s' : State} {v v' : Space} {n va vpn pa pg rolls : Nat} {i : Info} {w : Word} {again : Prop}
  {p : Pmap}

def userPages : Nat := vmMaxuserAddress / nbpg
def pteCount (test : Word → Bool) (f : Nat → Word) : Nat := ((Finset.range userPages).filter (fun vpn => test (f vpn))).card

def mappedPte (w : Word) : Bool := has w avr32PteValid
def wiredPte (w : Word) : Bool := has w avr32PteValid && has w avr32PteWired

theorem pteCount_update (test : Word → Bool) (f : Nat → Word) (w : Word) (inside : vpn < userPages) :
    (pteCount test (update f vpn w) : Int) + (if test (f vpn) then 1 else 0) =
      pteCount test f + (if test w then 1 else 0) := by
  have member : vpn ∈ range userPages := mem_range.mpr inside
  have sums : ∀ g : Nat → Word, pteCount test g =
      (if test (g vpn) then 1 else 0) + ∑ k ∈ (range userPages).erase vpn, if test (g k) then 1 else 0 := by
    intro g
    rw [pteCount,card_filter,← add_sum_erase _ _ member]
  have rest : ∑ k ∈ (range userPages).erase vpn, (if test (update f vpn w k) then 1 else 0) =
      ∑ k ∈ (range userPages).erase vpn, if test (f k) then 1 else 0 := by
    refine sum_congr rfl (fun k other => ?_)
    rw [update_of_ne (ne_of_mem_erase other)]
  rw [sums (update f vpn w),sums f,rest,update_self]
  generalize ∑ k ∈ (range userPages).erase vpn, (if test (f k) then (1 : Int) else 0) = others
  cases test (f vpn) <;> cases test w <;> simp only [Bool.false_eq_true,↓reduceIte] <;> omega

theorem pteCount_zero {test : Word → Bool} {f : Nat → Word} (zero : ∀ vpn, test (f vpn) = false) :
    pteCount test f = 0 := by
  rw [pteCount,card_eq_zero,filter_eq_empty_iff]
  intro vpn _
  simp [zero vpn]

theorem pteCount_same {test : Word → Bool} {f g : Nat → Word} (same : ∀ vpn, test (f vpn) = test (g vpn)) :
    pteCount test f = pteCount test g := by
  unfold pteCount
  simp only [same]

structure Counted (count : Info → Int) (test : Word → Bool) (v : Space) : Prop where
  exact : ∀ n i, v.info (.user n) = some i → count i = pteCount test (v.pte (.user n))
  fresh : ∀ n, v.nextPmap ≤ n → v.info (.user n) = none ∧ ∀ vpn, v.pte (.user n) vpn = 0#32

theorem counted_one {count : Info → Int} {test : Word → Bool} (counted : Counted count test v)
    (info : v.info (.user n) = some i) (table : ∀ q, q ≠ .user n → v'.info q = v.info q ∧ v'.pte q = v.pte q)
    (next : v'.nextPmap = v.nextPmap) (own : ∀ j, v'.info (.user n) = some j →
      count j - count i = pteCount test (v'.pte (.user n)) - pteCount test (v.pte (.user n))) : Counted count test v' := by
  have used : n < v.nextPmap := by
    by_contra late
    rw [(counted.fresh n (by omega)).1] at info
    cases info
  refine ⟨?_,?_⟩
  · intro n' j held
    by_cases mine : n' = n
    · subst n'
      have change := own j held
      have before := counted.exact _ i info
      omega
    have other : user n' ≠ .user n := by simpa using mine
    rw [(table _ other).1] at held
    rw [(table _ other).2]
    exact counted.exact n' j held
  intro n' late
  rw [next] at late
  have other : user n' ≠ .user n := by
    intro equal
    cases equal
    omega
  rw [(table _ other).1,(table _ other).2]
  exact counted.fresh n' late

theorem store_info (v : Space) (n va : Nat) (i : Info) (w : Word) : (v.store n va i w).info = v.info := rfl

theorem mapped_info (v : Space) (n va pg : Nat) (i : Info) (w : Word) (wired : Bool) :
    (v.mapped n va pg i w wired).info =
      update v.info (.user n) (some (i.entered (v.pte (.user n) (va / nbpg)) wired)) := rfl

theorem page_inside (below : va < vmMaxuserAddress) : va / nbpg < userPages := by
  simp only [userPages,vmMaxuserAddress,nbpg] at *
  omega

theorem counted_rewrite {count : Info → Int} {test : Word → Bool} (n vpn : Nat) (counted : Counted count test v)
    (info : v.info (.user n) = some i) (pte : v'.pte = update v.pte (.user n) (update (v.pte (.user n)) vpn w))
    (infos : v'.info = v.info) (next : v'.nextPmap = v.nextPmap) (same : test w = test (v.pte (.user n) vpn)) :
    Counted count test v' := by
  refine counted_one counted info (fun q other => ⟨by rw [infos],by rw [pte,update_of_ne other]⟩) next ?_
  intro j held
  rw [infos,info] at held
  cases held
  have table : pteCount test (v'.pte (.user n)) = pteCount test (v.pte (.user n)) := by
    refine pteCount_same (fun k => ?_)
    rw [pte,update_self]
    by_cases here : k = vpn
    · rw [here,update_self,same]
    · rw [update_of_ne here]
  omega

theorem counted_info {count : Info → Int} {test : Word → Bool} (counted : Counted count test v) (pmap : PmapRef)
    (info : v.info pmap = some i) (same : count j = count i) (infos : v'.info = update v.info pmap (some j))
    (pte : v'.pte = v.pte) (next : v'.nextPmap = v.nextPmap) : Counted count test v' := by
  refine ⟨?_,?_⟩
  · intro n k held
    rw [pte]
    rw [infos] at held
    by_cases mine : user n = pmap
    · subst pmap
      rw [update_self] at held
      cases held
      rw [same]
      exact counted.exact n i info
    rw [update_of_ne mine] at held
    exact counted.exact n k held
  intro n late
  rw [next] at late
  have old := counted.fresh n late
  have other : user n ≠ pmap := by
    intro equal
    rw [← equal,old.1] at info
    cases info
  rw [pte,infos,update_of_ne other]
  exact old

section
variable {count : Info → Int} {test : Word → Bool}

theorem counted_create (counted : Counted count test v) (start : ∀ c a g, count ⟨c,0,0,a,g⟩ = 0)
    (dark : test 0#32 = false) : Counted count test v.create := by
  refine ⟨?_,?_⟩
  · intro n i held
    by_cases new : n = v.nextPmap
    · subst n
      have zero : ∀ vpn, test (v.pte (.user v.nextPmap) vpn) = false := by
        intro vpn
        rw [(counted.fresh _ (Nat.le_refl _)).2]
        exact dark
      simp only [Space.create,update_self,Option.some.injEq] at held
      subst i
      have none : pteCount test (v.create.pte (.user v.nextPmap)) = 0 := pteCount_zero zero
      rw [none,start]
      rfl
    have other : user n ≠ .user v.nextPmap := by simpa using new
    simp only [Space.create,update_of_ne other] at held
    exact counted.exact n i held
  intro n late
  have later : v.nextPmap + 1 ≤ n := late
  have other : user n ≠ .user v.nextPmap := by
    intro equal
    cases equal
    omega
  simp only [Space.create,update_of_ne other]
  exact counted.fresh n (by omega)

theorem counted_free (counted : Counted count test v) : Counted count test {v with
    info := update v.info (.user n) none
    seg := update v.seg (.user n) (fun _ => false)
    pte := update v.pte (.user n) (fun _ => 0#32)} := by
  refine ⟨?_,?_⟩
  · intro n' i held
    by_cases mine : n' = n
    · subst n'
      simp at held
    have other : user n' ≠ .user n := by simpa using mine
    simp only [update_of_ne other] at held ⊢
    exact counted.exact n' i held
  intro n' late
  by_cases mine : n' = n
  · subst n'
    simp
  have other : user n' ≠ .user n := by simpa using mine
  simp only [update_of_ne other]
  exact counted.fresh n' late

theorem micro_counted (counted : Counted count test v) (dark : test 0#32 = false)
    (start : ∀ c a g, count ⟨c,0,0,a,g⟩ = 0) (plain : ∀ i c, count {i with pmCount := c} = count i)
    (unmap : ∀ i w, has w avr32PteValid = true → count (i.unmapped w) = count i - if test w then 1 else 0)
    (bits : ∀ w w', w'.getLsbD 31 = w.getLsbD 31 → w'.getLsbD 30 = w.getLsbD 30 → test w' = test w)
    (enter : ∀ i w w' wired, has w' avr32PteValid = true → has w' avr32PteWired = wired →
      (again ∨ (has w avr32PteValid = true → has w avr32PteWired = false)) →
      count (i.entered w wired) + (if test w then 1 else 0) = count i + if test w' then 1 else 0)
    (step : Micro m again v v') : Counted count test v' := by
  cases step with
  | unmap n va i info aligned below valid =>
    have pte := unmapped_pte m (.user n) va (flushAsid (.user n) i) (needFlush (.user n) i v.mmu) i v
    have infos := unmapped_info_eq m (.user n) va (flushAsid (.user n) i) (needFlush (.user n) i v.mmu) i v
    refine counted_one counted info (fun q other => ⟨?_,?_⟩) (unmapped_nextPmap ..) ?_
    · rw [Space.evict,infos,update_of_ne other]
    · rw [Space.evict,pte,update_of_ne other]
    intro j held
    rw [Space.evict,infos,update_self] at held
    cases held
    have change := pteCount_update test (v.pte (.user n)) 0#32 (page_inside below)
    have less := unmap i _ valid
    rw [Space.evict,pte,update_self,less]
    simp only [dark,Bool.false_eq_true,↓reduceIte] at change
    omega
  | reprotect n va i prot code info aligned below valid chosen =>
    refine counted_rewrite n (va / nbpg) counted info (store_pte ..) (store_info ..) rfl (bits _ _ ?_ ?_)
    · exact reprotected_bit chosen (by decide) (by decide) (by decide)
    · exact reprotected_bit chosen (by decide) (by decide) (by decide)
  | map n va pa pg i prot code wired info alignedVa below alignedPa page chosen old colours once =>
    have low := (page_low page).1
    refine counted_one counted info (fun q other => ⟨?_,?_⟩) rfl ?_
    · rw [mapped_info,update_of_ne other]
    · rw [mapped_pte,update_of_ne other]
    intro j held
    rw [mapped_info,update_self] at held
    cases held
    have change := pteCount_update test (v.pte (.user n)) (userWord code prot (v.attrs pg) pa wired) (page_inside below)
    have more := enter i (v.pte (.user n) (va / nbpg)) (userWord code prot (v.attrs pg) pa wired) wired
      (userWord_valid alignedPa low) (userWord_wired chosen alignedPa low) once
    rw [mapped_pte,update_self]
    omega
  | create => exact counted_create counted start dark
  | count pmap i c info => exact counted_info counted pmap info (plain i c) rfl rfl rfl
  | free n idle empty => exact counted_free counted
  | modify n va pg i cur info below valid writable frame =>
    refine counted_rewrite n (va / nbpg) counted info rfl rfl rfl (bits _ _ ?_ ?_)
    · exact dirtied_bit (by decide) (by decide)
    · exact dirtied_bit (by decide) (by decide)
  | _ => exact ⟨counted.exact,counted.fresh⟩
end

theorem micro_resident (counted : Counted residentCount mappedPte v) (step : Micro m again v v') :
    Counted residentCount mappedPte v' := by
  refine micro_counted counted (by decide) (fun _ _ _ => rfl) (fun _ _ => rfl) ?_ ?_ ?_ step
  · intro i w valid
    simp [unmapped,mappedPte,valid]
  · intro w w' valid _
    rw [mappedPte,mappedPte,has_valid,has_valid,valid]
  intro i w w' wired valid _ _
  cases was : has w avr32PteValid <;> simp [entered,mappedPte,valid,was]

theorem micro_wired (counted : Counted wiredCount wiredPte v) (step : Micro m False v v') :
    Counted wiredCount wiredPte v' := by
  refine micro_counted counted (by decide) (fun _ _ _ => rfl) (fun _ _ => rfl) ?_ ?_ ?_ step
  · intro i w valid
    simp [unmapped,wiredPte,wiredPart,valid]
  · intro w w' valid wired
    simp only [wiredPte,has_valid,has_wired,valid,wired]
  intro i w w' wired valid set once
  have none : wiredPte w = false := by
    rcases once with never | fresh
    · exact never.elim
    cases was : has w avr32PteValid with
    | false => simp [wiredPte,was]
    | true => simp [wiredPte,fresh was]
  have new : wiredPte w' = wired := by simp [wiredPte,valid,set]
  rw [none,new]
  simp [entered,wire]

theorem initial_counted {count : Info → Int} {test : Word → Bool} : Counted count test (view m initial) := by
  refine ⟨?_,?_⟩
  · intro n i held
    simp [view,initial] at held
  intro n _
  refine ⟨by simp [view,initial],fun vpn => ?_⟩
  simp [view,pteAt,segPage,segtabOf,initial]

theorem activated_counted {count : Info → Int} {test : Word → Bool} (same : ∀ i a g, count {i with pmAsid := a, pmAsidgen := g} = count i)
    (counted : Counted count test v) (info : v.info pmap = some i) : Counted count test (v.activated pmap i) := by
  have kept : count (asidAlloc i v.mmu).1 = count i := by
    unfold asidAlloc
    split
    · exact same _ _ _
    · rfl
  exact counted_info counted pmap info kept rfl rfl rfl

-- Runs in which pmap_enter never meets its own page wired at the address.
def Unrewired (m : Machine) (s : State) (op : Op) : Prop := UserAllowed m s op ∧ ¬ Rewires m s op

theorem run_resident {allowed : State → Op → Prop} (run : Run m allowed rolls s)
    (promised : ∀ s op, allowed s op → UserAllowed m s op) : Counted residentCount mappedPte (view m s) :=
  run_keeps True initial_counted (fun _ _ => micro_resident)
    (fun _ _ _ counted info => activated_counted (fun _ _ _ => rfl) counted info) promised (fun _ _ _ => .inl trivial) run

theorem statistics_exact (run : Run m (Unrewired m) rolls s) (live : s.pmaps (.user n) = some p) :
    p.residentCount = pteCount (fun w => has w avr32PteValid) (pteAt m s (.user n)) ∧
      p.wiredCount = pteCount (fun w => has w avr32PteValid && has w avr32PteWired) (pteAt m s (.user n)) := by
  have info : (view m s).info (.user n) = some p.toInfo := by simp [view,live]
  have wired : Counted wiredCount wiredPte (view m s) := run_keeps False initial_counted (fun _ _ => micro_wired)
    (fun _ _ _ counted info => activated_counted (fun _ _ _ => rfl) counted info) (fun _ _ ok => ok.1)
    (fun _ _ ok => .inr ok.2) run
  exact ⟨(run_resident run (fun _ _ ok => ok.1)).exact n p.toInfo info,wired.exact n p.toInfo info⟩

def wiredOnce : State :=
  afterOp smallMachine 1 (afterOp smallMachine 1 initial .create) (.enter (.user 0) 0x1000 0x1000 3 0x10 true)

def wiredTwice : State := afterOp smallMachine 1 wiredOnce (.enter (.user 0) 0x1000 0x1000 3 0x10 true)

theorem statistics_exact_once : ∃ p, wiredOnce.pmaps (.user 0) = some p ∧ p.wiredCount = 1 ∧
    pteCount (fun w => has w avr32PteValid && has w avr32PteWired) (pteAt smallMachine wiredOnce (.user 0)) = 1 := by
  have created : Run smallMachine (Unrewired smallMachine) _ (afterOp smallMachine 1 initial .create) :=
    run_next 1 .create .start ⟨⟨trivial,trivial⟩,id⟩ rfl
  have entered : Run smallMachine (Unrewired smallMachine) _ wiredOnce :=
    run_next 1 (.enter (.user 0) 0x1000 0x1000 3 0x10 true) created ⟨⟨by simp [UserOp],rfl,rfl⟩,fun old => absurd old.1 (by decide)⟩ rfl
  have exact := (statistics_exact entered (n := 0) rfl).2
  refine ⟨_,rfl,rfl,?_⟩
  have one : (1 : Int) = _ := exact
  omega

theorem wired_count_drifts : (∃ rolls, Run smallMachine (UserAllowed smallMachine) rolls wiredTwice) ∧
    ∃ p, wiredTwice.pmaps (.user 0) = some p ∧ p.wiredCount = 2 ∧
      p.wiredCount ≠ pteCount (fun w => has w avr32PteValid && has w avr32PteWired) (pteAt smallMachine wiredTwice (.user 0)) := by
  have created : Run smallMachine (UserAllowed smallMachine) _ (afterOp smallMachine 1 initial .create) :=
    run_next 1 .create .start ⟨trivial,trivial⟩ rfl
  have once : Run smallMachine (UserAllowed smallMachine) _ wiredOnce :=
    run_next 1 (.enter (.user 0) 0x1000 0x1000 3 0x10 true) created ⟨by simp [UserOp],rfl,rfl⟩ rfl
  have twice : Run smallMachine (UserAllowed smallMachine) _ wiredTwice :=
    run_next 1 (.enter (.user 0) 0x1000 0x1000 3 0x10 true) once ⟨by simp [UserOp],rfl,rfl⟩ rfl
  refine ⟨⟨_,twice⟩,_,rfl,rfl,?_⟩
  have valid := (run_resident twice (fun _ _ ok => ok)).exact 0 _ rfl
  have fewer : pteCount (fun w => has w avr32PteValid && has w avr32PteWired) (pteAt smallMachine wiredTwice (.user 0)) ≤
      pteCount mappedPte (pteAt smallMachine wiredTwice (.user 0)) := by
    refine card_le_card (fun vpn member => ?_)
    obtain ⟨inside,both⟩ := mem_filter.mp member
    exact mem_filter.mpr ⟨inside,(Bool.and_eq_true_iff.mp both).1⟩
  have one : (1 : Int) = pteCount mappedPte (pteAt smallMachine wiredTwice (.user 0)) := valid
  have two : (2 : Int) ≠ pteCount (fun w => has w avr32PteValid && has w avr32PteWired)
      (pteAt smallMachine wiredTwice (.user 0)) := by omega
  exact two
end NetbsdAvr32.Avr32
