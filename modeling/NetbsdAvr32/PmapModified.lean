import NetbsdAvr32.PmapRun

namespace NetbsdAvr32.Avr32
open Function Outcome Relation
variable {m : Machine} {s s' : State} {v v' : Space} {n va vpn pa pg rolls : Nat} {i : Info} {w : Word} {again : Prop}

structure DirtySound (m : Machine) (v : Space) : Prop where
  writable : ∀ n vpn, has (v.pte (.user n) vpn) avr32PgDirty = true → has (v.pte (.user n) vpn) avr32PgAccessRw = true
  recorded : ∀ n vpn pg, Maps m (v.pte (.user n) vpn) pg → has (v.pte (.user n) vpn) avr32PgDirty = true →
    has (v.attrs pg) pvModified = true

theorem has_grow (bits : Word) (held : has w mask = true) : has (w ||| bits) mask = true := by
  unfold has at *
  simp only [bne_iff_ne,ne_eq] at *
  intro zero
  apply held
  apply BitVec.eq_of_getLsbD_eq
  intro k small
  have bit := congrArg (BitVec.getLsbD · k) zero
  grind

theorem modified_set (w : Word) : has (w ||| (pvModified ||| pvReferenced)) pvModified = true := by
  have split : w ||| (pvModified ||| pvReferenced) = (w ||| pvReferenced) ||| pvModified := by
    rw [BitVec.or_comm pvModified,BitVec.or_assoc]
  rw [split]
  exact has_or _ _ (by decide)

theorem dirty_update (sound : DirtySound m v)
    (pte : v'.pte = update v.pte (.user n) (update (v.pte (.user n)) vpn w))
    (grow : ∀ pg, has (v.attrs pg) pvModified = true → has (v'.attrs pg) pvModified = true)
    (fresh : has w avr32PgDirty = true →
      has w avr32PgAccessRw = true ∧ ∀ pg, Maps m w pg → has (v'.attrs pg) pvModified = true) : DirtySound m v' := by
  have word : ∀ n' vpn', v'.pte (.user n') vpn' = w ∨ v'.pte (.user n') vpn' = v.pte (.user n') vpn' := by
    intro n' vpn'
    rw [pte]
    by_cases mine : n' = n
    · subst n'
      rw [update_self]
      by_cases here : vpn' = vpn
      · rw [here,update_self]
        exact .inl rfl
      rw [update_of_ne here]
      exact .inr rfl
    rw [update_of_ne (by simpa using mine)]
    exact .inr rfl
  refine ⟨?_,?_⟩
  · intro n' vpn' dirty
    rcases word n' vpn' with new | old
    · rw [new] at dirty ⊢
      exact (fresh dirty).1
    rw [old] at dirty ⊢
    exact sound.writable n' vpn' dirty
  intro n' vpn' pg maps dirty
  rcases word n' vpn' with new | old
  · rw [new] at dirty maps
    exact (fresh dirty).2 pg maps
  rw [old] at dirty maps
  exact grow pg (sound.recorded n' vpn' pg maps dirty)

theorem clean_update (sound : DirtySound m v)
    (pte : v'.pte = update v.pte (.user n) (update (v.pte (.user n)) vpn w)) (attrs : v'.attrs = v.attrs)
    (clean : has w avr32PgDirty = false) : DirtySound m v' := by
  refine dirty_update sound pte (fun pg held => by rw [attrs]; exact held) ?_
  intro dirty
  rw [clean] at dirty
  cases dirty

theorem micro_dirty (sound : DirtySound m v) (step : Micro m again v v') : DirtySound m v' := by
  cases step with
  | unmap n va i info aligned below valid =>
    exact clean_update sound (unmapped_pte ..) (unmapped_attrs ..) (has_zero _)
  | reprotect n va i prot code info aligned below valid chosen =>
    exact clean_update sound (store_pte ..) rfl (reprotected_dirty chosen)
  | mark pg bits =>
    refine ⟨sound.writable,?_⟩
    intro n vpn pg' maps dirty
    have old := sound.recorded n vpn pg' maps dirty
    by_cases mine : pg' = pg
    · subst pg'
      simpa using has_grow bits old
    · simpa [mine] using old
  | map n va pa pg i prot code wired info alignedVa below alignedPa page chosen old colours once =>
    have low := (page_low page).1
    refine dirty_update sound (mapped_pte ..) (fun _ held => held) ?_
    intro dirty
    rw [userWord_dirty chosen alignedPa low,decide_eq_true_eq] at dirty
    refine ⟨by rw [userWord_write chosen alignedPa low]; exact dirty.1,?_⟩
    intro pg' maps
    have number : (BitVec.ofNat 32 pa).toNat = pa := by
      exact Nat.mod_eq_of_lt (Nat.lt_trans low (by decide))
    have found := maps.2
    rw [userWord_frame chosen alignedPa low,number,page] at found
    cases found
    exact dirty.2
  | free n idle empty =>
    have word : ∀ n' vpn', has (update v.pte (.user n) (fun _ => 0#32) (.user n') vpn') avr32PgDirty = true →
        update v.pte (.user n) (fun _ => 0#32) (.user n') vpn' = v.pte (.user n') vpn' := by
      intro n' vpn' dirty
      by_cases mine : n' = n
      · subst n'
        rw [update_self,has_zero] at dirty
        cases dirty
      · rw [update_of_ne (by simpa using mine)]
    refine ⟨?_,?_⟩
    · intro n' vpn' dirty
      have same := word n' vpn' dirty
      dsimp only at dirty ⊢
      rw [same] at dirty ⊢
      exact sound.writable n' vpn' dirty
    intro n' vpn' pg maps dirty
    have same := word n' vpn' dirty
    dsimp only at dirty maps ⊢
    rw [same] at dirty maps
    exact sound.recorded n' vpn' pg maps dirty
  | modify n va pg i cur info below valid writable frame =>
    refine dirty_update (n := n) (w := v.pte (.user n) (va / nbpg) ||| avr32PgDirty) sound rfl ?_ ?_
    · intro pg' held
      by_cases mine : pg' = pg
      · subst pg'
        simp [modified_set]
      · simpa [mine] using held
    intro _
    refine ⟨?_,?_⟩
    · rw [has_write,dirtied_bit (by decide) (by decide),← has_write]
      simpa [avr32ReadOnlyPte] using writable
    intro pg' maps
    have found := maps.2
    unfold physToVmPage at found
    split at found
    · have number := Option.some.inj found
      rw [frame] at number
      subst pg'
      simp [modified_set]
    · cases found
  | _ => exact ⟨sound.writable,sound.recorded⟩

theorem initial_dirty : DirtySound m (view m initial) := by
  refine ⟨?_,?_⟩
  · intro n vpn dirty
    have zero : (view m initial).pte (.user n) vpn = 0#32 := by simp [view,pteAt,segPage,segtabOf,initial]
    rw [zero,has_zero] at dirty
    cases dirty
  intro n vpn pg maps dirty
  exact absurd maps (not_maps (has_zero _))

theorem modified_sound (run : Run m (UserAllowed m) rolls s) :
    (∀ n va pg, m.managed pg = true → MapsPage m s n va pg →
      has (pteAt m s (.user n) (va / nbpg)) avr32PgDirty = true → has (s.attrs pg) pvModified = true) ∧
    ∀ n vpn, has (pteAt m s (.user n) vpn) avr32PgDirty = true → avr32ReadOnlyPte (pteAt m s (.user n) vpn) = false := by
  have sound : DirtySound m (view m s) := run_keeps True initial_dirty (fun _ _ => micro_dirty)
    (fun _ _ _ sound _ => ⟨sound.writable,sound.recorded⟩) (fun _ _ ok => ok) (fun _ _ _ => .inl trivial) run
  constructor
  · intro n va pg managed maps dirty
    exact sound.recorded n (va / nbpg) pg ((mapsPage_exact managed).mp maps) dirty
  · intro n vpn dirty
    have write : has (pteAt m s (.user n) vpn) avr32PgAccessRw = true := sound.writable n vpn dirty
    simp [avr32ReadOnlyPte,write]

def writtenPage : State :=
  let created := afterOp smallMachine 1 initial .create
  let active := afterOp smallMachine 1 created (.activate (.user 0))
  let entered := afterOp smallMachine 1 active (.enter (.user 0) 0x1000 0x1000 3 1 true)
  afterOp smallMachine 1 entered (.tlbMod 0x1000)

theorem modified_sound_written : has (writtenPage.attrs 1) pvModified = true ∧
    avr32ReadOnlyPte (pteAt smallMachine writtenPage (.user 0) 1) = false := by
  have created : Run smallMachine (UserAllowed smallMachine) _ (afterOp smallMachine 1 initial .create) :=
    run_next 1 .create .start ⟨trivial,trivial⟩ rfl
  have active := run_next 1 (.activate (.user 0)) created ⟨trivial,trivial⟩ rfl
  have entered := run_next 1 (.enter (.user 0) 0x1000 0x1000 3 1 true) active ⟨by simp [UserOp],rfl,rfl⟩ rfl
  have written : Run smallMachine (UserAllowed smallMachine) _ writtenPage :=
    run_next 1 (.tlbMod 0x1000) entered ⟨trivial,trivial⟩ rfl
  exact ⟨(modified_sound written).1 0 0x1000 1 rfl (by decide) (by decide),(modified_sound written).2 0 1 (by decide)⟩
end NetbsdAvr32.Avr32
