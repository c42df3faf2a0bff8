import NetbsdAvr32.PropDictExact

-- The iterator of prop_dictionary.c next to sets and removals.
namespace NetbsdAvr32.PropDict
open Block Function Outcome

structure Iterator where
  piVersion : BitVec 32
  pdiIndex : Nat

def propDictionaryIteratorReset (pd : Dict α) : Iterator := ⟨pd.pdVersion,0⟩

def propDictionaryIteratorNextObject (pd : Dict α) (pdi : Iterator) : Except Halt (Option Key × Iterator) :=
  if pd.pdVersion ≠ pdi.piVersion then .ok (none,pdi)
  else if pd.pdCount < pdi.pdiIndex then .error (.panic "pdi->pdi_index <= pd->pd_count")
  else if pdi.pdiIndex = pd.pdCount then .ok (none,pdi)
  else do
    let pde ← load pd.pdArray pdi.pdiIndex
    .ok (pde.map Entry.pdeKey,{pdi with pdiIndex := pdi.pdiIndex + 1})

def keys (pd : Dict α) : List Key := ((pd.pdArray.take pd.pdCount).filterMap id).map Entry.pdeKey

inductive Call (α : Type)
  | set (memory : Memory) (key : Key) (po : α)
  | remove (key : Key)
  | next

-- seen: what the iterator has returned. changed: a key was added or removed since it was reset.
structure Walk (α : Type) where
  pd : Dict α
  pdi : Iterator
  seen : List Key
  changed : Bool

def Walk.alter (w : Walk α) (pd : Dict α) : Walk α := {w with pd := pd,changed := w.changed || keys w.pd ≠ keys pd}

def Walk.step (w : Walk α) : Call α → Except Halt (Walk α)
  | .set memory key po => do
    let (_,pd) ← propDictionarySet memory w.pd key po
    .ok (w.alter pd)
  | .remove key => do
    let pd ← propDictionaryRemove w.pd key
    .ok (w.alter pd)
  | .next => do
    let (pdk,pdi) ← propDictionaryIteratorNextObject w.pd w.pdi
    .ok {w with pdi := pdi,seen := w.seen ++ pdk.toList}

variable {pd pd₁ : Dict α} {l : List (Entry α)} {map : Key → Option α} {w : Walk α} {all : List Key}

theorem held_entries (holds : Holds pd l) : pd.pdArray.take pd.pdCount = l.map some := by
  obtain ⟨spare,array⟩ := holds.array
  rw [array,holds.count]
  exact List.take_left' (by simp)

theorem keys_eq (holds : Holds pd l) : keys pd = l.map Entry.pdeKey := by
  rw [keys,held_entries holds,List.filterMap_map]
  simp

-- The version counts the changes of the keys.
def Alters (pd pd₁ : Dict α) : Prop :=
  keys pd₁ = keys pd ∧ pd₁.pdVersion = pd.pdVersion ∨ pd₁.pdCount ≠ pd.pdCount ∧ pd₁.pdVersion = pd.pdVersion + 1

theorem insertEntry_alters (ran : insertEntry pd idx new = .ok pd₁) : pd₁.pdCount = pd.pdCount + 1 ∧ pd₁.pdVersion = pd.pdVersion + 1 := by
  have put {pd : Dict α} {i : Nat} (ran : putEntry pd i new = .ok pd₁) : pd₁.pdCount = pd.pdCount + 1 ∧ pd₁.pdVersion = pd.pdVersion + 1 := by
    obtain ⟨_,_,ran⟩ := bind_ok ran
    cases ran
    exact ⟨rfl,rfl⟩
  unfold insertEntry insertRight at ran
  split at ran
  · exact put ran
  obtain ⟨_,_,ran⟩ := bind_ok ran
  split_ifs at ran
  all_goals
    obtain ⟨_,_,ran⟩ := bind_ok ran
    have := put ran
    exact this

theorem set_alters (sound : Sound pd l map) (ran : propDictionarySet memory pd key po = .ok (rv,pd₁)) : Alters pd pd₁ := by
  have capacity := sound.holds.capacity
  obtain ⟨r,found,looked⟩ := propDictLookup_spec sound.holds sound.sorted key
  rw [propDictionarySet,if_neg (by omega),if_neg (by simp [sound.mutable_]),found,ok_bind] at ran
  obtain ⟨_ | pde,idx⟩ := r
  · dsimp only at ran
    split at ran
    · cases ran
      exact .inl ⟨rfl,rfl⟩
    obtain ⟨room,grown,ran⟩ := bind_ok ran
    cases room with
    | none =>
      cases ran
      exact .inl ⟨rfl,rfl⟩
    | some pd₂ =>
      have same : pd₂.pdCount = pd.pdCount ∧ pd₂.pdVersion = pd.pdVersion := by
        split_ifs at grown
        · unfold propDictionaryExpand at grown
          split at grown
          · cases grown
          obtain ⟨_,_,grown⟩ := bind_ok grown
          cases grown
          exact ⟨rfl,rfl⟩
        · cases grown
          exact ⟨rfl,rfl⟩
      obtain ⟨_,inserted,ran⟩ := bind_ok ran
      cases ran
      have more := insertEntry_alters inserted
      rw [same.1,same.2] at more
      exact .inr ⟨by omega,more.2⟩
  cases looked with
  | found at_ same =>
    obtain ⟨a,b,rfl,place⟩ := split_at at_
    obtain ⟨array,stored,after⟩ := replace_spec {pde with pdeObjref := po} sound place rfl
    dsimp only at ran
    rw [stored] at ran
    cases ran
    exact .inl ⟨by rw [keys_eq after.holds,keys_eq sound.holds]; simp,rfl⟩

theorem remove_alters (sound : Sound pd l map) (ran : propDictionaryRemove pd key = .ok pd₁) : Alters pd pd₁ := by
  rw [propDictionaryRemove,if_neg (by simp [sound.mutable_])] at ran
  obtain ⟨⟨_ | pde,idx⟩,_,ran⟩ := bind_ok ran
  · cases ran
    exact .inl ⟨rfl,rfl⟩
  dsimp only [removeEntry] at ran
  split_ifs at ran
  obtain ⟨_,_,ran⟩ := bind_ok ran
  cases ran
  exact .inr ⟨by dsimp only; omega,rfl⟩

-- n changes since the iterator was reset, where the keys were all.
structure Walking (all : List Key) (w : Walk α) (n : Nat) : Prop where
  sound : ∃ l map, Sound w.pd l map
  version : w.pd.pdVersion = w.pdi.piVersion + BitVec.ofNat 32 n
  changed : w.changed = true ↔ n ≠ 0
  still : w.changed = false → keys w.pd = all
  index : w.pdi.pdiIndex = w.seen.length
  seen : w.seen = all.take w.seen.length

theorem Walking.alter (walking : Walking all w n) (alters : Alters w.pd pd) (sound : ∃ l map, Sound pd l map) :
    ∃ m, m ≤ n + 1 ∧ Walking all (w.alter pd) m := by
  obtain ⟨l,_,was⟩ := walking.sound
  obtain ⟨l₁,_,is⟩ := sound
  rcases alters with ⟨same,version⟩ | ⟨count,version⟩
  · exact ⟨n,by omega,⟨_,_,is⟩,version.trans walking.version,by simp [Walk.alter,same,walking.changed],
      fun still => by simpa [Walk.alter,same] using walking.still (by simpa [Walk.alter,same] using still),walking.index,walking.seen⟩
  have other : keys w.pd ≠ keys pd := by
    intro same
    rw [keys_eq was.holds,keys_eq is.holds] at same
    have := congrArg List.length same
    rw [List.length_map,List.length_map,← was.holds.count,← is.holds.count] at this
    exact count this.symm
  refine ⟨n + 1,by omega,⟨_,_,is⟩,?_,by simp [Walk.alter,other],fun still => by simp [Walk.alter,other] at still,walking.index,walking.seen⟩
  rw [Walk.alter,version,walking.version,BitVec.add_assoc]
  exact congrArg _ (BitVec.ofNat_add ..).symm

theorem Walking.next (walking : Walking all w n) (few : n < 2 ^ 32) :
    ∃ pdi, propDictionaryIteratorNextObject w.pd w.pdi = .ok (if w.changed then none else all[w.seen.length]?,pdi) ∧
      Walking all {w with pdi := pdi,seen := w.seen ++ (if w.changed then none else all[w.seen.length]?).toList} n := by
  obtain ⟨pd,pdi,met,moved⟩ := w
  have ⟨⟨l,_,sound⟩,version,changed,still,index,seen⟩ := walking
  dsimp only at sound version changed still index seen ⊢
  rw [propDictionaryIteratorNextObject]
  cases moved with
  | false =>
    have still := still rfl
    obtain rfl : n = 0 := by simpa using changed
    have length : all.length = pd.pdCount := by rw [← still,keys_eq sound.holds,List.length_map,sound.holds.count]
    have below := congrArg List.length seen
    rw [List.length_take,length] at below
    rw [if_neg (by simp [version]),index,if_neg (by omega)]
    by_cases done : met.length = pd.pdCount
    · rw [if_pos done,List.getElem?_eq_none (by omega)]
      exact ⟨_,rfl,by simpa using walking⟩
    rw [if_neg done]
    have inside : met.length < l.length := by
      rw [← sound.holds.count]
      omega
    obtain ⟨spare,array⟩ := sound.holds.array
    have key : all[met.length]? = some l[met.length].pdeKey := by simp [← still,keys_eq sound.holds,inside]
    have slot : pd.pdArray[met.length]? = some (some l[met.length]) := by
      rw [array,List.getElem?_append_left (by simpa using inside)]
      simp [inside]
    rw [load_ok slot,ok_bind,key]
    exact ⟨_,rfl,⟨_,_,sound⟩,version,changed,fun _ => still,by simp,by simp [List.take_add_one,key,← seen]⟩
  | true =>
    have some_ := changed.mp rfl
    rw [if_pos]
    · exact ⟨_,rfl,by simpa using walking⟩
    rw [version]
    intro same
    have := congrArg BitVec.toNat (BitVec.add_right_eq_self.mp same)
    simp only [BitVec.toNat_ofNat] at this
    omega

theorem Walking.step (walking : Walking all w n) (few : n < 2 ^ 32) (call : Call α) :
    ∃ w₁ m, w.step call = .ok w₁ ∧ m ≤ n + 1 ∧ Walking all w₁ m := by
  obtain ⟨l,map,sound⟩ := walking.sound
  cases call with
  | set memory key po =>
    obtain ⟨rv,pd₁,ran,after⟩ : ∃ rv pd₁, propDictionarySet memory w.pd key po = .ok (rv,pd₁) ∧ ∃ l map, Sound pd₁ l map := by
      rcases set_spec sound memory key po with failed | ⟨pd₁,l₁,set,after⟩
      · exact ⟨_,_,failed,_,_,sound⟩
      · exact ⟨_,_,set,_,_,after⟩
    obtain ⟨m,more,kept⟩ := walking.alter (set_alters sound ran) after
    exact ⟨_,m,by rw [Walk.step,ran]; rfl,more,kept⟩
  | remove key =>
    obtain ⟨pd₁,l₁,ran,after⟩ := remove_spec sound key
    obtain ⟨m,more,kept⟩ := walking.alter (remove_alters sound ran) ⟨_,_,after⟩
    exact ⟨_,m,by rw [Walk.step,ran]; rfl,more,kept⟩
  | next =>
    obtain ⟨pdi,ran,kept⟩ := walking.next few
    exact ⟨_,n,by rw [Walk.step,ran]; rfl,by omega,kept⟩

theorem walking_run (calls : List (Call α)) (walking : Walking all w n) (few : n + calls.length < 2 ^ 32) :
    ∃ w₁ m, calls.foldlM Walk.step w = .ok w₁ ∧ m < 2 ^ 32 ∧ Walking all w₁ m := by
  induction calls generalizing w n with
  | nil => exact ⟨w,n,rfl,few,walking⟩
  | cons call calls ih =>
    rw [List.length_cons] at few
    obtain ⟨w₁,m,ran,more,kept⟩ := walking.step (by omega) call
    obtain ⟨w₂,k,rest,small,after⟩ := ih kept (by omega)
    exact ⟨w₂,k,by rw [List.foldlM_cons,ran]; exact rest,small,after⟩

-- With 2^32 changes the version comes round to what it was.
theorem iterator_exact (reached : Reached pd map) (calls : List (Call α)) (few : calls.length < 2 ^ 32) :
    (keys pd).Pairwise (fun s t => strcmp s t < 0) ∧ (∀ key, key ∈ keys pd ↔ map key ≠ none) ∧
    ∃ w, calls.foldlM Walk.step ⟨pd,propDictionaryIteratorReset pd,[],false⟩ = .ok w ∧
      w.seen = (keys pd).take w.seen.length ∧ (w.changed = false → keys w.pd = keys pd) ∧
      ∃ pdi, propDictionaryIteratorNextObject w.pd w.pdi = .ok (if w.changed then none else (keys pd)[w.seen.length]?,pdi) := by
  obtain ⟨l,sound⟩ := reached.sound
  have start : Walking (keys pd) ⟨pd,propDictionaryIteratorReset pd,[],false⟩ 0 :=
    ⟨⟨_,_,sound⟩,by simp [propDictionaryIteratorReset],by simp,fun _ => rfl,rfl,rfl⟩
  obtain ⟨w,m,ran,small,walking⟩ := walking_run calls start (by omega)
  obtain ⟨pdi,next,_⟩ := walking.next small
  refine ⟨?_,fun key => ?_,w,ran,walking.seen,walking.still,pdi,next⟩
  · rw [keys_eq sound.holds]
    exact List.pairwise_map.mpr sound.sorted
  · rw [keys_eq sound.holds,List.mem_map,Option.ne_none_iff_exists']
    simp only [sound.graph key,and_comm]
    tauto

theorem iterator_exact_one : ∃ (pd : Dict Nat) (w : Walk Nat) (pdi : Iterator),
    [.next,.set ⟨true,fun _ => false,false,false⟩ ⟨[98#8],by decide⟩ 9].foldlM Walk.step ⟨pd,propDictionaryIteratorReset pd,[],false⟩ = .ok w ∧
      w.seen = [⟨[98#8],by decide⟩] ∧ propDictionaryIteratorNextObject w.pd w.pdi = .ok (none,pdi) := by
  have made : propDictionaryAlloc (α := Nat) ⟨false,fun _ => true,true,true⟩ 0 = some _ := rfl
  have first := Reached.stored (.created made rfl)
    (show propDictionarySet ⟨false,fun _ => true,true,true⟩ _ ⟨[98#8],by decide⟩ 5 = .ok (true,_) from rfl)
  obtain ⟨_,_,w,ran,_,_,pdi,next⟩ :=
    iterator_exact first [.next,.set ⟨true,fun _ => false,false,false⟩ ⟨[98#8],by decide⟩ 9] (by decide)
  obtain rfl := Except.ok.inj ran
  exact ⟨_,_,pdi,ran,rfl,next⟩

theorem Sound.mem_iff (sound : Sound pd l map) (e : Entry α) : e ∈ l ↔ map e.pdeKey = some e.pdeObjref := by
  rw [sound.graph]
  constructor
  · intro mem
    exact ⟨e,mem,rfl,rfl⟩
  rintro ⟨f,mem,key,objref⟩
  cases e
  cases f
  cases key
  cases objref
  exact mem

-- The array depends on the map alone, and not on the calls that led to it.
theorem dictionary_canonical (one : Reached pd map) (two : Reached pd₁ map) :
    pd.pdCount = pd₁.pdCount ∧ pd.pdArray.take pd.pdCount = pd₁.pdArray.take pd₁.pdCount := by
  obtain ⟨l,sound⟩ := one.sound
  obtain ⟨l₁,sound₁⟩ := two.sound
  have distinct {l : List (Entry α)} (sorted : Sorted l) : l.Nodup := by
    refine sorted.imp fun {e f} less same => ?_
    rw [same,strcmp_self] at less
    omega
  have perm : l.Perm l₁ :=
    (List.perm_ext_iff_of_nodup (distinct sound.sorted) (distinct sound₁.sorted)).mpr fun e => (sound.mem_iff e).trans (sound₁.mem_iff e).symm
  obtain rfl : l = l₁ := by
    refine perm.eq_of_pairwise (fun e f _ _ less more => ?_) sound.sorted sound₁.sorted
    have := strcmp_swap e.pdeKey f.pdeKey
    omega
  exact ⟨sound.holds.count.trans sound₁.holds.count.symm,(held_entries sound.holds).trans (held_entries sound₁.holds).symm⟩

theorem dictionary_canonical_two : ∃ pd pd₁ : Dict Nat, pd.pdCount = 2 ∧ pd.pdArray.take pd.pdCount = pd₁.pdArray.take pd₁.pdCount := by
  let memory : Memory := ⟨false,fun _ => true,true,true⟩
  have made : propDictionaryAlloc (α := Nat) memory 0 = some _ := rfl
  have first := Reached.stored (.created made rfl) (show propDictionarySet memory _ ⟨[98#8],by decide⟩ 5 = .ok (true,_) from rfl)
  have one := Reached.stored first (show propDictionarySet memory _ ⟨[97#8],by decide⟩ 7 = .ok (true,_) from rfl)
  have second := Reached.stored (.created made rfl) (show propDictionarySet memory _ ⟨[97#8],by decide⟩ 7 = .ok (true,_) from rfl)
  have two := Reached.stored second (show propDictionarySet memory _ ⟨[98#8],by decide⟩ 5 = .ok (true,_) from rfl)
  rw [update_comm (by decide)] at two
  exact ⟨_,_,rfl,(dictionary_canonical one two).2⟩
end NetbsdAvr32.PropDict
