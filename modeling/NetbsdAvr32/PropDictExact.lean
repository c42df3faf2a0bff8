import NetbsdAvr32.PropDict

-- Every run of sets, removals and lookups keeps the array sorted and the map exact.
namespace NetbsdAvr32.PropDict
open Block Function Outcome

-- A dictionary after any calls, with the map of what was set last and not removed since.
inductive Reached {α : Type} : Dict α → (Key → Option α) → Prop
  | created {pd : Dict α} (made : propDictionaryAlloc memory capacity = some pd) (whole : pd.pdArray.length = pd.pdCapacity) :
      Reached pd fun _ => none
  | got (before : Reached pd map) (ran : propDictionaryGet pd key = .ok r) : Reached pd map
  | stored (before : Reached pd map) (ran : propDictionarySet memory pd key po = .ok (true,pd₁)) :
      Reached pd₁ (update map key (some po))
  | refused (before : Reached pd map) (ran : propDictionarySet memory pd key po = .ok (false,pd₁)) : Reached pd₁ map
  | removed (before : Reached pd map) (ran : propDictionaryRemove pd key = .ok pd₁) : Reached pd₁ (update map key none)

variable {pd pd₁ : Dict α} {l a b : List (Entry α)} {key : Key} {map : Key → Option α} {new e : Entry α}
  {memory : Memory} {idx i : Nat} {po : α}

def Becomes (pd : Dict α) (x : Except Halt (Dict α)) (l : List (Entry α)) : Prop :=
  ∃ pd₁, x = .ok pd₁ ∧ Holds pd₁ l ∧ pd₁.pdImmutable = pd.pdImmutable

theorem spare_some (holds : Holds pd l) (room : pd.pdCount < pd.pdCapacity) :
    ∃ x spare, pd.pdArray = l.map some ++ x :: spare := by
  obtain ⟨spare,array⟩ := holds.array
  cases spare with
  | nil =>
    have slots := holds.slots
    rw [array,List.append_nil,List.length_map,← holds.count] at slots
    omega
  | cons x spare => exact ⟨x,spare,array⟩

theorem putEntry_spec (pd : Dict α) {spare : List (Option (Entry α))} {x : Option (Entry α)} (count : pd.pdCount = (a ++ b).length)
    (array : pd.pdArray = a.map some ++ x :: (b.map some ++ spare)) (slots : pd.pdArray.length = pd.pdCapacity)
    (place : i = a.length) : Becomes pd (putEntry pd i new) (a ++ new :: b) := by
  have stored : store pd.pdArray i (some new) = .ok (a.map some ++ some new :: (b.map some ++ spare)) := by
    rw [array]
    exact store_middle (by simp [place])
  rw [putEntry,stored,ok_bind]
  refine ⟨_,rfl,⟨?_,⟨spare,?_⟩,?_⟩,rfl⟩
  · simp only [count,List.length_append,List.length_cons]
    omega
  · simp
  rw [← slots,array]
  simp

theorem openPut_spec (holds : Holds pd (a ++ b)) (room : pd.pdCount < pd.pdCapacity) (place : i = a.length) :
    Becomes pd (do
      let array ← move pd.pdArray (i + 1) i (pd.pdCount - i)
      putEntry {pd with pdArray := array} i new) (a ++ new :: b) := by
  obtain ⟨x,spare,array⟩ := spare_some holds room
  have tail : pd.pdCount - i = (b.map some).length := by
    rw [holds.count,place,List.length_append,List.length_map]
    omega
  rw [List.map_append,List.append_assoc] at array
  rw [tail,array,move_up (by simp [place]),ok_bind]
  refine putEntry_spec {pd with pdArray := _} holds.count rfl ?_ place
  rw [← holds.slots,array]
  simp only [List.length_append,List.length_cons]
  omega

theorem insertEntry_spec (new : Entry α) (holds : Holds pd l) (room : pd.pdCount < pd.pdCapacity) (looked : Looked l new.pdeKey (none,idx))
    (sorted : Sorted l) : ∃ a b, l = a ++ b ∧ Between new.pdeKey a b ∧ Becomes pd (insertEntry pd idx new) (a ++ new :: b) := by
  rw [insertEntry]
  generalize returned : (none,idx) = r at looked
  cases looked with
  | found => cases returned
  | empty nothing =>
    subst nothing
    have zero : pd.pdCount = 0 := holds.count
    obtain ⟨x,spare,array⟩ := spare_some holds room
    rw [if_pos zero]
    exact ⟨[],[],rfl,⟨by simp,by simp⟩,putEntry_spec pd (a := []) (b := []) zero array holds.slots rfl⟩
  | missed gap =>
    cases returned
    have inside := gap.looked
    obtain ⟨last,at_,place⟩ := missed_split sorted gap
    have some_ : pd.pdCount ≠ 0 := by
      rw [holds.count]
      omega
    rw [if_neg some_,entryAt_ok holds at_,ok_bind]
    rcases place with ⟨less,between⟩ | ⟨more,between⟩
    · rw [if_pos less]
      refine ⟨_,_,(List.take_append_drop idx l).symm,between,?_⟩
      have whole : Holds pd (l.take idx ++ l.drop idx) := by rwa [List.take_append_drop]
      have length : idx = (l.take idx).length := by
        rw [List.length_take]
        omega
      by_cases zero : idx = 0
      · subst zero
        exact openPut_spec whole room length
      rw [if_neg zero,insertRight]
      have back : idx - 1 + 1 = idx := by omega
      have next : idx - 1 + 2 = idx + 1 := by omega
      rw [back,next]
      exact openPut_spec whole room length
    rw [if_neg more]
    refine ⟨_,_,(List.take_append_drop (idx + 1) l).symm,between,?_⟩
    have whole : Holds pd (l.take (idx + 1) ++ l.drop (idx + 1)) := by rwa [List.take_append_drop]
    refine openPut_spec whole room ?_
    rw [List.length_take]
    omega

theorem propCalloc_some {held bytes : Nat} {array : List (Option (Entry α))} (granted : propCalloc memory held bytes = some array) :
    held + bytes ≤ sizeMax ∧ array = List.replicate (bytes / sizeofEntry) none := by
  unfold propCalloc at granted
  split at granted
  · next ok => exact ⟨ok.2,(Option.some.inj granted).symm⟩
  · cases granted

theorem expand_spec (memory : Memory) (holds : Holds pd l) (full : pd.pdCount = pd.pdCapacity) :
    propDictionaryExpand memory pd ((pd.pdCapacity + expandStep) % sizeMax) = .ok none ∨
      ∃ pd₁, propDictionaryExpand memory pd ((pd.pdCapacity + expandStep) % sizeMax) = .ok (some pd₁) ∧
        Holds pd₁ l ∧ pd₁.pdCount < pd₁.pdCapacity ∧ pd₁.pdImmutable = pd.pdImmutable := by
  rw [propDictionaryExpand]
  cases granted : propCalloc (α := α) memory (heldBytes pd)
    ((pd.pdCapacity + expandStep) % sizeMax * sizeofEntry % sizeMax) with
  | none => exact .inl rfl
  | some array =>
    obtain ⟨fits,zeroed⟩ := propCalloc_some granted
    have small : pd.pdCapacity * 36 ≤ 2 ^ 32 := by
      unfold heldBytes sizeofEntry sizeofKeysym sizeMax at fits
      rw [holds.slots,full] at fits
      omega
    have grown : (pd.pdCapacity + expandStep) % sizeMax = pd.pdCapacity + 16 := by
      unfold expandStep sizeMax
      omega
    have cells : (pd.pdCapacity + 16) * sizeofEntry % sizeMax / sizeofEntry = pd.pdCapacity + 16 := by
      unfold sizeofEntry sizeMax
      omega
    rw [grown] at zeroed ⊢
    rw [cells] at zeroed
    right
    dsimp only
    rw [← holds.slots,zeroed,copy_grown (by simp [holds.slots]),ok_bind]
    obtain ⟨spare,held⟩ := holds.array
    refine ⟨_,rfl,⟨holds.count,⟨spare ++ (List.replicate (pd.pdCapacity + 16) none).drop pd.pdArray.length,?_⟩,?_⟩,?_,rfl⟩
    · rw [held,List.append_assoc]
    · simp [holds.slots]
    dsimp only
    rw [holds.slots,full]
    omega

structure Sound (pd : Dict α) (l : List (Entry α)) (map : Key → Option α) : Prop where
  holds : Holds pd l
  mutable_ : pd.pdImmutable = false
  sorted : Sorted l
  graph : Graph l map

theorem alloc_sound (made : propDictionaryAlloc memory capacity = some pd) (whole : pd.pdArray.length = pd.pdCapacity) :
    Sound pd [] fun _ => none := by
  obtain ⟨array,_,built⟩ := bind_some made
  split at built
  · cases built
    exact ⟨⟨rfl,⟨array,rfl⟩,whole⟩,rfl,List.Pairwise.nil,graph_nil⟩
  · cases built

theorem get_spec (sound : Sound pd l map) (key : Key) : propDictionaryGet pd key = .ok (map key) := by
  obtain ⟨r,ran,looked⟩ := propDictLookup_spec sound.holds sound.sorted key
  rw [propDictionaryGet,ran,ok_bind]
  cases looked with
  | found at_ same =>
    have held := (sound.graph key _).mpr ⟨_,List.mem_of_getElem? at_,same,rfl⟩
    rw [held]
    rfl
  | empty nothing =>
    subst nothing
    rw [graph_without sound.graph (by simp [Alone])]
    rfl
  | missed gap =>
    obtain ⟨last,_,place⟩ := missed_split sound.sorted gap
    have alone : Alone key l := by
      rcases place with ⟨_,between⟩ | ⟨_,between⟩
      · simpa using alone_missing between
      · simpa using alone_missing between
    rw [graph_without sound.graph alone]
    rfl

theorem split_at (at_ : l[i]? = some e) : ∃ a b, l = a ++ e :: b ∧ i = a.length := by
  obtain ⟨lt,same⟩ := List.getElem?_eq_some_iff.mp at_
  refine ⟨l.take i,l.drop (i + 1),?_,?_⟩
  · rw [← same,List.getElem_cons_drop,List.take_append_drop]
  rw [List.length_take]
  omega

theorem replace_spec (new : Entry α) (sound : Sound pd (a ++ e :: b) map) (place : i = a.length) (same : new.pdeKey = e.pdeKey) :
    ∃ array, store pd.pdArray i (some new) = .ok array ∧
      Sound {pd with pdArray := array} (a ++ new :: b) (update map e.pdeKey (some new.pdeObjref)) := by
  obtain ⟨spare,array⟩ := sound.holds.array
  have slots := sound.holds.slots
  rw [List.map_append,List.map_cons,List.append_assoc,List.cons_append] at array
  refine ⟨a.map some ++ some new :: (b.map some ++ spare),?_,⟨?_,⟨spare,by simp⟩,?_⟩,sound.mutable_,
    sorted_replace sound.sorted same,?_⟩
  · rw [array]
    exact store_middle (by simp [place])
  · rw [sound.holds.count]
    simp
  · rw [← slots,array]
    simp
  rw [← same]
  refine graph_put new (fun key other v => graph_rest sound.graph (same ▸ other) v) ?_
  rw [same]
  exact alone_present sound.sorted

theorem keysym_same (symbol : propDictKeysymAlloc memory key = some pdk) : key = pdk := by
  unfold propDictKeysymAlloc at symbol
  dsimp only at symbol
  generalize (if sizeofKeysym + key.val.length ≤ sizeofKeysym + 16 then memory.pool 16 else _) = granted at symbol
  cases memory.interned <;> cases granted <;> simp_all

theorem set_spec (sound : Sound pd l map) (memory : Memory) (key : Key) (po : α) :
    propDictionarySet memory pd key po = .ok (false,pd) ∨
      ∃ pd₁ l₁, propDictionarySet memory pd key po = .ok (true,pd₁) ∧ Sound pd₁ l₁ (update map key (some po)) := by
  have capacity := sound.holds.capacity
  obtain ⟨r,ran,looked⟩ := propDictLookup_spec sound.holds sound.sorted key
  rw [propDictionarySet,if_neg (by omega),if_neg (by simp [sound.mutable_]),ran,ok_bind]
  obtain ⟨pde,idx⟩ := r
  cases pde with
  | some pde =>
    cases looked with
    | found at_ same =>
      obtain ⟨a,b,rfl,place⟩ := split_at at_
      obtain ⟨array,stored,after⟩ := replace_spec {pde with pdeObjref := po} sound place rfl
      dsimp only
      rw [stored,ok_bind]
      exact .inr ⟨_,_,rfl,same ▸ after⟩
  | none =>
    cases symbol : propDictKeysymAlloc memory key with
    | none => exact .inl rfl
    | some pdk =>
      obtain rfl : key = pdk := keysym_same symbol
      have stores : ∀ pd₁ : Dict α, Holds pd₁ l → pd₁.pdCount < pd₁.pdCapacity → pd₁.pdImmutable = pd.pdImmutable →
          ∃ pd₂ l₂, insertEntry pd₁ idx {pdeKey := key,pdeObjref := po} = .ok pd₂ ∧ Sound pd₂ l₂ (update map key (some po)) := by
        intro pd₁ holds room still
        obtain ⟨a,b,rfl,between,pd₂,inserted,after,same⟩ :=
          insertEntry_spec {pdeKey := key,pdeObjref := po} holds room looked sound.sorted
        have fresh := graph_put {pdeKey := key,pdeObjref := po} (fun key _ v => sound.graph key v) (alone_missing between)
        exact ⟨pd₂,_,inserted,after,same.trans (still.trans sound.mutable_),sorted_insert sound.sorted between,fresh⟩
      dsimp only
      split_ifs with full
      · rcases expand_spec memory sound.holds full with failed | ⟨pd₁,grown,holds,room,still⟩
        · rw [failed,ok_bind]
          exact .inl rfl
        rw [grown,ok_bind]
        obtain ⟨pd₂,l₂,inserted,after⟩ := stores pd₁ holds room still
        dsimp only
        rw [inserted,ok_bind]
        exact .inr ⟨_,_,rfl,after⟩
      rw [ok_bind]
      obtain ⟨pd₂,l₂,inserted,after⟩ := stores pd sound.holds (by omega) rfl
      dsimp only
      rw [inserted,ok_bind]
      exact .inr ⟨_,_,rfl,after⟩

theorem removeEntry_spec (sound : Sound pd (a ++ e :: b) map) (place : i = a.length) :
    ∃ pd₁, removeEntry pd i = .ok pd₁ ∧ Sound pd₁ (a ++ b) (update map e.pdeKey none) := by
  have count := sound.holds.count
  obtain ⟨spare,array⟩ := sound.holds.array
  have slots := sound.holds.slots
  simp only [List.length_append,List.length_cons] at count
  have tail : pd.pdCount - (i + 1) = (b.map some).length := by
    rw [List.length_map]
    omega
  rw [List.map_append,List.map_cons,List.append_assoc,List.cons_append] at array
  rw [removeEntry,if_neg (by omega),if_neg (by omega)]
  dsimp only
  rw [tail,Nat.add_sub_cancel,array,move_down (by simp [place]),ok_bind]
  refine ⟨_,rfl,⟨?_,⟨_,by rw [List.map_append,List.append_assoc]⟩,?_⟩,sound.mutable_,sorted_remove sound.sorted,
    graph_remove sound.graph (alone_present sound.sorted)⟩
  · simp only [List.length_append]
    omega
  rw [← slots,array]
  simp only [List.length_append,List.length_cons]
  omega

theorem remove_spec (sound : Sound pd l map) (key : Key) :
    ∃ pd₁ l₁, propDictionaryRemove pd key = .ok pd₁ ∧ Sound pd₁ l₁ (update map key none) := by
  obtain ⟨r,ran,looked⟩ := propDictLookup_spec sound.holds sound.sorted key
  have got := get_spec sound key
  rw [propDictionaryGet,ran,ok_bind] at got
  rw [propDictionaryRemove,if_neg (by simp [sound.mutable_]),ran,ok_bind]
  obtain ⟨pde,idx⟩ := r
  cases pde with
  | none =>
    have missing : map key = none := (Except.ok.inj got).symm
    refine ⟨pd,l,rfl,?_⟩
    rw [← missing,update_eq_self]
    exact sound
  | some pde =>
    cases looked with
    | found at_ same =>
      obtain ⟨a,b,rfl,place⟩ := split_at at_
      obtain ⟨pd₁,removed,after⟩ := removeEntry_spec sound place
      exact ⟨pd₁,_,removed,same ▸ after⟩

theorem Reached.sound (reached : Reached pd map) : ∃ l, Sound pd l map := by
  induction reached with
  | created made whole => exact ⟨[],alloc_sound made whole⟩
  | got before ran ih => exact ih
  | @stored pd map memory key po pd₁ before ran ih =>
    obtain ⟨l,sound⟩ := ih
    rcases set_spec sound memory key po with failed | ⟨pd₂,l₂,set,after⟩
    · rw [failed] at ran
      cases ran
    rw [set] at ran
    cases ran
    exact ⟨l₂,after⟩
  | @refused pd map memory key po pd₁ before ran ih =>
    obtain ⟨l,sound⟩ := ih
    rcases set_spec sound memory key po with failed | ⟨pd₂,l₂,set,after⟩
    · rw [failed] at ran
      cases ran
      exact ⟨l,sound⟩
    rw [set] at ran
    cases ran
  | @removed pd map key pd₁ before ran ih =>
    obtain ⟨l,sound⟩ := ih
    obtain ⟨pd₂,l₂,took,after⟩ := remove_spec sound key
    rw [took] at ran
    cases ran
    exact ⟨l₂,after⟩

theorem dictionary_map (reached : Reached pd map) :
    (∃ l : List (Entry α), pd.pdArray.take pd.pdCount = l.map some ∧ l.length = pd.pdCount ∧
      l.Pairwise fun e f => strcmp e.pdeKey f.pdeKey < 0) ∧
    pd.pdCount ≤ pd.pdCapacity ∧
    (∀ key, propDictionaryGet pd key = .ok (map key)) ∧
    (∀ memory key po, ∃ rv pd₁, propDictionarySet memory pd key po = .ok (rv,pd₁) ∧
      (rv = false → ∀ other, propDictionaryGet pd₁ other = propDictionaryGet pd other)) ∧
    ∀ key, ∃ pd₁, propDictionaryRemove pd key = .ok pd₁ := by
  obtain ⟨l,sound⟩ := reached.sound
  refine ⟨⟨l,?_,sound.holds.count.symm,sound.sorted⟩,sound.holds.capacity,get_spec sound,fun memory key po => ?_,fun key => ?_⟩
  · obtain ⟨spare,array⟩ := sound.holds.array
    rw [array,sound.holds.count]
    exact List.take_left' (by simp)
  · rcases set_spec sound memory key po with failed | ⟨pd₁,l₁,set,_⟩
    · exact ⟨false,pd,failed,fun _ other => rfl⟩
    · exact ⟨true,pd₁,set,fun no => by cases no⟩
  · obtain ⟨pd₁,l₁,removed,_⟩ := remove_spec sound key
    exact ⟨pd₁,removed⟩

-- Two stores into an empty dictionary: it grows, and the second goes to the left of the first.
theorem dictionary_map_two : ∃ pd : Dict Nat, pd.pdCount = 2 ∧ pd.pdCapacity = 16 ∧
    propDictionaryGet pd ⟨[97#8],by decide⟩ = .ok (some 7) ∧ propDictionaryGet pd ⟨[98#8],by decide⟩ = .ok (some 5) := by
  let memory : Memory := ⟨false,fun _ => true,true,true⟩
  have made : propDictionaryAlloc (α := Nat) memory 0 = some _ := rfl
  have first := Reached.stored (.created made rfl) (show propDictionarySet memory _ ⟨[98#8],by decide⟩ 5 = .ok (true,_) from rfl)
  have second := Reached.stored first (show propDictionarySet memory _ ⟨[97#8],by decide⟩ 7 = .ok (true,_) from rfl)
  obtain ⟨_,_,get,_⟩ := dictionary_map second
  exact ⟨_,rfl,rfl,get _,get _⟩
end NetbsdAvr32.PropDict
