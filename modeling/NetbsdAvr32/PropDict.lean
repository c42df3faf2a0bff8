import NetbsdAvr32.Block
import NetbsdAvr32.Bisect

-- common/lib/libprop/prop_dictionary.c: what is stored in a dictionary. Locks
-- and reference counts are left out.
namespace NetbsdAvr32.PropDict
open Block List

-- A C string: none of its bytes is NUL.
abbrev Key : Type := {bytes : List (BitVec 8) // 0 ∉ bytes}

-- The loop of strcmp; the end of a list is the NUL of the string.
def strcmpBytes : List (BitVec 8) → List (BitVec 8) → Int
  | [], [] => 0
  | [], b :: _ => 0 - b.toNat
  | a :: _, [] => a.toNat
  | a :: s1, b :: s2 => if a = b then strcmpBytes s1 s2 else a.toNat - b.toNat

def strcmp (s1 s2 : Key) : Int := strcmpBytes s1.val s2.val

def expandStep : Nat := 16
def sizeMax : Nat := 2 ^ 32
def sizeofEntry : Nat := 8
def sizeofKeysym : Nat := 28

-- struct _prop_dict_entry; a key symbol is its string.
structure Entry (α : Type) where
  pdeKey : Key
  pdeObjref : α

-- struct _prop_dictionary. A slot with a NULL key is `none`.
structure Dict (α : Type) where
  pdArray : List (Option (Entry α))
  pdCapacity : Nat
  pdCount : Nat
  pdImmutable : Bool
  pdVersion : BitVec 32

-- What the allocators answer: `pool` by the length a key symbol pool has room for.
structure Memory where
  interned : Bool
  pool : Nat → Bool
  dictPool : Bool
  calloc : Bool

-- _PROP_CALLOC next to `held` bytes in use: both lie in one address space.
def propCalloc (memory : Memory) (held bytes : Nat) : Option (List (Option (Entry α))) :=
  if memory.calloc ∧ held + bytes ≤ sizeMax then some (List.replicate (bytes / sizeofEntry) none) else none

def propDictKeysymAlloc (memory : Memory) (key : Key) : Option Key :=
  if memory.interned then some key
  else
    let size := sizeofKeysym + key.val.length
    let granted :=
      if size ≤ sizeofKeysym + 16 then memory.pool 16
      else if size ≤ sizeofKeysym + 32 then memory.pool 32
      else if size ≤ sizeofKeysym + 128 then memory.pool 128
      else false
    if granted then some key else none

def propDictionaryAlloc (memory : Memory) (capacity : Nat) : Option (Dict α) := do
  let array ← (if capacity ≠ 0 then propCalloc memory 0 (capacity * sizeofEntry % sizeMax) else some [])
  if memory.dictPool then
    some {pdArray := array,pdCapacity := capacity,pdCount := 0,pdImmutable := false,pdVersion := 0}
  else none

def heldBytes (pd : Dict α) : Nat := pd.pdArray.length * sizeofEntry + pd.pdCount * sizeofKeysym

def propDictionaryExpand (memory : Memory) (pd : Dict α) (capacity : Nat) : Except Halt (Option (Dict α)) :=
  match propCalloc memory (heldBytes pd) (capacity * sizeofEntry % sizeMax) with
  | none => .ok none
  | some array => do
    let array ← copy array pd.pdArray pd.pdCapacity
    .ok (some {pd with pdArray := array,pdCapacity := capacity})

-- pd_array[idx], with _PROP_ASSERT(pde->pde_key != NULL).
def entryAt (pd : Dict α) (idx : Nat) : Except Halt (Entry α) := do
  match ← load pd.pdArray idx with
  | some pde => .ok pde
  | none => .error (.panic "pde->pde_key != NULL")

def propDictLookupLoop (pd : Dict α) (key : Key) : Nat → Nat → Nat → Nat → Except Halt (Option (Entry α) × Nat)
  | 0, _, _, _ => .error .fuel
  | rounds + 1, idx, base, distance =>
    if distance = 0 then .ok (none,idx)
    else do
      let idx := base + distance / 2
      let pde ← entryAt pd idx
      let res := strcmp key pde.pdeKey
      if res = 0 then .ok (some pde,idx)
      else if res > 0 then propDictLookupLoop pd key rounds idx (idx + 1) ((distance - 1) / 2)
      else propDictLookupLoop pd key rounds idx base (distance / 2)

-- Returns the entry and *idxp.
def propDictLookup (pd : Dict α) (key : Key) : Except Halt (Option (Entry α) × Nat) :=
  propDictLookupLoop pd key (pd.pdCount + 1) 0 0 pd.pdCount

def propDictionaryGet (pd : Dict α) (key : Key) : Except Halt (Option α) := do
  let (pde,_) ← propDictLookup pd key
  .ok (pde.map Entry.pdeObjref)

def putEntry (pd : Dict α) (i : Nat) (pde : Entry α) : Except Halt (Dict α) := do
  let array ← store pd.pdArray i (some pde)
  .ok {pd with pdArray := array,pdCount := pd.pdCount + 1,pdVersion := pd.pdVersion + 1}

def insertRight (pd : Dict α) (idx : Nat) (pde : Entry α) : Except Halt (Dict α) := do
  let array ← move pd.pdArray (idx + 2) (idx + 1) (pd.pdCount - (idx + 1))
  putEntry {pd with pdArray := array} (idx + 1) pde

-- The store of prop_dictionary_set after the comment that it will succeed.
def insertEntry (pd : Dict α) (idx : Nat) (new : Entry α) : Except Halt (Dict α) :=
  if pd.pdCount = 0 then putEntry pd 0 new
  else do
    let pde ← entryAt pd idx
    if strcmp new.pdeKey pde.pdeKey < 0 then
      if idx = 0 then do
        let array ← move pd.pdArray 1 0 pd.pdCount
        putEntry {pd with pdArray := array} 0 new
      else insertRight pd (idx - 1) new
    else insertRight pd idx new

def propDictionarySet (memory : Memory) (pd : Dict α) (key : Key) (po : α) : Except Halt (Bool × Dict α) :=
  if pd.pdCount > pd.pdCapacity then .error (.panic "pd->pd_count <= pd->pd_capacity")
  else if pd.pdImmutable then .ok (false,pd)
  else do
    let (pde,idx) ← propDictLookup pd key
    match pde with
    | some pde => do
      let array ← store pd.pdArray idx (some {pde with pdeObjref := po})
      .ok (true,{pd with pdArray := array})
    | none =>
      match propDictKeysymAlloc memory key with
      | none => .ok (false,pd)
      | some pdk => do
        let room ← (if pd.pdCount = pd.pdCapacity
          then propDictionaryExpand memory pd ((pd.pdCapacity + expandStep) % sizeMax) else .ok (some pd))
        match room with
        | none => .ok (false,pd)
        | some pd => do
          let pd ← insertEntry pd idx {pdeKey := pdk,pdeObjref := po}
          .ok (true,pd)

def removeEntry (pd : Dict α) (idx : Nat) : Except Halt (Dict α) :=
  if pd.pdCount = 0 then .error (.panic "pd->pd_count != 0")
  else if pd.pdCount ≤ idx then .error (.panic "idx < pd->pd_count")
  else do
    let idx := idx + 1
    let array ← move pd.pdArray (idx - 1) idx (pd.pdCount - idx)
    .ok {pd with pdArray := array,pdCount := pd.pdCount - 1,pdVersion := pd.pdVersion + 1}

def propDictionaryRemove (pd : Dict α) (key : Key) : Except Halt (Dict α) :=
  if pd.pdImmutable then .ok pd
  else do
    let (pde,idx) ← propDictLookup pd key
    match pde with
    | none => .ok pd
    | some _ => removeEntry pd idx

variable {pd : Dict α} {l : List (Entry α)} {key : Key}

theorem strcmpBytes_self (s : List (BitVec 8)) : strcmpBytes s s = 0 := by
  induction s with
  | nil => rfl
  | cons a s ih => rw [strcmpBytes,if_pos rfl,ih]

theorem strcmpBytes_swap (s t : List (BitVec 8)) : strcmpBytes t s = -strcmpBytes s t := by
  induction s generalizing t with
  | nil => cases t <;> simp [strcmpBytes]
  | cons a s ih =>
    cases t with
    | nil => simp [strcmpBytes]
    | cons b t =>
      unfold strcmpBytes
      split
      · next same =>
        rw [if_pos same.symm,ih]
      next same =>
      rw [if_neg (Ne.symm same)]
      omega

theorem toNat_pos {b : BitVec 8} (text : b ≠ 0) : 0 < b.toNat := by
  apply Nat.pos_of_ne_zero
  intro zero
  exact text (BitVec.eq_of_toNat_eq zero)

theorem strcmpBytes_eq {s t : List (BitVec 8)} (textS : 0 ∉ s) (textT : 0 ∉ t) (zero : strcmpBytes s t = 0) : s = t := by
  induction s generalizing t with
  | nil =>
    cases t with
    | nil => rfl
    | cons b t =>
      have positive := toNat_pos (b := b) (fun nul => textT (by simp [nul]))
      unfold strcmpBytes at zero
      omega
  | cons a s ih =>
    cases t with
    | nil =>
      have positive := toNat_pos (b := a) (fun nul => textS (by simp [nul]))
      unfold strcmpBytes at zero
      omega
    | cons b t =>
      unfold strcmpBytes at zero
      split_ifs at zero with same
      · rw [same,ih (fun nul => textS (mem_cons_of_mem _ nul)) (fun nul => textT (mem_cons_of_mem _ nul)) zero]
      · exact (same (BitVec.eq_of_toNat_eq (by omega))).elim

theorem strcmpBytes_trans {s t u : List (BitVec 8)} (first : strcmpBytes s t < 0) (second : strcmpBytes t u < 0) :
    strcmpBytes s u < 0 := by
  induction s generalizing t u with
  | nil =>
    cases t with
    | nil => exact second
    | cons b t =>
      cases u with
      | nil =>
        unfold strcmpBytes at second
        omega
      | cons c u =>
        simp only [strcmpBytes] at first second ⊢
        by_cases same : b = c
        · rwa [← same]
        rw [if_neg same] at second
        omega
  | cons a s ih =>
    cases t with
    | nil =>
      unfold strcmpBytes at first
      omega
    | cons b t =>
      cases u with
      | nil =>
        unfold strcmpBytes at second
        omega
      | cons c u =>
        simp only [strcmpBytes] at first second ⊢
        split_ifs at first with ab
        · split_ifs at second with bc
          · rw [if_pos (ab.trans bc)]
            exact ih first second
          rw [ab,if_neg bc]
          exact second
        have ne : a ≠ c := by
          intro same
          subst same
          rw [if_neg (Ne.symm ab)] at second
          omega
        rw [if_neg ne]
        split at second
        · next bc => rw [← bc]; exact first
        · omega

theorem strcmp_self (s : Key) : strcmp s s = 0 := strcmpBytes_self s.val
theorem strcmp_eq (zero : strcmp s t = 0) : s = t := Subtype.ext (strcmpBytes_eq s.property t.property zero)
theorem strcmp_swap (s t : Key) : strcmp t s = -strcmp s t := strcmpBytes_swap s.val t.val

theorem strcmp_trans {s t u : Key} (first : strcmp s t < 0) (second : strcmp t u < 0) : strcmp s u < 0 :=
  strcmpBytes_trans first second

def Sorted (l : List (Entry α)) : Prop := l.Pairwise fun e f => strcmp e.pdeKey f.pdeKey < 0

def probe (l : List (Entry α)) (key : Key) (i : Nat) : Int :=
  match l[i]? with
  | some e => strcmp key e.pdeKey
  | none => 0

theorem probe_at (at_ : l[i]? = some e) : probe l key i = strcmp key e.pdeKey := by rw [probe,at_]

theorem sorted_before {i j : Nat} {e f : Entry α} (sorted : Sorted l) (lt : i < j) (first : l[i]? = some e) (second : l[j]? = some f) :
    strcmp e.pdeKey f.pdeKey < 0 := by
  obtain ⟨_,rfl⟩ := List.getElem?_eq_some_iff.mp first
  obtain ⟨_,rfl⟩ := List.getElem?_eq_some_iff.mp second
  exact List.pairwise_iff_getElem.mp sorted i j _ _ lt

theorem probe_ascending (sorted : Sorted l) (key : Key) : Bisect.Ascending (probe l key) l.length where
  below i j lt inside sign := by
    have first := getElem?_eq_getElem (show i < l.length by omega)
    have second := getElem?_eq_getElem inside
    have order := sorted_before sorted lt first second
    rw [probe_at second] at sign
    rw [probe_at first]
    rcases Int.lt_or_eq_of_le sign with greater | same
    · have down := strcmp_swap key l[j].pdeKey
      have := strcmp_trans order (u := key) (by omega)
      have := strcmp_swap l[i].pdeKey key
      omega
    rw [← strcmp_eq same.symm] at order
    have := strcmp_swap l[i].pdeKey key
    omega
  above i j lt inside sign := by
    have first := getElem?_eq_getElem (show i < l.length by omega)
    have second := getElem?_eq_getElem inside
    have order := sorted_before sorted lt first second
    rw [probe_at first] at sign
    rw [probe_at second]
    rcases Int.lt_or_eq_of_le sign with less | same
    · exact strcmp_trans less order
    · rwa [strcmp_eq same]

structure Holds (pd : Dict α) (l : List (Entry α)) : Prop where
  count : pd.pdCount = l.length
  array : ∃ spare, pd.pdArray = l.map some ++ spare
  slots : pd.pdArray.length = pd.pdCapacity

theorem Holds.capacity (holds : Holds pd l) : pd.pdCount ≤ pd.pdCapacity := by
  obtain ⟨spare,array⟩ := holds.array
  rw [holds.count,← holds.slots,array]
  simp

theorem entryAt_ok (holds : Holds pd l) (at_ : l[i]? = some e) : entryAt pd i = .ok e := by
  obtain ⟨spare,array⟩ := holds.array
  obtain ⟨lt,same⟩ := List.getElem?_eq_some_iff.mp at_
  have slot : pd.pdArray[i]? = some (some e) := by
    rw [array,getElem?_append_left (by simpa using lt),getElem?_map,at_]
    rfl
  rw [entryAt,load_ok slot]
  rfl

-- What the lookup gives back.
inductive Looked (l : List (Entry α)) (key : Key) : Option (Entry α) × Nat → Prop
  | found (at_ : l[idx]? = some e) (same : e.pdeKey = key) : Looked l key (some e,idx)
  | empty (none_ : l = []) : Looked l key (none,0)
  | missed (gap : Bisect.Missed (probe l key) l.length idx) : Looked l key (none,idx)

theorem lookupLoop_spec (holds : Holds pd l) (sorted : Sorted l) (window : Bisect.Window (probe l key) l.length base distance)
    (borders : distance = 0 → Bisect.Borders l.length base distance idx) (enough : distance < rounds) :
    ∃ r, propDictLookupLoop pd key rounds idx base distance = .ok r ∧ Looked l key r := by
  induction rounds generalizing idx base distance with
  | zero => omega
  | succ rounds ih =>
    rw [propDictLookupLoop]
    by_cases done : distance = 0
    · subst done
      exact ⟨_,rfl,.missed (Bisect.missed_closed (probe_ascending sorted key) window (borders rfl))⟩
    rw [if_neg done]
    have inside := window.middle done
    have at_ := getElem?_eq_getElem inside
    dsimp only
    rw [entryAt_ok holds at_,Outcome.ok_bind]
    have compared : probe l key (base + distance / 2) = strcmp key l[base + distance / 2].pdeKey := probe_at at_
    split
    · next same =>
      exact ⟨_,rfl,.found at_ (strcmp_eq same).symm⟩
    split
    · next greater =>
      exact ih (window.right (probe_ascending sorted key) done (compared ▸ greater)) (fun _ => .inl rfl) (by omega)
    · exact ih (window.left (probe_ascending sorted key) done (by omega)) (fun zero => .inr ⟨rfl,by omega⟩) (by omega)

theorem propDictLookup_spec (holds : Holds pd l) (sorted : Sorted l) (key : Key) :
    ∃ r, propDictLookup pd key = .ok r ∧ Looked l key r := by
  rw [propDictLookup,holds.count]
  rcases Nat.eq_zero_or_pos l.length with zero | positive
  · rw [zero]
    exact ⟨_,rfl,.empty (eq_nil_of_length_eq_zero zero)⟩
  · exact lookupLoop_spec holds sorted (Bisect.window_whole _ _) (fun zero => by omega) (Nat.lt_succ_self _)

open Function
variable {pd : Dict α} {l a b : List (Entry α)} {key : Key} {map : Key → Option α} {new e : Entry α}

structure Between (key : Key) (a b : List (Entry α)) : Prop where
  above : ∀ e ∈ a, strcmp e.pdeKey key < 0
  below : ∀ e ∈ b, strcmp key e.pdeKey < 0

theorem sorted_insert (sorted : Sorted (a ++ b)) (between : Between new.pdeKey a b) : Sorted (a ++ new :: b) := by
  obtain ⟨first,second,across⟩ := pairwise_append.mp sorted
  refine pairwise_append.mpr ⟨first,pairwise_cons.mpr ⟨between.below,second⟩,fun e mem f member => ?_⟩
  rcases mem_cons.mp member with rfl | later
  · exact between.above e mem
  · exact across e mem f later

theorem sorted_replace (sorted : Sorted (a ++ e :: b)) (same : new.pdeKey = e.pdeKey) : Sorted (a ++ new :: b) := by
  obtain ⟨first,second,across⟩ := pairwise_append.mp sorted
  obtain ⟨below,rest⟩ := pairwise_cons.mp second
  have between : Between new.pdeKey a b := by
    rw [same]
    exact ⟨fun f mem => across f mem e (by simp),below⟩
  exact sorted_insert (pairwise_append.mpr ⟨first,rest,fun f mem g later => across f mem g (by simp [later])⟩) between

theorem sorted_remove (sorted : Sorted (a ++ e :: b)) : Sorted (a ++ b) :=
  List.Pairwise.sublist ((List.Sublist.refl a).append (sublist_cons_self e b)) sorted

def Graph (l : List (Entry α)) (map : Key → Option α) : Prop :=
  ∀ key v, map key = some v ↔ ∃ e ∈ l, e.pdeKey = key ∧ e.pdeObjref = v

theorem graph_nil : Graph ([] : List (Entry α)) fun _ => none := fun key v => by simp
def Alone (key : Key) (l : List (Entry α)) : Prop := ∀ e ∈ l, e.pdeKey ≠ key

theorem alone_missing (between : Between key a b) : Alone key (a ++ b) := by
  intro e mem same
  have self := strcmp_self key
  rcases mem_append.mp mem with first | second
  · have := between.above e first
    rw [same] at this
    omega
  have := between.below e second
  rw [same] at this
  omega

theorem alone_present (sorted : Sorted (a ++ e :: b)) : Alone e.pdeKey (a ++ b) := by
  obtain ⟨first,second,across⟩ := pairwise_append.mp sorted
  have below := (pairwise_cons.mp second).1
  exact alone_missing ⟨fun f mem => across f mem e (by simp),below⟩

theorem graph_without (graph : Graph l map) (alone : Alone key l) : map key = none := by
  cases found : map key with
  | none => rfl
  | some v =>
    obtain ⟨e,mem,same,_⟩ := (graph key v).mp found
    exact (alone e mem same).elim

theorem graph_put (new : Entry α)
    (rest : ∀ key ≠ new.pdeKey, ∀ v, map key = some v ↔ ∃ e ∈ a ++ b, e.pdeKey = key ∧ e.pdeObjref = v)
    (alone : Alone new.pdeKey (a ++ b)) : Graph (a ++ new :: b) (update map new.pdeKey (some new.pdeObjref)) := by
  intro key v
  have split : ∀ e, e ∈ a ++ new :: b ↔ e = new ∨ e ∈ a ++ b := by
    intro e
    simp only [mem_append,mem_cons]
    tauto
  simp only [split]
  by_cases same : key = new.pdeKey
  · subst same
    rw [update_self]
    constructor
    · intro held
      exact ⟨new,.inl rfl,rfl,Option.some.inj held⟩
    rintro ⟨e,rfl | mem,keyed,rfl⟩
    · rfl
    · exact (alone e mem keyed).elim
  rw [update_of_ne same,rest key same v]
  constructor
  · rintro ⟨e,mem,held⟩
    exact ⟨e,.inr mem,held⟩
  rintro ⟨e,rfl | mem,held⟩
  · exact (same held.1.symm).elim
  · exact ⟨e,mem,held⟩

theorem graph_rest (graph : Graph (a ++ e :: b) map) (other : key ≠ e.pdeKey) (v : α) :
    map key = some v ↔ ∃ f ∈ a ++ b, f.pdeKey = key ∧ f.pdeObjref = v := by
  rw [graph key v]
  constructor
  · rintro ⟨f,mem,held⟩
    refine ⟨f,?_,held⟩
    rcases mem_append.mp mem with first | second
    · exact mem_append_left b first
    rcases mem_cons.mp second with rfl | later
    · exact (other held.1.symm).elim
    · exact mem_append_right a later
  rintro ⟨f,mem,held⟩
  refine ⟨f,?_,held⟩
  rcases mem_append.mp mem with first | second
  · exact mem_append_left _ first
  · exact mem_append_right _ (mem_cons_of_mem _ second)

theorem graph_remove (graph : Graph (a ++ e :: b) map) (alone : Alone e.pdeKey (a ++ b)) :
    Graph (a ++ b) (update map e.pdeKey none) := by
  intro key v
  by_cases same : key = e.pdeKey
  · subst same
    rw [update_self]
    constructor
    · intro held
      cases held
    rintro ⟨f,mem,keyed,_⟩
    exact (alone f mem keyed).elim
  rw [update_of_ne same]
  exact graph_rest graph same v

theorem missed_split (sorted : Sorted l) (gap : Bisect.Missed (probe l key) l.length idx) :
    ∃ last, l[idx]? = some last ∧
      (strcmp key last.pdeKey < 0 ∧ Between key (l.take idx) (l.drop idx) ∨
        ¬strcmp key last.pdeKey < 0 ∧ Between key (l.take (idx + 1)) (l.drop (idx + 1))) := by
  have inside := gap.looked
  have at_ := getElem?_eq_getElem inside
  have looked : probe l key idx = strcmp key l[idx].pdeKey := probe_at at_
  have below_of : ∀ i, 0 < probe l key i → ∀ e, l[i]? = some e → strcmp e.pdeKey key < 0 := by
    intro i positive e found
    rw [probe_at found] at positive
    have := strcmp_swap e.pdeKey key
    omega
  have above_of : ∀ i, probe l key i < 0 → ∀ e, l[i]? = some e → strcmp key e.pdeKey < 0 := by
    intro i negative e found
    rwa [probe_at found] at negative
  refine ⟨_,at_,?_⟩
  by_cases less : strcmp key l[idx].pdeKey < 0
  · refine .inl ⟨less,fun e mem => ?_,fun e mem => ?_⟩
    · obtain ⟨i,lt,rfl⟩ := mem_take_iff_getElem.mp mem
      exact below_of i (gap.less (looked ▸ less) i (by omega)) _ (getElem?_eq_getElem _)
    obtain ⟨i,lt,rfl⟩ := mem_drop_iff_getElem.mp mem
    refine above_of (idx + i) ?_ _ (getElem?_eq_getElem _)
    rcases Nat.eq_zero_or_pos i with rfl | positive
    · exact looked ▸ less
    · exact (probe_ascending sorted key).above idx (idx + i) (by omega) (by omega) (by omega)
  obtain ⟨greater,after⟩ := gap.greater (looked ▸ less)
  refine .inr ⟨less,fun e mem => ?_,fun e mem => ?_⟩
  · obtain ⟨i,lt,rfl⟩ := mem_take_iff_getElem.mp mem
    refine below_of i ?_ _ (getElem?_eq_getElem _)
    rcases Nat.lt_or_eq_of_le (show i ≤ idx by omega) with before | rfl
    · exact (probe_ascending sorted key).below i idx before gap.looked (Int.le_of_lt greater)
    · exact greater
  obtain ⟨i,lt,rfl⟩ := mem_drop_iff_getElem.mp mem
  exact above_of (idx + 1 + i) (after (idx + 1 + i) (by omega) (by omega)) _ (getElem?_eq_getElem _)
end NetbsdAvr32.PropDict
