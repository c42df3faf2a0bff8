import NetbsdAvr32.Sem

-- Undo vectors as the adjustments they stand for.
namespace NetbsdAvr32.Sysvsem
open Keyed List SemUndo Sembuf Function Decidable Int
variable {c : Seminfo} {mnu p q semid semnum id num : Nat} {adjval : Int} {ents ents' before : List Undo} {l l' l₂ l₀ : List SemUndo} {sops passed : List Sembuf} {sop : Sembuf} {e : Errno}

def entAdj (ents : List Undo) (id num : Nat) : Int := (get? undoKey (id,num) ents).elim 0 Undo.unAdjval
def adjOf (l : List SemUndo) (p id num : Nat) : Int := entAdj (vectorOf l p) id num

structure EntsOk (c : Seminfo) (ents : List Undo) : Prop where
  distinct : Distinct undoKey ents
  nonzero : ∀ e ∈ ents,e.unAdjval ≠ 0
  range : ∀ e ∈ ents,-32768 ≤ e.unAdjval ∧ e.unAdjval ≤ 32767
  room : ents.length ≤ c.semume

structure UndoOk (c : Seminfo) (mnu : Nat) (l : List SemUndo) : Prop where
  distinct : Distinct SemUndo.unProc l
  ents : ∀ v ∈ l,EntsOk c v.unEnt
  room : l.length ≤ mnu

theorem short_range (x : Int) : -32768 ≤ short x ∧ short x ≤ 32767 := by
  unfold short
  omega

theorem short_fits {x : Int} (low : -32768 ≤ x) (high : x ≤ 32767) : short x = x := by
  unfold short
  omega

theorem short_short (x y : Int) : short (short x + y) = short (x + y) := by
  unfold short
  omega

theorem EntsOk.nil (c : Seminfo) : EntsOk c [] := ⟨nodup_nil,fun _ mem => absurd mem not_mem_nil,fun _ mem => absurd mem not_mem_nil,Nat.zero_le _⟩

section
variable (ok : EntsOk c ents)
include ok

theorem EntsOk.perm (same : ents.Perm ents') : EntsOk c ents' :=
  ⟨ok.distinct.perm same,fun e mem => ok.nonzero e (same.mem_iff.mpr mem),fun e mem => ok.range e (same.mem_iff.mpr mem),same.length_eq ▸ ok.room⟩

theorem entAdj_perm (same : ents.Perm ents') (id num : Nat) : entAdj ents' id num = entAdj ents id num := by
  rw [entAdj,ok.distinct.get?_perm same,entAdj]

theorem EntsOk.adj_range (id num : Nat) : -32768 ≤ entAdj ents id num ∧ entAdj ents id num ≤ 32767 := by
  unfold entAdj
  cases found : get? undoKey (id,num) ents with
  | none => exact ⟨by decide,by decide⟩
  | some e => exact ok.range e (get?_mem found).1

theorem EntsOk.entry : entAdj ents id num ≠ 0 ↔ (id,num) ∈ ents.map undoKey := by
  unfold entAdj
  constructor
  · intro ne
    cases found : get? undoKey (id,num) ents with
    | none => exact absurd rfl (found ▸ ne)
    | some e =>
      obtain ⟨mem,key⟩ := get?_mem found
      exact mem_map.mpr ⟨e,mem,key⟩
  intro mem
  obtain ⟨e,mem,key⟩ := mem_map.mp mem
  rw [← key,ok.distinct.get? mem]
  exact ok.nonzero e mem

theorem EntsOk.length_eq (ok' : EntsOk c ents') (same : ∀ id num,entAdj ents' id num = entAdj ents id num) : ents'.length = ents.length := by
  have keys : (ents'.map undoKey).Perm (ents.map undoKey) := by
    refine (perm_ext_iff_of_nodup ok'.distinct ok.distinct).mpr fun k => ?_
    rw [← ok'.entry,← ok.entry,same]
  simpa using keys.length_eq

theorem EntsOk.fewer (ok' : EntsOk c ents') (was : entAdj ents id num ≠ 0) (gone : entAdj ents' id num = 0)
    (others : ∀ id' num',(id',num') ≠ (id,num) → entAdj ents' id' num' = entAdj ents id' num') : ents'.length < ents.length := by
  have apart : (id,num) ∉ ents'.map undoKey := fun mem => ok'.entry.mpr mem gone
  have distinct : ((id,num) :: ents'.map undoKey).Nodup := nodup_cons.mpr ⟨apart,ok'.distinct⟩
  have sub : (id,num) :: ents'.map undoKey ⊆ ents.map undoKey := by
    intro k mem
    rcases mem_cons.mp mem with rfl | mem
    · exact ok.entry.mp was
    obtain ⟨id',num'⟩ := k
    have ne : (id',num') ≠ (id,num) := fun same => apart (same ▸ mem)
    rw [← ok.entry,← others id' num' ne,ok'.entry]
    exact mem
  have := (subperm_of_subset distinct sub).length_le
  rw [length_cons,length_map,length_map] at this
  exact this
end

structure Adjusted (c : Seminfo) (id num : Nat) (adjval : Int) (ents ents' : List Undo) : Prop where
  ok : EntsOk c ents'
  here : entAdj ents' id num = short (entAdj ents id num + adjval)
  others : ∀ id' num',(id',num') ≠ (id,num) → entAdj ents' id' num' = entAdj ents id' num'

-- It is refused only for want of room for a new entry.
theorem adjustEnts_spec (semid semnum : Nat) (before ents : List Undo) (ok : EntsOk c (before ++ ents)) (passed : (semid,semnum) ∉ before.map undoKey) (moves : short adjval ≠ 0) :
    match adjustEnts c semid semnum adjval before ents with
    | none => (before ++ ents).length = c.semume ∧ entAdj (before ++ ents) semid semnum = 0
    | some ents' => Adjusted c semid semnum adjval (before ++ ents) ents' := by
  induction ents generalizing before with
  | nil =>
    rw [append_nil] at ok
    rw [adjustEnts,append_nil]
    have zero : entAdj before semid semnum = 0 := byContradiction fun ne => passed (ok.entry.mp ne)
    split_ifs with full
    · exact ⟨full,zero⟩
    have distinct : Distinct undoKey (before ++ [⟨short adjval,semnum,semid⟩]) := by
      refine Distinct.put (by rw [append_nil]; exact ok.distinct) ?_
      rw [append_nil]
      exact passed
    refine ⟨⟨distinct,?_,?_,?_⟩,?_,?_⟩
    · intro e mem
      rcases mem_append.mp mem with mem | mem
      · exact ok.nonzero e mem
      rw [mem_singleton.mp mem]
      exact moves
    · intro e mem
      rcases mem_append.mp mem with mem | mem
      · exact ok.range e mem
      rw [mem_singleton.mp mem]
      exact short_range _
    · have := ok.room
      rw [length_append,length_singleton]
      omega
    · rw [zero,zero_add,entAdj,get?_middle distinct,if_pos (by rfl)]
      rfl
    intro id' num' other
    have ne : ¬undoKey ⟨short adjval,semnum,semid⟩ = (id',num') := fun same => other same.symm
    rw [entAdj,get?_middle distinct,if_neg ne,append_nil,entAdj]
  | cons e after ih =>
    rw [adjustEnts]
    by_cases away : e.unId ≠ semid ∨ e.unNum ≠ semnum
    · rw [if_pos away]
      have apart : ¬(semid,semnum) = undoKey e := by
        intro same
        rw [undoKey,Prod.mk.injEq] at same
        rcases away with away | away
        · exact away same.1.symm
        · exact away same.2.symm
      have shift : before ++ e :: after = before ++ [e] ++ after := by simp
      rw [shift]
      refine ih _ (shift ▸ ok) ?_
      rw [map_append,mem_append]
      rintro (mem | mem)
      · exact passed mem
      · exact apart (mem_singleton.mp mem)
    rw [if_neg away]
    have here := not_or.mp away
    have key : undoKey e = (semid,semnum) := by
      rw [undoKey,Decidable.not_not.mp here.1,Decidable.not_not.mp here.2]
    have now : entAdj (before ++ e :: after) semid semnum = e.unAdjval := by
      rw [entAdj,get?_middle ok.distinct,if_pos key]
      rfl
    have others : ∀ id' num',(id',num') ≠ (semid,semnum) → entAdj (before ++ e :: after) id' num' = entAdj (before ++ after) id' num' := by
      intro id' num' other
      rw [entAdj,get?_middle ok.distinct,if_neg (fun same => other (same.symm.trans key)),entAdj]
    by_cases gone : short (e.unAdjval + adjval) = 0
    · rw [if_pos gone]
      have left : EntsOk c (before ++ after) := by
        refine ⟨ok.distinct.skip,fun x mem => ok.nonzero x ?_,fun x mem => ok.range x ?_,?_⟩
        · rw [mem_append] at mem
          exact mem_append.mpr (mem.imp_right (mem_cons_of_mem _))
        · rw [mem_append] at mem
          exact mem_append.mpr (mem.imp_right (mem_cons_of_mem _))
        have := ok.room
        simp only [length_append,length_cons] at this ⊢
        omega
      have same := (swapOut_perm before after).symm
      refine ⟨left.perm same,?_,fun id' num' other => ?_⟩
      · rw [now,gone,entAdj_perm left same]
        refine byContradiction fun ne => ok.distinct.absent ?_
        rw [key]
        exact left.entry.mp ne
      · rw [entAdj_perm left same,others id' num' other]
    rw [if_neg gone]
    have distinct : Distinct undoKey (before ++ { e with unAdjval := short (e.unAdjval + adjval) } :: after) := ok.distinct.replace rfl
    have key' : undoKey { e with unAdjval := short (e.unAdjval + adjval) } = (semid,semnum) := key
    refine ⟨⟨distinct,?_,?_,?_⟩,?_,fun id' num' other => ?_⟩
    · intro x mem
      rcases mem_append.mp mem with mem | mem
      · exact ok.nonzero x (mem_append_left _ mem)
      rcases mem_cons.mp mem with rfl | mem
      · exact gone
      · exact ok.nonzero x (mem_append_right _ (mem_cons_of_mem _ mem))
    · intro x mem
      rcases mem_append.mp mem with mem | mem
      · exact ok.range x (mem_append_left _ mem)
      rcases mem_cons.mp mem with rfl | mem
      · exact short_range _
      · exact ok.range x (mem_append_right _ (mem_cons_of_mem _ mem))
    · have := ok.room
      simp only [length_append,length_cons] at this ⊢
      omega
    · rw [now,entAdj,get?_middle distinct,if_pos key']
      rfl
    · rw [entAdj,get?_middle distinct,if_neg (fun same => other (same.symm.trans key')),others id' num' other,entAdj]

section Vectors
theorem UndoOk.vector (ok : UndoOk c mnu l) (p : Nat) : EntsOk c (vectorOf l p) := by
  unfold vectorOf
  cases found : get? unProc p l with
  | none => exact .nil c
  | some v => exact ok.ents v (get?_mem found).1

theorem get?_setVector (p : Nat) (ents : List Undo) (l : List SemUndo) (q : Nat) :
    get? unProc q (setVector p ents l) = (get? unProc q l).map fun v => if v.unProc = p then { v with unEnt := ents } else v := by
  unfold get? setVector
  rw [find?_map]
  congr 2
  funext v
  simp only [comp_apply]
  split <;> rfl

theorem vectorOf_setVector (has : (get? unProc p l).isSome) (q : Nat) : vectorOf (setVector p ents l) q = if q = p then ents else vectorOf l q := by
  rw [vectorOf,get?_setVector,vectorOf]
  split
  · next same =>
    subst same
    obtain ⟨v,found⟩ := Option.isSome_iff_exists.mp has
    rw [found,Option.map_some,if_pos (get?_mem found).2]
    rfl
  next ne =>
  cases found : get? unProc q l with
  | none => rfl
  | some v =>
    rw [Option.map_some,if_neg (fun same => ne ((get?_mem found).2.symm.trans same))]

theorem UndoOk.setVector (ok : UndoOk c mnu l) (good : EntsOk c ents) : UndoOk c mnu (setVector p ents l) := by
  refine ⟨?_,fun v mem => ?_,?_⟩
  · have same : (Sysvsem.setVector p ents l).map unProc = l.map unProc := by
      unfold Sysvsem.setVector
      rw [map_map]
      refine map_congr_left fun v _ => ?_
      simp only [comp_apply]
      split <;> rfl
    unfold Distinct
    rw [same]
    exact ok.distinct
  · obtain ⟨old,mem',rfl⟩ := mem_map.mp mem
    split
    · exact good
    · exact ok.ents old mem'
  have := ok.room
  rwa [Sysvsem.setVector,length_map]

theorem vectorOf_purge (ok : UndoOk c mnu l) (q : Nat) : vectorOf (l.filter fun v => v.unEnt ≠ []) q = vectorOf l q := by
  have distinct : Distinct unProc (l.filter fun v => v.unEnt ≠ []) := ok.distinct.sublist (filter_sublist.map _)
  unfold vectorOf
  cases found : get? unProc q l with
  | none =>
    rw [get?_none fun mem => ?_]
    obtain ⟨v,kept,rfl⟩ := mem_map.mp mem
    rw [ok.distinct.get? (mem_filter.mp kept).1] at found
    cases found
  | some v =>
    obtain ⟨mem,rfl⟩ := get?_mem found
    by_cases empty : v.unEnt = []
    · rw [Option.elim_some,empty]
      rw [get?_none fun mem' => ?_]
      · rfl
      obtain ⟨x,mem',same⟩ := mem_map.mp mem'
      obtain ⟨mem',kept⟩ := mem_filter.mp mem'
      rw [ok.distinct.key_inj mem' mem same] at kept
      simp [empty] at kept
    · rw [distinct.get? (mem_filter.mpr ⟨mem,by simpa using empty⟩)]

theorem semuAlloc_spec (ok : UndoOk c mnu l) (fresh : get? unProc p l = none) :
    ∃ r,semuAlloc mnu p l = .ok r ∧ ∀ l',r = some l' → UndoOk c mnu l' ∧ (get? unProc p l').isSome ∧ ∀ q,vectorOf l' q = vectorOf l q := by
  have starts : ∀ l₁,UndoOk c mnu l₁ → get? unProc p l₁ = none → l₁.length < mnu →
      UndoOk c mnu (⟨p,[]⟩ :: l₁) ∧ (get? unProc p (⟨p,[]⟩ :: l₁)).isSome ∧ ∀ q,vectorOf (⟨p,[]⟩ :: l₁) q = vectorOf l₁ q := by
    intro l₁ ok fresh room
    have new : p ∉ l₁.map unProc := by
      intro mem
      obtain ⟨v,there,rfl⟩ := mem_map.mp mem
      rw [ok.distinct.get? there] at fresh
      cases fresh
    have distinct : Distinct unProc (⟨p,[]⟩ :: l₁) := nodup_cons.mpr ⟨new,ok.distinct⟩
    refine ⟨⟨distinct,fun v mem => ?_,room⟩,?_,fun q => ?_⟩
    · rcases mem_cons.mp mem with rfl | mem
      · exact .nil c
      · exact ok.ents v mem
    · rw [show get? unProc p (⟨p,[]⟩ :: l₁) = some ⟨p,[]⟩ from distinct.get? mem_cons_self]
      rfl
    by_cases same : p = q
    · subst same
      rw [vectorOf,vectorOf,fresh,show get? unProc p (⟨p,[]⟩ :: l₁) = some ⟨p,[]⟩ from distinct.get? mem_cons_self]
      rfl
    · simp only [vectorOf,get?,find?_cons,same,decide_false]
  unfold semuAlloc
  split_ifs with room
  · refine ⟨_,rfl,fun l' got => ?_⟩
    cases got
    exact starts l ok fresh room
  have shorter : (l.filter fun v => v.unEnt ≠ []).length ≤ l.length := length_filter_le ..
  by_cases nothing : (l.filter fun v => v.unEnt ≠ []).length = l.length
  · rw [if_pos nothing]
    exact ⟨none,rfl,fun l' got => by cases got⟩
  rw [if_neg nothing]
  have full := ok.room
  have room : (l.filter fun v => v.unEnt ≠ []).length < mnu := by omega
  rw [if_pos room]
  have kept : UndoOk c mnu (l.filter fun v => v.unEnt ≠ []) :=
    ⟨ok.distinct.sublist (filter_sublist.map _),fun v mem => ok.ents v (mem_filter.mp mem).1,Nat.le_of_lt room⟩
  have absent : get? unProc p (l.filter fun v => v.unEnt ≠ []) = none := by
    refine find?_eq_none.mpr fun v mem => ?_
    exact find?_eq_none.mp fresh v (mem_filter.mp mem).1
  refine ⟨_,rfl,fun l' got => ?_⟩
  cases got
  obtain ⟨good,has,same⟩ := starts _ kept absent room
  exact ⟨good,has,fun q => (same q).trans (vectorOf_purge ok q)⟩
end Vectors

structure AdjustedFor (c : Seminfo) (mnu p id num : Nat) (adjval : Int) (l l' : List SemUndo) : Prop where
  ok : UndoOk c mnu l'
  has : (get? SemUndo.unProc p l').isSome
  here : Adjusted c id num adjval (vectorOf l p) (vectorOf l' p)
  others : ∀ q,q ≠ p → vectorOf l' q = vectorOf l q

-- A call that is refused: no vector can be had, or the one there is is full.
structure Refused (c : Seminfo) (mnu p id num : Nat) (l l' : List SemUndo) : Prop where
  ok : UndoOk c mnu l'
  same : ∀ q,vectorOf l' q = vectorOf l q
  has : (get? SemUndo.unProc p l).isSome → (get? SemUndo.unProc p l').isSome
  why : get? SemUndo.unProc p l = none ∨ (vectorOf l p).length = c.semume ∧ adjOf l p id num = 0

theorem adjustVector_spec (p semid semnum : Nat) (ok : UndoOk c mnu l) (has : (get? unProc p l).isSome) (moves : short adjval ≠ 0) :
    (∃ l',adjustVector c p semid semnum adjval l = (none,l') ∧ AdjustedFor c mnu p semid semnum adjval l l') ∨
      adjustVector c p semid semnum adjval l = (some .einval,l) ∧ (vectorOf l p).length = c.semume ∧ adjOf l p semid semnum = 0 := by
  have spec := adjustEnts_spec semid semnum [] (vectorOf l p) (ok.vector p) not_mem_nil moves
  unfold adjustVector
  cases ran : adjustEnts c semid semnum adjval [] (vectorOf l p) with
  | none =>
    rw [ran] at spec
    exact .inr ⟨rfl,spec⟩
  | some ents =>
    rw [ran] at spec
    refine .inl ⟨_,rfl,ok.setVector spec.ok,?_,?_,fun q ne => ?_⟩
    · rw [get?_setVector,Option.isSome_map]
      exact has
    · rw [vectorOf_setVector has,if_pos rfl]
      exact spec
    · rw [vectorOf_setVector has,if_neg ne]

theorem semundoAdjust_spec (p semid semnum : Nat) (ok : UndoOk c mnu l) (moves : short adjval ≠ 0) :
    ∃ r l',semundoAdjust c mnu p semid semnum adjval l = .ok (r,l') ∧
      ((r = none ∧ AdjustedFor c mnu p semid semnum adjval l l') ∨ (r.isSome ∧ Refused c mnu p semid semnum l l')) := by
  unfold semundoAdjust
  cases found : get? unProc p l with
  | some v =>
    rcases adjustVector_spec p semid semnum ok (by rw [found]; rfl) moves with ⟨l',ran,adjusted⟩ | ⟨ran,full,zero⟩
    · exact ⟨none,l',congrArg _ ran,.inl ⟨rfl,adjusted⟩⟩
    · exact ⟨some .einval,l,congrArg _ ran,.inr ⟨rfl,ok,fun _ => rfl,id,.inr ⟨full,zero⟩⟩⟩
  | none =>
    obtain ⟨r,ran,spec⟩ := semuAlloc_spec ok found
    simp only [ran,Outcome.ok_bind]
    cases r with
    | none => exact ⟨some .enospc,l,rfl,.inr ⟨rfl,ok,fun _ => rfl,id,.inl found⟩⟩
    | some l₁ =>
      obtain ⟨ok₁,has,same⟩ := spec l₁ rfl
      rcases adjustVector_spec p semid semnum ok₁ has moves with ⟨l',ran,adjusted⟩ | ⟨ran,_,_⟩
      · refine ⟨none,l',congrArg Except.ok ran,.inl ⟨rfl,adjusted.ok,adjusted.has,?_,fun q ne => (adjusted.others q ne).trans (same q)⟩⟩
        have here := adjusted.here
        rwa [same p] at here
      · exact ⟨some .einval,l₁,congrArg Except.ok ran,.inr ⟨rfl,ok₁,same,fun _ => has,.inl found⟩⟩

section Vector
def undoTotal (sops : List Sembuf) (num : Nat) : Int := ((sops.filter fun sop => sop.undo && decide (sop.semNum = num)).map Sembuf.semOp).sum
@[simp] theorem undoTotal_nil : undoTotal [] num = 0 := rfl

theorem undoTotal_cons : undoTotal (sop :: sops) num = (if sop.undo ∧ sop.semNum = num then sop.semOp else 0) + undoTotal sops num := by
  unfold undoTotal
  split_ifs with counts
  · rw [filter_cons_of_pos (by simpa using counts),map_cons,sum_cons]
  · rw [filter_cons_of_neg (by simpa using counts),zero_add]

theorem Sembuf.undone_iff : sop.undone = true ↔ sop.undo = true ∧ sop.semOp ≠ 0 := by simp [undone]

theorem Sembuf.moves (done : sop.undone = true) : short sop.semOp ≠ 0 ∧ short (-sop.semOp) ≠ 0 := by
  have range := sop.range
  have ne := (undone_iff.mp done).2
  unfold short
  constructor <;> omega

def SameAdj (l l' : List SemUndo) : Prop := ∀ q id num,adjOf l' q id num = adjOf l q id num

theorem AdjustedFor.adj (adjusted : AdjustedFor c mnu p semid semnum adjval l l') (q id num : Nat) :
    adjOf l' q id num = if q = p ∧ id = semid ∧ num = semnum then short (adjOf l q id num + adjval) else adjOf l q id num := by
  unfold adjOf
  by_cases same : q = p
  · subst same
    by_cases here : id = semid ∧ num = semnum
    · obtain ⟨rfl,rfl⟩ := here
      rw [if_pos ⟨rfl,rfl,rfl⟩]
      exact adjusted.here.here
    rw [if_neg fun both => here both.2]
    exact adjusted.here.others id num fun equal => here (Prod.mk.inj equal)
  · rw [if_neg fun both => same both.1,adjusted.others q same]

def Returns (c : Seminfo) (mnu p semid : Nat) (l₀ l : List SemUndo) (passed : List Sembuf) : Prop :=
  ∀ l₂,UndoOk c mnu l₂ → SameAdj l l₂ → ((∃ sop ∈ passed,sop.undone = true) → (get? SemUndo.unProc p l₂).isSome) →
    ∃ l₃,undoBack c mnu p semid passed l₂ = .ok l₃ ∧ UndoOk c mnu l₃ ∧ SameAdj l₀ l₃

theorem Returns.nil (c : Seminfo) (mnu p semid : Nat) (l₀ : List SemUndo) : Returns c mnu p semid l₀ l₀ [] := fun l₂ ok same _ => ⟨l₂,rfl,ok,same⟩

theorem Returns.skip (back : Returns c mnu p semid l₂ l passed) (still : sop.undone = false) : Returns c mnu p semid l₂ l (sop :: passed) := by
  intro l₁ ok same has
  obtain ⟨l₃,ran,good⟩ := back l₁ ok same fun ⟨x,mem,done⟩ => has ⟨x,mem_cons_of_mem _ mem,done⟩
  refine ⟨l₃,?_,good⟩
  rw [undoBack,if_neg (by simp [still])]
  exact ran

theorem Returns.step (back : Returns c mnu p semid l₀ l passed) (ok₀ : UndoOk c mnu l) (done : sop.undone = true)
    (adjusted : AdjustedFor c mnu p semid sop.semNum (-sop.semOp) l l') : Returns c mnu p semid l₀ l' (sop :: passed) := by
  intro l₂ ok same has
  have has := has ⟨sop,mem_cons_self,done⟩
  have range := ok₀.vector p |>.adj_range semid sop.semNum
  obtain ⟨r,l₁,ran,⟨rfl,again⟩ | ⟨_,refused⟩⟩ := semundoAdjust_spec p semid sop.semNum ok (moves done).1
  · have sameBack : SameAdj l l₁ := by
      intro q id num
      rw [again.adj,same,adjusted.adj]
      split
      · next here =>
        obtain ⟨rfl,rfl,rfl⟩ := here
        have fits : short (adjOf l q id sop.semNum) = adjOf l q id sop.semNum := short_fits range.1 range.2
        rw [short_short,neg_add_cancel_right,fits]
      · rfl
    obtain ⟨l₃,rest,good⟩ := back l₁ again.ok sameBack fun _ => again.has
    refine ⟨l₃,?_,good⟩
    rw [undoBack,if_pos done,ran]
    exact rest
  exfalso
  rcases refused.why with absent | ⟨full,zero⟩
  · rw [absent] at has
    cases has
  have same_length : (vectorOf l₂ p).length = (vectorOf l' p).length := adjusted.here.ok.length_eq (ok.vector p) (same p)
  have gone : adjOf l' p semid sop.semNum = 0 := (same p semid sop.semNum).symm.trans zero
  have was : adjOf l p semid sop.semNum ≠ 0 := by
    have moved := adjusted.adj p semid sop.semNum
    rw [if_pos ⟨rfl,rfl,rfl⟩,gone] at moved
    intro zero
    rw [zero,zero_add] at moved
    exact (moves done).2 moved.symm
  have fewer := (ok₀.vector p).fewer adjusted.here.ok was gone adjusted.here.others
  have room := (ok₀.vector p).room
  omega

theorem undoAll_spec (passed sops : List Sembuf) (ok : UndoOk c mnu l) (back : Returns c mnu p semid l₀ l passed)
    (has : (∃ sop ∈ passed,sop.undone = true) → (get? unProc p l).isSome) :
    ∃ r l',undoAll c mnu p semid passed sops l = .ok (r,l') ∧ UndoOk c mnu l' ∧
      (r.isSome → SameAdj l₀ l') ∧
      (r = none → ∀ q id num,adjOf l' q id num = if q = p ∧ id = semid then short (adjOf l q id num - undoTotal sops num) else adjOf l q id num) := by
  induction sops generalizing passed l with
  | nil =>
    refine ⟨none,l,rfl,ok,fun failed => (by cases failed),fun _ q id num => ?_⟩
    have range := (ok.vector q).adj_range id num
    split
    · rw [undoTotal_nil,sub_zero]
      exact (short_fits range.1 range.2).symm
    · rfl
  | cons sop sops ih =>
    by_cases done : sop.undone = true
    · obtain ⟨r,l₁,ran,⟨rfl,adjusted⟩ | ⟨failed,refused⟩⟩ := semundoAdjust_spec p semid sop.semNum ok (moves done).2
      · obtain ⟨r,l',rest,ok',undone,total⟩ := ih (sop :: passed) adjusted.ok (back.step ok done adjusted) fun _ => adjusted.has
        refine ⟨r,l',?_,ok',undone,fun clean q id num => ?_⟩
        · rw [undoAll,if_pos done,ran]
          exact rest
        rw [total clean,adjusted.adj,undoTotal_cons]
        have does := (undone_iff.mp done).1
        split
        · next mine =>
          by_cases here : num = sop.semNum
          · rw [if_pos ⟨mine.1,mine.2,here⟩,if_pos ⟨does,here.symm⟩]
            unfold short
            omega
          · rw [if_neg fun both => here both.2.2,if_neg fun both => here both.2.symm,zero_add]
        next mine =>
        rw [if_neg fun both => mine ⟨both.1,both.2.1⟩]
      obtain ⟨e,rfl⟩ := Option.isSome_iff_exists.mp failed
      obtain ⟨l₃,taken,ok₃,same⟩ := back l₁ refused.ok (fun q id num => by rw [adjOf,refused.same,adjOf]) fun before => refused.has (has before)
      refine ⟨some e,l₃,?_,ok₃,fun _ => same,fun clean => (by cases clean)⟩
      rw [undoAll,if_pos done,ran]
      simp only [Outcome.ok_bind,taken]
      rfl
    have still : sop.undone = false := by simpa using done
    have known : (∃ x ∈ sop :: passed,x.undone = true) → (get? unProc p l).isSome := by
      rintro ⟨x,mem,is⟩
      rcases mem_cons.mp mem with rfl | mem
      · exact absurd is done
      · exact has ⟨x,mem,is⟩
    obtain ⟨r,l',rest,ok',undone,total⟩ := ih (sop :: passed) ok (back.skip still) known
    refine ⟨r,l',?_,ok',undone,fun clean q id num => ?_⟩
    · rw [undoAll,if_neg done]
      exact rest
    rw [total clean,undoTotal_cons]
    have nothing : (if sop.undo = true ∧ sop.semNum = num then sop.semOp else 0) = 0 := by
      split
      · next counts => exact byContradiction fun ne => done (undone_iff.mpr ⟨counts.1,ne⟩)
      · rfl
    rw [nothing,zero_add]
end Vector

-- The loop over the vector of operations, and its two rollbacks.
variable {sems sems' : List Sem} {n : Nat} {a b : Int} {wakeup undos wakeup' undos' : Bool}

def SemsOk (sems : List Sem) : Prop := ∀ s ∈ sems,s.semval < 65536
def semvalAt (sems : List Sem) (n : Nat) : Int := ((sems[n]?).elim 0 fun s => (s.semval : Int))

theorem ushort_lt (x : Int) : ushort x < 65536 := by
  unfold ushort
  omega

theorem ushort_cast (x : Int) : (ushort x : Int) = x % 65536 := by
  unfold ushort
  omega

theorem bump_getElem? (sems : List Sem) (num : Nat) (a : Int) (n : Nat) :
    (bump sems num a)[n]? = if n = num then (sems[n]?).map fun s => { s with semval := ushort (s.semval + a) } else sems[n]? := by
  unfold bump
  by_cases same : n = num
  · subst same
    simp
  rw [if_neg same]
  simp [Ne.symm same]

@[simp] theorem bump_length : (bump sems num a).length = sems.length := length_modify ..

theorem SemsOk.modify (ok : SemsOk sems) (num : Nat) {f : Sem → Sem} (low : ∀ s,s.semval < 65536 → (f s).semval < 65536) : SemsOk (sems.modify num f) := by
  intro s mem
  obtain ⟨i,at_⟩ := mem_iff_getElem?.mp mem
  rw [getElem?_modify] at at_
  obtain ⟨s,found,rfl⟩ := Option.map_eq_some_iff.mp at_
  have := ok s (mem_of_getElem? found)
  split
  · exact low s this
  · exact this

theorem SemsOk.bump (ok : SemsOk sems) (num : Nat) (a : Int) : SemsOk (bump sems num a) := ok.modify num fun _ _ => ushort_lt _

theorem bump_comm (sems : List Sem) (num n : Nat) (a b : Int) : bump (bump sems num a) n b = bump (bump sems n b) num a := by
  apply ext_getElem?
  intro i
  simp only [bump_getElem?]
  by_cases same : num = n
  · subst same
    split
    · simp only [Option.map_map]
      congr 1
      funext s
      simp only [comp_apply,Sem.mk.injEq,and_true]
      unfold ushort
      omega
    · rfl
  by_cases here : i = num
  · have there : ¬i = n := fun there => same (here.symm.trans there)
    rw [if_pos here,if_neg there,if_neg there,if_pos here]
  · rw [if_neg here,if_neg here]

theorem bump_back (ok : SemsOk sems) (num : Nat) (a : Int) : bump (bump sems num a) num (-a) = sems := by
  apply ext_getElem?
  intro i
  simp only [bump_getElem?]
  split
  · cases found : sems[i]? with
    | none => rfl
    | some s =>
      have low : s.semval < 65536 := ok s (mem_of_getElem? found)
      refine congrArg some ?_
      cases s with
      | mk v ncnt zcnt =>
        simp only [Sem.mk.injEq,and_true] at low ⊢
        unfold ushort
        omega
  · rfl

theorem bump_zero (ok : SemsOk sems) (num : Nat) : bump sems num 0 = sems := by
  apply ext_getElem?
  intro i
  rw [bump_getElem?]
  split
  · cases found : sems[i]? with
    | none => rfl
    | some s =>
      have low : s.semval < 65536 := ok s (mem_of_getElem? found)
      refine congrArg some ?_
      cases s with
      | mk v ncnt zcnt =>
        simp only [Sem.mk.injEq,and_true] at low ⊢
        unfold ushort
        omega
  · rfl

theorem semvalAt_bump (inside : num < sems.length) (n : Nat) :
    semvalAt (bump sems num a) n = if n = num then (semvalAt sems n + a) % 65536 else semvalAt sems n := by
  unfold semvalAt
  rw [bump_getElem?]
  split
  · next same =>
    subst same
    rw [getElem?_eq_getElem inside,Option.map_some]
    exact ushort_cast _
  · rfl

theorem semvalAt_range (ok : SemsOk sems) (n : Nat) : 0 ≤ semvalAt sems n ∧ semvalAt sems n < 65536 := by
  unfold semvalAt
  cases found : sems[n]? with
  | none => exact ⟨by decide,by decide⟩
  | some s =>
    have := ok s (mem_of_getElem? found)
    simp only [Option.elim_some]
    omega

theorem semvalAt_getD (sems : List Sem) (n : Nat) : (((sems[n]?).getD ⟨0,0,0⟩).semval : Int) = semvalAt sems n := by
  unfold semvalAt
  cases sems[n]? <;> rfl

@[simp] theorem unwind_cons : unwind sems (sop :: sops) = unwind (bump sems sop.semNum (-sop.semOp)) sops := rfl

theorem unwind_perm (same : sops.Perm passed) (sems : List Sem) : unwind sems sops = unwind sems passed :=
  same.foldl_eq' (fun _ _ _ _ _ => bump_comm ..) sems

structure Unwinds (from_ sems : List Sem) (passed : List Sembuf) : Prop where
  ok : SemsOk sems
  back : unwind sems passed = from_

theorem Unwinds.step {from_ : List Sem} (unwinds : Unwinds from_ sems passed) (sop : Sembuf) : Unwinds from_ (bump sems sop.semNum sop.semOp) (sop :: passed) := by
  refine ⟨unwinds.ok.bump _ _,?_⟩
  rw [unwind_cons,bump_back unwinds.ok]
  exact unwinds.back

def Stops (sems : List Sem) (sop : Sembuf) : Prop :=
  sop.semOp < 0 ∧ semvalAt sems sop.semNum + sop.semOp < 0 ∨ sop.semOp = 0 ∧ 0 < semvalAt sems sop.semNum

theorem semopScan_stop (stops : Stops sems sop) : semopScan sems wakeup undos passed (sop :: sops) = .blocked sems undos passed sop := by
  rw [semopScan]
  rcases stops with ⟨down,short_⟩ | ⟨zero,up⟩
  · rw [if_pos down,semvalAt_getD,if_pos short_]
  have up : 0 < ((sems[sop.semNum]?).getD ⟨0,0,0⟩).semval := by
    have := semvalAt_getD sems sop.semNum
    omega
  rw [if_neg (by omega),if_pos zero,if_pos up]

theorem semopScan_go (ok : SemsOk sems) (goes : ¬Stops sems sop) (passed sops : List Sembuf) (wakeup undos : Bool) :
    ∃ wakeup',semopScan sems wakeup undos passed (sop :: sops) =
      semopScan (bump sems sop.semNum sop.semOp) wakeup' (undos || sop.undone) (sop :: passed) sops := by
  have goes := not_or.mp goes
  rw [semopScan]
  by_cases down : sop.semOp < 0
  · have undone : sop.undone = sop.undo := by
      have ne : sop.semOp ≠ 0 := by omega
      simp [undone,ne]
    rw [if_pos down,semvalAt_getD,if_neg fun short_ => goes.1 ⟨down,short_⟩,undone]
    exact ⟨_,rfl⟩
  rw [if_neg down]
  by_cases zero : sop.semOp = 0
  · have undone : sop.undone = false := by simp [undone,zero]
    have empty : ¬0 < ((sems[sop.semNum]?).getD ⟨0,0,0⟩).semval := by
      intro up
      have := semvalAt_getD sems sop.semNum
      exact goes.2 ⟨zero,by omega⟩
    rw [if_pos zero,if_neg empty,undone,Bool.or_false,zero,bump_zero ok]
    exact ⟨_,rfl⟩
  have undone : sop.undone = sop.undo := by simp [undone,zero]
  rw [if_neg zero,undone]
  exact ⟨_,rfl⟩

def opTotal (sops : List Sembuf) (num : Nat) : Int := ((sops.filter fun sop => decide (sop.semNum = num)).map Sembuf.semOp).sum
@[simp] theorem opTotal_nil : opTotal [] num = 0 := rfl

theorem opTotal_cons : opTotal (sop :: sops) num = (if num = sop.semNum then sop.semOp else 0) + opTotal sops num := by
  unfold opTotal
  by_cases here : sop.semNum = num
  · rw [filter_cons_of_pos (by simpa using here),if_pos here.symm,map_cons,sum_cons]
  · rw [filter_cons_of_neg (by simpa using here),if_neg (Ne.symm here),zero_add]

def runOps (v : Nat → Int) : List Sembuf → Option (Nat → Int)
  | [] => some v
  | sop :: sops =>
    if sop.semOp < 0 ∧ v sop.semNum + sop.semOp < 0 ∨ sop.semOp = 0 ∧ 0 < v sop.semNum then none
    else runOps (Function.update v sop.semNum (v sop.semNum + sop.semOp)) sops

theorem runOps_total {v v' : Nat → Int} (ran : runOps v sops = some v') (n : Nat) : v' n = v n + opTotal sops n := by
  induction sops generalizing v with
  | nil =>
    cases ran
    rw [opTotal_nil,add_zero]
  | cons sop sops ih =>
    unfold runOps at ran
    split at ran
    · cases ran
    rw [ih ran,opTotal_cons]
    by_cases here : n = sop.semNum
    · subst here
      rw [update_self,if_pos rfl,add_assoc]
    · rw [update_of_ne here,if_neg here,zero_add]

structure Through (sems sems' : List Sem) (passed sops : List Sembuf) (undos undos' : Bool) : Prop where
  ok : SemsOk sems'
  undos : undos' = false → undos = false ∧ ∀ n,undoTotal sops n = 0
  back : ∀ from_,Unwinds from_ sems passed → Unwinds from_ sems' (sops.reverse ++ passed)

theorem semopScan_through (ok : SemsOk sems) (ran : semopScan sems wakeup undos passed sops = .through sems' wakeup' undos') :
    Through sems sems' passed sops undos undos' := by
  induction sops generalizing sems wakeup undos passed with
  | nil =>
    cases ran
    exact ⟨ok,fun clean => ⟨clean,fun n => undoTotal_nil⟩,fun from_ unwinds => unwinds⟩
  | cons sop sops ih =>
    by_cases stops : Stops sems sop
    · rw [semopScan_stop stops] at ran
      cases ran
    obtain ⟨wakeup₁,step⟩ := semopScan_go ok stops passed sops wakeup undos
    rw [step] at ran
    have through := ih (ok.bump _ _) ran
    refine ⟨through.ok,fun clean => ?_,fun from_ unwinds => ?_⟩
    · obtain ⟨none,rest⟩ := through.undos clean
      have none := Bool.or_eq_false_iff.mp none
      refine ⟨none.1,fun n => ?_⟩
      rw [undoTotal_cons,rest n,add_zero]
      split
      · next counts =>
        refine byContradiction fun ne => ?_
        rw [undone_iff.mpr ⟨counts.1,ne⟩] at none
        exact Bool.noConfusion none.2
      · rfl
    have next := through.back from_ (unwinds.step sop)
    simpa using next

theorem semopScan_total (ok : SemsOk sems) (inside : ∀ sop ∈ sops,sop.semNum < sems.length)
    (ran : semopScan sems wakeup undos passed sops = .through sems' wakeup' undos') :
    (∀ n,∃ k : Nat,semvalAt sems n + opTotal sops n = semvalAt sems' n + 65536 * k) ∧
      ((∀ n,semvalAt sems n + opTotal sops n ≤ 65535) → runOps (semvalAt sems) sops = some (semvalAt sems')) := by
  induction sops generalizing sems wakeup undos passed with
  | nil =>
    cases ran
    exact ⟨fun n => ⟨0,by simp⟩,fun _ => rfl⟩
  | cons sop sops ih =>
    by_cases stops : Stops sems sop
    · rw [semopScan_stop stops] at ran
      cases ran
    obtain ⟨wakeup₁,step⟩ := semopScan_go ok stops passed sops wakeup undos
    rw [step] at ran
    have here := inside sop mem_cons_self
    have low := semvalAt_range ok sop.semNum
    have low' := semvalAt_range (semopScan_through (ok.bump _ _) ran).ok sop.semNum
    obtain ⟨total,runs⟩ := ih (ok.bump _ _) (fun x mem => bump_length.symm ▸ inside x (mem_cons_of_mem _ mem)) ran
    have notShort : 0 ≤ semvalAt sems sop.semNum + sop.semOp := by
      by_cases down : sop.semOp < 0
      · exact Int.not_lt.mp fun short_ => stops (.inl ⟨down,short_⟩)
      · omega
    have moved : ∀ n,semvalAt (bump sems sop.semNum sop.semOp) n = _ := semvalAt_bump here
    refine ⟨fun n => ?_,fun fits => ?_⟩
    · obtain ⟨k,sum⟩ := total n
      rw [moved] at sum
      rw [opTotal_cons]
      by_cases same : n = sop.semNum
      · subst same
        refine ⟨k + ((semvalAt sems sop.semNum + sop.semOp) / 65536).toNat,?_⟩
        omega
      · exact ⟨k,by omega⟩
    have goes : ¬(sop.semOp < 0 ∧ semvalAt sems sop.semNum + sop.semOp < 0 ∨ sop.semOp = 0 ∧ 0 < semvalAt sems sop.semNum) := stops
    rw [runOps,if_neg goes]
    have within : semvalAt sems sop.semNum + sop.semOp ≤ 65535 := by
      obtain ⟨k,sum⟩ := total sop.semNum
      have fit := fits sop.semNum
      rw [opTotal_cons,if_pos rfl] at fit
      rw [moved,if_pos rfl] at sum
      omega
    have now : semvalAt (bump sems sop.semNum sop.semOp) = update (semvalAt sems) sop.semNum (semvalAt sems sop.semNum + sop.semOp) := by
      funext n
      rw [moved]
      by_cases same : n = sop.semNum
      · subst same
        rw [if_pos rfl,update_self]
        omega
      · rw [if_neg same,update_of_ne same]
    rw [← now]
    refine runs fun n => ?_
    have fit := fits n
    rw [opTotal_cons] at fit
    rw [now]
    by_cases same : n = sop.semNum
    · subst same
      rw [update_self]
      omega
    rw [update_of_ne same]
    omega

theorem semopScan_blocked {left : List Sem} {done : List Sembuf} {at_ : Sembuf} (ok : SemsOk sems) {from_ : List Sem} (unwinds : Unwinds from_ sems passed)
    (ran : semopScan sems wakeup undos passed sops = .blocked left undos' done at_) : unwind left done = from_ := by
  induction sops generalizing sems wakeup undos passed with
  | nil => cases ran
  | cons sop sops ih =>
    by_cases stops : Stops sems sop
    · rw [semopScan_stop stops] at ran
      cases ran
      exact unwinds.back
    obtain ⟨wakeup₁,step⟩ := semopScan_go ok stops passed sops wakeup undos
    rw [step] at ran
    exact ih (ok.bump _ _) (unwinds.step sop) ran
end NetbsdAvr32.Sysvsem
