import NetbsdAvr32.PropRelease

-- Every call returns, and releases what is dead unless a push fails.
namespace NetbsdAvr32.PropRelease
open Turns Function Finset Outcome

def lowered (world : World) (o : Nat) : World :=
  let less : World := {world with refcnt := update world.refcnt o (world.refcnt o - 1)}
  if world.refcnt o = 1 then put less o else less

def size (objs : Finset Nat) (body : Nat → Body) : Nat := ∑ p ∈ objs, (body p).refs.length

-- What a container is without its last entry.
inductive Tail : Body → Nat → Option Nat → Body → Prop
  | array : Tail (.array (po :: items)) po none (.array items)
  | dictionary : Tail (.dictionary ((pdk,po) :: entries)) po (some pdk) (.dictionary entries)

structure Sane (objs : Finset Nat) (outside rank : Nat → Nat) (before world : World) (pending leaked : List Nat) (pushes : List Bool) : Prop where
  counted : Counted objs outside rank before world pending leaked []
  failed : leaked = [] ↔ false ∉ pushes

variable {objs : Finset Nat} {outside rank : Nat → Nat} {root o p po : Nat} {before world world' after : World} {body : Nat → Body} {b : Body}
variable {pending leaked cur stack : List Nat} {pushes : List Bool} {malloc : Nat → Bool} {rounds : Nat}

theorem lowered_body (world : World) (o : Nat) : (lowered world o).body = world.body := by
  unfold lowered
  dsimp only
  split
  · rfl
  · rfl

theorem body_lowered (world : World) (o : Nat) (body : Nat → Body) : {lowered world o with body := body} = lowered {world with body := body} o := by
  unfold lowered
  dsimp only
  split
  · rfl
  · rfl

theorem Counted.lowered (counted : Counted objs outside rank before world (o :: pending) leaked cur)
    (last : world.refcnt o = 1 → (world.body o).refs = []) :
    Counted objs outside rank before (PropRelease.lowered world o) pending leaked cur := by
  unfold PropRelease.lowered
  dsimp only
  split
  · next one => exact (counted.last one).put (last one)
  · next more => exact counted.drop more

theorem Counted.perm (counted : Counted objs outside rank before world pending leaked cur) (perm : pending.Perm pending') :
    Counted objs outside rank before world pending' leaked cur where
  inside := fun x mem => counted.inside x (by simpa [perm.mem_iff] using mem)
  counts := fun x mem => by rw [counted.counts x mem,perm.count_eq]
  zero := counted.zero
  once := counted.once
  emptied := counted.emptied
  shrunk := counted.shrunk
  touched := fun p mem changed => (counted.touched p mem changed).imp_right (·.imp_right (·.imp_left fun listed => ⟨perm.mem_iff.mp listed.1,listed.2⟩))

theorem releaseKey_lowered (alive : o ∉ world.freed) (pos : 0 < world.refcnt o) (leaf : world.body o = .leaf) :
    releaseKey world o = .ok (lowered world o) := by
  rw [releaseKey,dropRef,if_neg alive,if_neg (by omega),ok_bind]
  dsimp only
  unfold lowered
  by_cases one : world.refcnt o = 1
  · rw [if_neg (not_not.mpr one),leaf,if_pos one]
  · rw [if_pos one,if_neg one]

theorem last_none (none_ : b.last = none) : b.refs = [] := by
  cases b with
  | leaf => rfl
  | array items =>
    cases items with
    | nil => rfl
    | cons => cases none_
  | dictionary entries =>
    cases entries with
    | nil => rfl
    | cons => cases none_

theorem last_tail (last : b.last = some po) : ∃ pdk b', Tail b po pdk b' := by
  cases b with
  | leaf => cases last
  | array items =>
    cases items with
    | nil => cases last
    | cons => cases last; exact ⟨none,_,.array⟩
  | dictionary entries =>
    cases entries with
    | nil => cases last
    | cons entry => cases last; exact ⟨some entry.1,_,.dictionary⟩

theorem Tail.refs (tail : Tail b po pdk b') : b.refs = pdk.toList ++ [po] ++ b'.refs := by
  cases tail with
  | array => rfl
  | dictionary => rfl

theorem Tail.shrunk (tail : Tail b po pdk b') (shrunk : Shrunk a b) : Shrunk a b' := by
  cases tail with
  | array =>
    cases shrunk with
    | array suffix => exact .array ((List.suffix_cons _ _).trans suffix)
  | dictionary =>
    cases shrunk with
    | dictionary suffix => exact .dictionary ((List.suffix_cons _ _).trans suffix)

def releaseKeys (world : World) : Option Nat → Except Halt World
  | none => .ok world
  | some pdk => releaseKey world pdk

theorem dropLast_tail (world : World) (tail : Tail (world.body p) po pdk b) :
    dropLast world p = releaseKeys {world with body := update world.body p b} pdk := by
  unfold dropLast
  generalize world.body p = a at tail
  cases tail with
  | array => rfl
  | dictionary => rfl

theorem size_tail (mem : p ∈ objs) (tail : Tail (body p) po pdk b) : size objs (update body p b) < size objs body := by
  have less : b.refs.length < (body p).refs.length := by
    rw [tail.refs]
    simp only [List.length_append,List.length_singleton]
    omega
  refine sum_lt_sum (fun q _ => ?_) ⟨p,mem,by rwa [update_self]⟩
  by_cases same : q = p
  · subst same
    rw [update_self]
    exact Nat.le_of_lt less
  · rw [update_of_ne same]

section Steps
variable (graph : Graph objs outside rank root before)

include graph in
theorem Counted.refs_inside (counted : Counted objs outside rank before world pending leaked cur) (mem : p ∈ objs) (ref : o ∈ (world.body p).refs) :
    o ∈ objs ∧ rank o < rank p := by
  have old := (counted.shrunk p mem).refs_subset ref
  exact ⟨graph.closed p mem o old,graph.acyclic p mem o old⟩

include graph in
theorem Counted.key_leaf (counted : Counted objs outside rank before world pending leaked cur) (mem : p ∈ objs)
    (tail : Tail (world.body p) po (some pdk) b) : world.body pdk = .leaf := by
  have inside := (counted.refs_inside graph mem (show pdk ∈ (world.body p).refs by rw [tail.refs]; simp)).1
  have leaf : before.body pdk = .leaf := by
    have shrunk := counted.shrunk p mem
    generalize eq : world.body p = a at tail shrunk
    generalize old : before.body p = a₀ at shrunk
    cases tail with
    | dictionary =>
      cases shrunk with
      | dictionary suffix => exact graph.keys p mem _ old _ (suffix.subset List.mem_cons_self)
  have shrunk := counted.shrunk pdk inside
  rw [leaf] at shrunk
  generalize world.body pdk = a at shrunk
  cases shrunk
  rfl

-- The last entry is taken off, and what it refers to is to be released.
include graph in
theorem Counted.tail (counted : Counted objs outside rank before world pending leaked cur) (mem : p ∈ objs)
    (tail : Tail (world.body p) po pdk b) (alive : p ∉ world.freed) (may : p ∈ cur ∨ ∃ q ∈ leaked, rank p ≤ rank q) :
    Counted objs outside rank before {world with body := update world.body p b} (pdk.toList ++ [po] ++ pending) leaked cur := by
  refine counted.take mem b _ tail.refs (tail.shrunk (counted.shrunk p mem)) (fun o ref => ?_) alive may
  exact (counted.refs_inside graph mem (show o ∈ (world.body p).refs by rw [tail.refs]; exact List.mem_append_left _ ref)).1

theorem Counted.keys (counted : Counted objs outside rank before world (pdk.toList ++ pending) leaked cur)
    (leaf : ∀ k, pdk = some k → world.body k = .leaf) :
    ∃ world', releaseKeys world pdk = .ok world' ∧ Counted objs outside rank before world' pending leaked cur ∧ world'.body = world.body := by
  cases pdk with
  | none => exact ⟨world,rfl,counted,rfl⟩
  | some k =>
    have single : Counted objs outside rank before world (k :: pending) leaked cur := counted
    refine ⟨PropRelease.lowered world k,?_,single.lowered fun _ => ?_,lowered_body _ _⟩
    · exact releaseKey_lowered single.not_torn.1 single.count_pos (leaf k rfl)
    rw [leaf k rfl]
    rfl

theorem Counted.referred (counted : Counted objs outside rank before world pending leaked cur) (none_ : cur = []) (mem : p ∈ objs)
    (here : o ∈ objs) (ref : o ∈ (world.body p).refs) : o ∉ world.freed ∧ 0 < world.refcnt o := by
  subst none_
  have pos : 0 < world.refcnt o := by
    rw [counted.counts o here]
    have := mem_references mem ref
    omega
  refine ⟨fun freed => ?_,pos⟩
  have := (counted.zero o here).mpr (.inl freed)
  omega

theorem walkDown_last (alive : o ∉ world.freed) (pos : 0 < world.refcnt o) (rounds : Nat) (parent : Option Nat)
    (ends : world.refcnt o = 1 → (world.body o).last = none) : walkDown (rounds + 1) world o parent = .ok (lowered world o,parent) := by
  rw [walkDown,dropRef,if_neg alive,if_neg (by omega),ok_bind]
  dsimp only
  unfold lowered
  by_cases one : world.refcnt o = 1
  · rw [if_neg (not_not.mpr one),ends one,if_pos one]
  · rw [if_pos one,if_neg one]

theorem walkDown_next (alive : o ∉ world.freed) (one : world.refcnt o = 1) (rounds : Nat) (parent : Option Nat)
    (last : (world.body o).last = some po) : walkDown (rounds + 1) world o parent = walkDown rounds world po (some o) := by
  rw [walkDown,dropRef,if_neg alive,if_neg (by omega),ok_bind]
  dsimp only
  rw [if_neg (not_not.mpr one),last]
  dsimp only
  congr 1
  unfold keepRef
  dsimp only
  rw [update_self,update_idem,one]
  have same : update world.refcnt o (1 - 1 + 1) = world.refcnt := by
    rw [update_eq_iff]
    exact ⟨one.symm,fun _ _ => rfl⟩
  rw [same]

-- From an object with one reference, down to an entry whose object stays or is empty.
include graph in
theorem Counted.walk (counted : Counted objs outside rank before world pending leaked []) (rounds : Nat) (parent : Option Nat)
    (mem : o ∈ objs) (alive : o ∉ world.freed) (one : world.refcnt o = 1) (last : (world.body o).last = some po) (enough : rank o < rounds) :
    ∃ p x, p ∈ objs ∧ p ∉ world.freed ∧ rank p ≤ rank o ∧ (world.body p).last = some x ∧
      (world.refcnt x = 1 → (world.body x).last = none) ∧ walkDown (rounds + 1) world o parent = .ok (PropRelease.lowered world x,some p) := by
  induction rounds generalizing o po parent with
  | zero => omega
  | succ rounds ih =>
    obtain ⟨pdk,b,tail⟩ := last_tail last
    have ref : po ∈ (world.body o).refs := by rw [tail.refs]; simp
    obtain ⟨inside,below⟩ := counted.refs_inside graph mem ref
    obtain ⟨alive',pos⟩ := counted.referred rfl mem inside ref
    rw [walkDown_next alive one _ _ last]
    by_cases more : world.refcnt po = 1 ∧ ∃ x, (world.body po).last = some x
    · obtain ⟨x,last'⟩ := more.2
      obtain ⟨p,y,memp,alivep,rankp,lastp,ends,ran⟩ := ih (some o) inside alive' more.1 last' (by omega)
      exact ⟨p,y,memp,alivep,by omega,lastp,ends,ran⟩
    have ends : world.refcnt po = 1 → (world.body po).last = none := by
      intro one'
      by_contra some_
      exact more ⟨one',Option.ne_none_iff_exists'.mp some_⟩
    exact ⟨o,po,mem,alive,Nat.le_refl _,last,ends,walkDown_last alive' pos _ _ ends⟩

include graph in
theorem Counted.emergency (counted : Counted objs outside rank before world pending leaked []) (rounds : Nat) (mem : o ∈ objs)
    (leak : o ∈ leaked) (alive : o ∉ world.freed) (one : world.refcnt o = 1) (last : (world.body o).last = some po) (enough : rank o < rounds) :
    ∃ world', releaseEmergency (rounds + 1) world o = .ok world' ∧ Counted objs outside rank before world' pending leaked [] ∧
      size objs world'.body < size objs world.body := by
  obtain ⟨p,x,memp,alivep,rankp,lastp,ends,ran⟩ := counted.walk graph rounds none mem alive one last enough
  obtain ⟨pdk,b,tail⟩ := last_tail lastp
  have refx : x ∈ (world.body p).refs := by rw [tail.refs]; simp
  have below := (counted.refs_inside graph memp refx).2
  have taken := counted.tail graph memp tail alivep (.inr ⟨o,leak,rankp⟩)
  have first := (taken.perm (show (pdk.toList ++ [x] ++ pending).Perm (x :: (pdk.toList ++ pending)) by
    rw [List.append_assoc]; exact List.perm_middle)).lowered fun single => by
      have other : x ≠ p := by
        rintro rfl
        exact Nat.lt_irrefl _ below
      simp only [update_of_ne other]
      exact last_none (ends single)
  have leaf : ∀ k, pdk = some k → (PropRelease.lowered {world with body := update world.body p b} x).body k = .leaf := by
    rintro k rfl
    have key := counted.key_leaf graph memp tail
    have other : k ≠ p := by
      rintro rfl
      rw [key] at tail
      cases tail
    rw [lowered_body]
    simp only [update_of_ne other]
    exact key
  obtain ⟨world',went,done,same⟩ := first.keys leaf
  refine ⟨world',?_,done,?_⟩
  · have tail' : Tail ((PropRelease.lowered world x).body p) x pdk b := by rw [lowered_body]; exact tail
    rw [releaseEmergency,ran,ok_bind]
    dsimp only
    rw [dropLast_tail _ tail',lowered_body,body_lowered]
    exact went
  rw [same,lowered_body]
  exact size_tail memp tail

include graph in
theorem Sane.turn (sane : Sane objs outside rank before world (o :: stack) leaked pushes) (bound : ∀ x ∈ objs, rank x < rounds)
    (malloc : Nat → Bool) : ∃ world' stack' leaked' pushes',
      PropRelease.turn malloc (rounds + 1) ⟨o,stack,world,pushes⟩ = .ok (pop stack' world' pushes') ∧
      Sane objs outside rank before world' stack' leaked' pushes' ∧
      2 * size objs world'.body + stack'.length < 2 * size objs world.body + (o :: stack).length := by
  have counted := sane.counted
  have mem := counted.inside o (by simp)
  unfold PropRelease.turn
  rw [counted.dropRef_ok,ok_bind]
  dsimp only
  by_cases one : world.refcnt o = 1
  · have torn := counted.last one
    rw [if_neg (not_not.mpr one),potFree]
    cases last : (world.body o).last with
    | none =>
      exact ⟨_,stack,leaked,pushes,rfl,⟨torn.put (last_none last),sane.failed⟩,by simp [PropRelease.put]⟩
    | some po =>
      obtain ⟨pdk,b,tail⟩ := last_tail last
      dsimp only
      cases pushed : propStackPush (malloc pushes.length) stack o with
      | none =>
        have kept := torn.leak
        have same : (keepRef {world with refcnt := update world.refcnt o (world.refcnt o - 1)} o).refcnt o = 1 := by
          rw [torn.kept_ref o]
          simp [one]
        obtain ⟨world',ran,done,less⟩ := kept.emergency graph rounds mem List.mem_cons_self counted.not_torn.1 same last (bound o mem)
        refine ⟨world',stack,o :: leaked,false :: pushes,?_,⟨done,by simp⟩,?_⟩
        · dsimp only
          rw [ok_bind]
          dsimp only
          rw [ran,ok_bind]
        simp only [keepRef] at less
        simp only [List.length_cons]
        omega
      | some stack' =>
        have grown : stack' = o :: stack := by
          unfold propStackPush at pushed
          split at pushed
          · exact (Option.some.inj pushed).symm
          split at pushed
          · exact (Option.some.inj pushed).symm
          · cases pushed
        subst grown
        have taken := torn.tail graph mem tail counted.not_torn.1 (.inl List.mem_cons_self)
        rw [List.append_assoc] at taken
        have leaf : ∀ k, pdk = some k → update world.body o b k = .leaf := by
          rintro k rfl
          have key := counted.key_leaf graph mem tail
          have other : k ≠ o := by
            rintro rfl
            rw [key] at tail
            cases tail
          rw [update_of_ne other]
          exact key
        obtain ⟨world',ran,done,same⟩ := taken.keys leaf
        refine ⟨keepRef world' o,po :: o :: stack,leaked,true :: pushes,?_,⟨?_,by simp [sane.failed]⟩,?_⟩
        · have dropping : dropLast {world with refcnt := update world.refcnt o (world.refcnt o - 1)} o = .ok world' :=
            (dropLast_tail {world with refcnt := update world.refcnt o (world.refcnt o - 1)} tail).trans ran
          dsimp only
          rw [dropping]
          rfl
        · exact done.keep.perm (List.Perm.swap _ _ _)
        have less := size_tail mem tail
        have body : (keepRef world' o).body = update world.body o b := same
        rw [body]
        simp only [List.length_cons]
        omega
  · rw [if_pos one]
    exact ⟨_,stack,leaked,pushes,rfl,⟨counted.drop one,sane.failed⟩,by simp⟩

include graph in
theorem Sane.run (sane : Sane objs outside rank before world (o :: stack) leaked pushes) (bound : ∀ x ∈ objs, rank x < rounds)
    (malloc : Nat → Bool) (turns : Nat) (enough : 2 * size objs world.body + (o :: stack).length ≤ turns) :
    ∃ after leaked' pushes', Turns.run (PropRelease.turn malloc (rounds + 1)) turns ⟨o,stack,world,pushes⟩ = .ok (after,pushes') ∧
      Sane objs outside rank before after [] leaked' pushes' := by
  induction turns generalizing o stack world leaked pushes with
  | zero => simp at enough
  | succ turns ih =>
    obtain ⟨world',stack',leaked',pushes',ran,next,less⟩ := sane.turn graph bound malloc
    rw [Turns.run,ran,ok_bind]
    cases stack' with
    | nil => exact ⟨world',leaked',pushes',rfl,next⟩
    | cons obj stack' => exact ih next (by omega)
end Steps

theorem Counted.left (counted : Counted objs outside rank before after [] leaked []) (mem : o ∈ objs) :
    after.refcnt o = outside o + leaked.count o + references objs after.body o ∧ (after.refcnt o = 0 ↔ o ∈ after.freed) := by
  refine ⟨?_,by simpa using counted.zero o mem⟩
  rw [counted.counts o mem,List.count_nil,Nat.add_zero]

theorem Counted.freed_dead (graph : Graph objs outside rank root before) (counted : Counted objs outside rank before after [] [] [])
    (freed : o ∈ after.freed) : Dead objs outside before.body o := by
  -- From the roots down.
  suffices down : ∀ n o, o ∈ after.freed → objs.sup rank - rank o < n → Dead objs outside before.body o from
    down _ o freed (Nat.lt_succ_self _)
  intro n
  induction n with
  | zero => intro o _ less; omega
  | succ n ih =>
    intro o freed less
    have mem := counted.inside o (by simpa using freed)
    obtain ⟨counts,zero⟩ := counted.left mem
    have none_ := zero.mpr freed
    refine .mk (by omega) fun p memp ref => ?_
    have changed : after.body p ≠ before.body p := by
      intro same
      rw [← same] at ref
      exact references_zero (by omega) memp ref
    have above : rank o < rank p := graph.acyclic p memp o ref
    have top : rank p ≤ objs.sup rank := Finset.le_sup memp
    rcases counted.touched p memp changed with gone | torn | ⟨listed,_⟩ | ⟨_,leak,_⟩
    · exact ih p gone (by omega)
    · cases torn
    · cases listed
    · cases leak

theorem Counted.dead_freed (counted : Counted objs outside rank before after [] [] []) (dead : Dead objs outside before.body o)
    (mem : o ∈ objs) : o ∈ after.freed := by
  induction dead with
  | @mk o none_ _ ih =>
    obtain ⟨counts,zero⟩ := counted.left mem
    have unreferred : references objs after.body o = 0 := by
      refine sum_eq_zero fun p memp => ?_
      rw [List.count_eq_zero]
      intro ref
      have empty := counted.emptied p (ih p memp ((counted.shrunk p memp).refs_subset ref) memp)
      rw [empty] at ref
      cases ref
    rw [List.count_nil] at counts
    exact zero.mp (by omega)

open Classical in
theorem dropped_left (graph : Graph objs outside rank root before) (mem : o ∈ objs) :
    before.refcnt o = outside o + dropped objs outside before.body root o +
      ∑ p ∈ objs with ¬Dead objs outside before.body p, (before.body p).refs.count o := by
  have parts := sum_filter_add_sum_filter_not objs (Dead objs outside before.body) fun p => (before.body p).refs.count o
  have counts := graph.counted o mem
  unfold references at counts
  unfold dropped
  rw [counts,← parts]
  omega

open Classical in
theorem Counted.released (graph : Graph objs outside rank root before) (counted : Counted objs outside rank before after [] [] []) :
    Released objs outside root before after where
  once := counted.once
  dead := fun o => ⟨fun freed => ⟨counted.inside o (by simpa using freed),counted.freed_dead graph freed⟩,
    fun dead => counted.dead_freed dead.2 dead.1⟩
  counts := by
    intro o mem alive
    have kept : references objs after.body o = ∑ p ∈ objs with ¬Dead objs outside before.body p, (before.body p).refs.count o := by
      have parts := sum_filter_add_sum_filter_not objs (Dead objs outside before.body) fun p => (after.body p).refs.count o
      have gone : ∑ p ∈ objs with Dead objs outside before.body p, (after.body p).refs.count o = 0 := by
        refine sum_eq_zero fun p mem => ?_
        rw [mem_filter] at mem
        rw [counted.emptied p (counted.dead_freed mem.2 mem.1)]
        rfl
      rw [references,← parts,gone,Nat.zero_add]
      refine sum_congr rfl fun p mem => ?_
      rw [mem_filter] at mem
      by_contra changed
      rcases counted.touched p mem.1 (fun same => changed (by rw [same])) with freed | torn | ⟨listed,_⟩ | ⟨_,leak,_⟩
      · exact mem.2 (counted.freed_dead graph freed)
      · cases torn
      · cases listed
      · cases leak
    obtain ⟨counts,_⟩ := counted.left mem
    rw [counts,dropped_left graph mem,kept,List.count_nil]
    omega

open Classical in
theorem Counted.not_released (graph : Graph objs outside rank root before) (counted : Counted objs outside rank before after [] leaked [])
    (failed : leaked ≠ []) : ¬Released objs outside root before after := by
  intro released
  obtain ⟨o,leak,top⟩ := leaked.toFinset.exists_max_image rank ⟨leaked.head failed,by simp⟩
  rw [List.mem_toFinset] at leak
  have mem := counted.inside o (by simp [leak])
  obtain ⟨counts,zero⟩ := counted.left mem
  have one := List.count_pos_iff.mpr leak
  have alive : o ∉ after.freed := fun freed => by
    have := zero.mpr freed
    omega
  have lowers := released.counts o mem alive
  have kept : ∑ p ∈ objs with ¬Dead objs outside before.body p, (before.body p).refs.count o ≤ references objs after.body o := by
    refine (sum_le_sum fun p mem => ?_).trans (sum_le_sum_of_subset (filter_subset _ _))
    rw [mem_filter] at mem
    by_cases ref : o ∈ (before.body p).refs
    · have above := graph.acyclic p mem.1 o ref
      have same : after.body p = before.body p := by
        by_contra changed
        rcases counted.touched p mem.1 changed with freed | torn | ⟨listed,_⟩ | ⟨q,leak,below⟩
        · exact mem.2 ((released.dead p).mp freed).2
        · cases torn
        · cases listed
        have := top q (List.mem_toFinset.mpr leak)
        omega
      rw [same]
    rw [List.count_eq_zero.mpr ref]
    exact Nat.zero_le _
  rw [dropped_left graph mem] at lowers
  omega

-- Objects 0 .. n, each an array of the next one, the last one a leaf.
def nested (n : Nat) : World where
  body := fun i => if i < n then .array [i + 1] else .leaf
  refcnt := fun _ => 1
  freed := []

theorem nested_refs (n p o : Nat) : ((nested n).body p).refs.count o = if p < n ∧ p + 1 = o then 1 else 0 := by
  unfold nested
  dsimp only
  split
  · next low =>
    rw [Body.refs,List.count_singleton]
    by_cases same : p + 1 = o
    · simp [same,low]
    · simp [same]
  rw [if_neg (by omega)]
  rfl

theorem nested_mem (n : Nat) (ref : o ∈ ((nested n).body p).refs) : p < n ∧ p + 1 = o := by
  have := List.count_pos_iff.mpr ref
  rw [nested_refs] at this
  by_contra no
  rw [if_neg no] at this
  omega

theorem nested_references (n : Nat) (bound : o ≤ n) : references (range (n + 1)) (nested n).body o = if o = 0 then 0 else 1 := by
  unfold references
  simp only [nested_refs]
  split_ifs with zero
  · exact sum_eq_zero fun p _ => if_neg (by omega)
  rw [sum_eq_single (o - 1)]
  · exact if_pos (by omega)
  · exact fun p _ other => if_neg (by omega)
  intro out
  rw [mem_range] at out
  omega

theorem nested_graph (n : Nat) : Graph (range (n + 1)) (fun _ => 0) (fun i => n - i) 0 (nested n) where
  fresh := rfl
  rooted := by simp
  closed := fun p _ o ref => by
    have := nested_mem n ref
    rw [mem_range]
    omega
  acyclic := fun p _ o ref => by
    have := nested_mem n ref
    omega
  keys := fun p _ entries is => by
    unfold nested at is
    dsimp only at is
    split at is
    · cases is
    · cases is
  counted := fun o mem => by
    rw [mem_range] at mem
    rw [nested_references n (by omega)]
    by_cases zero : o = 0
    · simp [zero,nested]
    · simp [zero,nested]
  used := fun _ _ => Nat.one_pos

-- Every call returns. It drops the reference and frees what is dead if and only if
-- each push succeeds.
theorem release_settled (graph : Graph objs outside rank root before) : ∃ enough, ∀ rounds, enough ≤ rounds → ∀ malloc,
    ∃ after pushes, propObjectRelease malloc rounds before root = .ok (after,pushes) ∧
      (Released objs outside root before after ↔ false ∉ pushes) := by
  refine ⟨2 * size objs before.body + objs.sup rank + 2,fun rounds enough malloc => ?_⟩
  have sane : Sane objs outside rank before before [root] [] [] := ⟨graph.start,by simp⟩
  obtain ⟨rounds,rfl⟩ : ∃ n, rounds = n + 1 := ⟨rounds - 1,by omega⟩
  have bound : ∀ x ∈ objs, rank x < rounds := fun x mem => by
    have : rank x ≤ objs.sup rank := Finset.le_sup mem
    omega
  obtain ⟨after,leaked,pushes,ran,done⟩ := sane.run graph bound malloc (rounds + 1) (by simp; omega)
  refine ⟨after,pushes,ran,?_⟩
  rw [← done.failed]
  constructor
  · intro released
    by_contra failed
    exact done.counted.not_released graph failed released
  · rintro rfl
    exact done.counted.released graph

theorem release_settled_nested : ∃ rounds after pushes, propObjectRelease (fun _ => true) rounds (nested 2) 0 = .ok (after,pushes) ∧
    (Released (range 3) (fun _ => 0) 0 (nested 2) after ↔ false ∉ pushes) := by
  obtain ⟨enough,returns⟩ := release_settled (nested_graph 2)
  obtain ⟨after,pushes,ran,settled⟩ := returns enough (Nat.le_refl _) fun _ => true
  exact ⟨enough,after,pushes,ran,settled⟩

-- Seventeen nested arrays, and no memory for the seventeenth push.
theorem release_leaks : ∃ after pushes, propObjectRelease (fun _ => false) 60 (nested 17) 0 = .ok (after,pushes) ∧
    ¬Released (range 18) (fun _ => 0) 0 (nested 17) after := by
  have failed : (match propObjectRelease (fun _ => false) 60 (nested 17) 0 with
    | .ok (_,pushes) => pushes.contains false
    | .error _ => false) = true := by decide +kernel
  have graph := nested_graph 17
  have sane : Sane (range 18) (fun _ => 0) (fun i => 17 - i) (nested 17) (nested 17) [0] [] [] := ⟨graph.start,by simp⟩
  obtain ⟨after,leaked,pushes,ran,done⟩ := sane.run graph (show ∀ x ∈ range 18, 17 - x < 59 by intro x _; omega) (fun _ => false) 60
    (show 2 * size (range 18) (nested 17).body + 1 ≤ 60 by decide)
  have returned : propObjectRelease (fun _ => false) 60 (nested 17) 0 = .ok (after,pushes) := ran
  refine ⟨after,pushes,returned,done.counted.not_released graph fun none_ => done.failed.mp none_ ?_⟩
  rw [returned] at failed
  simpa using failed
end NetbsdAvr32.PropRelease
