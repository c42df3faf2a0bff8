import NetbsdAvr32.BlistTree

-- The children of a collapsed node, and blst_meta_alloc.
namespace NetbsdAvr32.Blist
open Sweep Outcome Finset

theorem Shape.probe (shape : Shape m blocks (level + 1) scan blk) (inside : j < 16)
    (before : ∀ k < j, childBlk level blk k < blocks) :
    childAt level scan j < m.size ∧ ((m.node (childAt level scan j)).bmBighint = blistNone ↔ blocks ≤ childBlk level blk j) := by
  by_cases real : childBlk level blk j < blocks
  · obtain ⟨present,hint⟩ := (shape.child inside real).root
    exact ⟨present,fun mark => (hint mark).elim,fun past => by omega⟩
  obtain ⟨present,mark⟩ := (shape.2.2 j inside).2 (by omega) before
  exact ⟨present,fun _ => by omega,fun _ => mark⟩

structure Below (hints : Prop) (m t : Mem) (blocks : Nat) (free : Nat → Finset Nat) (level scan blk : Nat) : Prop where
  kept : Kept m t scan (skipAt (level + 1))
  shape : Shape t blocks (level + 1) scan blk
  kids : Kids hints t blocks free level scan blk

theorem kept_child (kept : Kept m t (childAt level scan j) (skipAt level)) (inside : j < 16) :
    Kept m t scan (skipAt (level + 1)) := by
  have low := lt_childAt level scan j
  have high := childAt_end level scan inside
  exact kept.widen (by omega) high

theorem shape_setChild (shape : Shape m blocks (level + 1) scan blk) (inside : j < 16) (real : childBlk level blk j < blocks)
    (hint : node.bmBighint ≠ blistNone) : Shape (m.set (childAt level scan j) node) blocks (level + 1) scan blk :=
  shape.setChild inside real (kept_set le_rfl (by omega)) ((shape.child inside real).setRoot hint)

theorem children_loop (inv left : Nat → σ → Prop) {body : Nat → σ → Except Halt (Round σ)}
    (round : ∀ j s, j < 16 → inv j s → Carries body (skipAt level + 1) inv left j s)
    (j : Nat) (inside : j ≤ 16) (start : inv j s) :
    ∃ k t, forLoop (skipAt (level + 1)) (skipAt level + 1) body (blistMetaRadix + 1) (1 + j * (skipAt level + 1)) s =
      .ok (1 + k * (skipAt level + 1),t) ∧ k ≤ 16 ∧ (k = 16 ∧ inv k t ∨ k < 16 ∧ left k t) :=
  forLoop_rule (Nat.succ_pos _) rfl round j inside start _ (by unfold blistMetaRadix; omega)

structure Sublevel (leaf inner : BlMeta) (m : Mem) (blocks level scan blk j : Nat) (t : Mem) : Prop where
  kept : Kept m t scan (skipAt (level + 1))
  root : t.node scan = m.node scan
  shape : Shape t blocks (level + 1) scan blk
  done : ∀ k < j, childBlk level blk k < blocks ∧ t.node (childAt level scan k) = if level = 0 then leaf else inner

theorem sublevelRound_spec {leaf inner : BlMeta} (leafHint : leaf.bmBighint ≠ blistNone) (innerHint : inner.bmBighint ≠ blistNone)
    (inside : j < 16) (held : Sublevel leaf inner m blocks level scan blk j t) :
    Carries (sublevelRound leaf inner scan (skipAt level + 1)) (skipAt level + 1) (Sublevel leaf inner m blocks level scan blk)
      (fun j t => Sublevel leaf inner m blocks level scan blk j t ∧ blocks ≤ childBlk level blk j) j t := by
  obtain ⟨present,mark⟩ := held.shape.probe inside fun k lt => (held.done k lt).1
  have below := lt_childAt level scan j
  have read : fetch t (scan + (1 + j * (skipAt level + 1))) = .ok (t.node (childAt level scan j)) := fetch_ok present
  by_cases ends : (t.node (childAt level scan j)).bmBighint = blistNone
  · refine .inr ⟨t,?_,held,mark.mp ends⟩
    rw [sublevelRound,read,ok_bind,if_pos ends]
  have real : childBlk level blk j < blocks := by
    by_contra past
    exact ends (mark.mpr (by omega))
  have hint : (if level = 0 then leaf else inner).bmBighint ≠ blistNone := by
    split
    · exact leafHint
    · exact innerHint
  have written : store t (scan + (1 + j * (skipAt level + 1))) (if skipAt level + 1 = 1 then leaf else inner) =
      .ok (t.set (childAt level scan j) (if level = 0 then leaf else inner)) := by
    simp only [skipAt_leaf]
    exact store_ok present
  refine .inl ⟨t.set (childAt level scan j) (if level = 0 then leaf else inner),?_,?_,?_,?_,fun k lt => ?_⟩
  · rw [sublevelRound,read,ok_bind,if_neg ends,written]
    rfl
  · exact held.kept.trans (kept_child (kept_set le_rfl (by omega)) inside)
  · rw [set_other (by omega)]
    exact held.root
  · exact shape_setChild held.shape inside real hint
  by_cases last : k = j
  · subst k
    exact ⟨real,set_same _ _ _⟩
  have lt : k < j := by omega
  have apart := childAt_before level scan lt
  rw [set_other (by omega)]
  exact held.done k lt

theorem initSublevel_spec (leaf inner : BlMeta) (shape : Shape m blocks (level + 1) scan blk) (leafHint : leaf.bmBighint ≠ blistNone)
    (innerHint : inner.bmBighint ≠ blistNone) :
    ∃ t, initSublevel leaf inner m scan (skipAt (level + 1)) (skipAt level + 1) = .ok t ∧
      Kept m t scan (skipAt (level + 1)) ∧ t.node scan = m.node scan ∧ Shape t blocks (level + 1) scan blk ∧
      ∀ j < 16, childBlk level blk j < blocks → t.node (childAt level scan j) = if level = 0 then leaf else inner := by
  obtain ⟨k,t,ran,inside,ends⟩ := children_loop _ _ (fun j t inside held => sublevelRound_spec leafHint innerHint inside held)
    0 (by omega) ⟨Kept.refl m scan _,rfl,shape,fun k lt => by omega⟩
  rw [Nat.zero_mul] at ran
  refine ⟨t,?_,?_⟩
  · rw [initSublevel,ran]
    rfl
  rcases ends with ⟨rfl,held⟩ | ⟨lt,held,past⟩
  · exact ⟨held.kept,held.root,held.shape,fun j inside _ => (held.done j inside).2⟩
  refine ⟨held.kept,held.root,held.shape,fun j inside real => (held.done j ?_).2⟩
  by_contra late
  have := childBlk_mono level blk (Nat.le_of_not_lt late)
  omega

theorem open_children (shape : Shape m blocks (level + 1) scan blk) (tree : Tree hints m blocks free (level + 1) scan blk)
    (small : radixAt level < blistNone) (some : (m.node scan).u ≠ 0) :
    ∃ t, (if (m.node scan).u = radixAt (level + 1) then
        allFree m scan (radixAt (level + 1) / blistMetaRadix) (skipAt (level + 1)) (skipAt level + 1) else .ok m) = .ok t ∧
      t.node scan = m.node scan ∧ Below hints m t blocks (fun _ => free) level scan blk := by
  obtain ⟨avail,-,children⟩ := tree
  split_ifs with whole
  · rw [radixAt_div]
    have full (b : Nat) (low : blk ≤ b) (high : b < blk + radixAt (level + 1)) : b ∈ free :=
      of_card_full (avail.symm.trans whole) low high
    obtain ⟨t,ran,kept,root,shaped,values⟩ := initSublevel_spec ⟨2 ^ 32 - 1,blistBmapRadix⟩
      ⟨radixAt level,radixAt level⟩ shape (show blistBmapRadix ≠ blistNone by decide)
      (show radixAt level ≠ blistNone by omega)
    refine ⟨t,ran,root,kept,shaped,fun j inside real => ?_⟩
    have value := values j inside real
    have first := le_childBlk level blk j
    have last := childBlk_end level blk inside
    refine tree_full ?_ ?_ fun b low high => full b (by omega) (by omega)
    · rw [value]
      split <;> rfl
    rw [value]
    split
    · exact le_rfl
    · exact le_radixAt level
  · have le := card_inter_le free (level + 1) blk
    exact ⟨m,rfl,rfl,Kept.refl _ _ _,shape,children (by omega) (by omega)⟩

def AllocSpec (hints : Prop) (blocks : Nat) (free : Finset Nat) (level count : Nat)
    (alloc : Mem → Nat → Nat → Except Halt (Nat × Mem)) : Prop :=
  ∀ m scan blk, Shape m blocks level scan blk → Tree hints m blocks free level scan blk → blk % 32 = 0 →
    blk + radixAt level < blistNone →
    ∃ r t, alloc m scan blk = .ok (r,t) ∧ Allocates hints m t blocks free level scan blk count r

structure Searching (hints : Prop) (m : Mem) (blocks : Nat) (free : Finset Nat) (level scan blk count j : Nat)
    (s : Mem × Nat × Nat) : Prop where
  at_ : s.2.1 = childBlk level blk j
  none : s.2.2 = blistNone
  root : s.1.node scan = m.node scan
  below : Below hints m s.1 blocks (fun _ => free) level scan blk
  real : ∀ k < j, childBlk level blk k < blocks
  unfit : hints → ∀ k < j, ¬Fits free level (childBlk level blk k) count

def Searched (hints : Prop) (m : Mem) (blocks : Nat) (free : Finset Nat) (level scan blk count j : Nat)
    (s : Mem × Nat × Nat) : Prop :=
  Searching hints m blocks free level scan blk count j s ∧ blocks ≤ childBlk level blk j ∨
    s.2.2 ≠ blistNone ∧ Finset.Ico s.2.2 (s.2.2 + count) ⊆ free ∧ blk ≤ s.2.2 ∧ s.2.2 + count ≤ blk + radixAt (level + 1) ∧
      s.1.node scan = m.node scan ∧
      Below hints m s.1 blocks (fun _ => free \ Finset.Ico s.2.2 (s.2.2 + count)) level scan blk

theorem Searching.next (held : Searching hints m blocks free level scan blk count j (u,childBlk level blk j,blistNone))
    (inside : j < 16) (high : blk + radixAt (level + 1) < blistNone) (real : childBlk level blk j < blocks)
    (kept : Kept u t (childAt level scan j) (skipAt level)) (shape : Shape t blocks level (childAt level scan j) (childBlk level blk j))
    (tree : Tree hints t blocks free level (childAt level scan j) (childBlk level blk j))
    (unfit : hints → ¬Fits free level (childBlk level blk j) count) :
    Searching hints m blocks free level scan blk count (j + 1)
      (t,word (childBlk level blk j + radixAt level),blistNone) where
  at_ := by
    have last := childBlk_end level blk inside
    rw [childBlk_succ]
    exact word_of_lt (by unfold blistNone at high; omega)
  none := rfl
  root := (kept.outside scan (.inl (lt_childAt level scan j))).trans held.root
  below := ⟨held.below.kept.trans (kept_child kept inside),held.below.shape.setChild inside real kept shape,
    held.below.kids.setChild kept tree fun _ _ _ _ _ _ => Iff.rfl⟩
  real := by
    intro k lt
    by_cases last : k = j
    · exact last ▸ real
    · exact held.real k (by omega)
  unfit := by
    intro on k lt
    by_cases last : k = j
    · exact last ▸ unfit on
    · exact held.unfit on k (by omega)

theorem allocRound_spec (spec : AllocSpec hints blocks free level count alloc) (aligned : blk % 32 = 0)
    (high : blk + radixAt (level + 1) < blistNone) (le : count ≤ 32) (inside : j < 16)
    (held : Searching hints m blocks free level scan blk count j s) :
    Carries (allocRound alloc scan count (radixAt level)) (skipAt level + 1) (Searching hints m blocks free level scan blk count)
      (Searched hints m blocks free level scan blk count) j s := by
  obtain ⟨u,b,r⟩ := s
  obtain rfl : b = childBlk level blk j := held.at_
  obtain rfl : r = blistNone := held.none
  obtain ⟨present,mark⟩ := held.below.shape.probe inside held.real
  have read : fetch u (scan + (1 + j * (skipAt level + 1))) = .ok (u.node (childAt level scan j)) := fetch_ok present
  have first := le_childBlk level blk j
  have last := childBlk_end level blk inside
  unfold Carries allocRound
  dsimp only
  rw [read]
  simp only [ok_bind]
  split
  · next ends =>
    exact .inr ⟨_,rfl,.inl ⟨held,mark.mp ends⟩⟩
  next ends =>
  have real : childBlk level blk j < blocks := by
    by_contra past
    exact ends (mark.mpr (by omega))
  have shape := held.below.shape.child inside real
  have tree := held.below.kids j inside real
  by_cases fits : count ≤ (u.node (childAt level scan j)).bmBighint
  · obtain ⟨r,t,ran,kept,shaped,answer⟩ := spec u _ _ shape tree (childBlk_aligned aligned level j) (by omega)
    change alloc u (scan + (1 + j * (skipAt level + 1))) (childBlk level blk j) = _ at ran
    rw [if_pos fits,ran,ok_bind]
    rcases answer with ⟨rfl,kid,unfit⟩ | ⟨found,run,low,top,kid⟩
    · exact .inl ⟨_,rfl,held.next inside high real kept shaped kid unfit⟩
    rw [if_pos found]
    refine .inr ⟨_,rfl,.inr ⟨found,run,first.trans low,top.trans last,?_,?_⟩⟩
    · exact (kept.outside scan (.inl (lt_childAt level scan j))).trans held.root
    refine ⟨held.below.kept.trans (kept_child kept inside),held.below.shape.setChild inside real kept shaped,
      held.below.kids.setChild kept kid fun k _ other b from_ to_ => ?_⟩
    have out : b ∉ Finset.Ico r (r + count) := by
      intro mem
      have bounds := mem_Ico.mp mem
      exact other (child_unique ⟨from_,to_⟩ ⟨by omega,by omega⟩)
    rw [mem_sdiff]
    exact ⟨fun mem => ⟨mem,out⟩,fun mem => mem.1⟩
  have radix := le_radixAt level
  rw [if_neg fits,if_neg (by omega)]
  exact .inl ⟨_,rfl,held.next inside high real (Kept.refl _ _ _) shape tree
    fun on found => fits (tree.hint on count found)⟩

theorem tree_node (avail : (m.node scan).u = (free ∩ blocksOf (level + 1) blk).card)
    (hint : hints → Hint m free (level + 1) scan blk) (kids : Kids hints m blocks (fun _ => free) level scan blk) :
    Tree hints m blocks free (level + 1) scan blk :=
  ⟨avail,hint,fun _ _ => kids⟩

theorem card_take (run : Finset.Ico r (r + count) ⊆ free) (low : blk ≤ r) (high : r + count ≤ blk + radixAt level) :
    ((free \ Finset.Ico r (r + count)) ∩ blocksOf level blk).card + count = (free ∩ blocksOf level blk).card := by
  have inside : Finset.Ico r (r + count) ⊆ free ∩ blocksOf level blk := by
    intro b mem
    have bounds := mem_Ico.mp mem
    exact mem_inter.mpr ⟨run mem,mem_Ico.mpr (by omega)⟩
  have same : (free \ Finset.Ico r (r + count)) ∩ blocksOf level blk = (free ∩ blocksOf level blk) \ Finset.Ico r (r + count) :=
    sdiff_inter_right_comm _ _ _
  have size : (Finset.Ico r (r + count)).card = count := by simp
  have := card_sdiff_add_card_eq_card inside
  rw [same]
  omega

theorem searching_failed (held : Searching hints m blocks free level scan blk count j s) (past : j = 16 ∨ blocks ≤ childBlk level blk j)
    (within : ∀ b ∈ free, b < blocks) (aligned : blk % 32 = 0) (some : 0 < count) (on : hints) : ¬Fits free (level + 1) blk count := by
  intro fits
  obtain ⟨k,inside,found⟩ := fits.child aligned
  by_cases before : k < j
  · exact held.unfit on k before found
  rcases past with rfl | past
  · omega
  obtain ⟨leaf,s,low,high,-,from_,to_,run⟩ := found
  have mem : s ∈ free := run (mem_Ico.mpr (by omega))
  have := within s mem
  have := childBlk_mono level blk (Nat.le_of_not_lt before)
  omega

theorem metaAlloc_spec (depth : Nat) (shape : Shape m blocks (level + 1) scan blk) (tree : Tree hints m blocks free (level + 1) scan blk)
    (aligned : blk % 32 = 0) (high : blk + radixAt (level + 1) < blistNone) (within : ∀ b ∈ free, b < blocks)
    (some : 0 < count) (le : count ≤ 32)
    (spec : AllocSpec hints blocks free level count fun m scan blk =>
      if skipAt level + 1 = 1 then blstLeafAlloc m scan blk count
      else blstMetaAlloc depth m scan blk count (radixAt level) (skipAt level + 1 - 1)) :
    ∃ r t, blstMetaAlloc (depth + 1) m scan blk count (radixAt (level + 1)) (skipAt (level + 1)) = .ok (r,t) ∧
      Allocates hints m t blocks free (level + 1) scan blk count r := by
  have avail := tree.1
  have small := card_inter_le free (level + 1) blk
  have fetched (t : Mem) (shape : Shape t blocks (level + 1) scan blk) : fetch t scan = .ok (t.node scan) := fetch_ok shape.root.1
  have stored (t : Mem) (node : BlMeta) (shape : Shape t blocks (level + 1) scan blk) : store t scan node = .ok (t.set scan node) :=
    store_ok shape.root.1
  rw [blstMetaAlloc,skipAt_div]
  dsimp only
  rw [fetched m shape,ok_bind]
  by_cases zero : (m.node scan).u = 0
  · have empty (b : Nat) (low : blk ≤ b) (high : b < blk + radixAt (level + 1)) : b ∉ free :=
      of_card_zero (avail.symm.trans zero) low high
    rw [if_pos zero,stored m _ shape,ok_bind]
    refine ⟨_,_,rfl,kept_set le_rfl (by omega),shape.setRoot ?_,.inl ⟨rfl,tree_empty ?_ empty,fun _ fits => ?_⟩⟩
    · dsimp only
      unfold blistNone
      omega
    · rw [set_same]
      exact zero
    have := fits.card
    omega
  rw [if_neg zero]
  have fit : radixAt level < blistNone := by
    rw [radixAt_succ] at high
    omega
  obtain ⟨m₁,opened,root,below⟩ := open_children shape tree fit zero
  rw [opened,ok_bind,radixAt_div]
  have start : Searching hints m₁ blocks free level scan blk count 0 (m₁,blk,blistNone) :=
    ⟨by simp [childBlk],rfl,rfl,⟨Kept.refl _ _ _,below.shape,below.kids⟩,fun k lt => by omega,fun _ k lt => by omega⟩
  obtain ⟨j,⟨t,b,r⟩,ran,inside,ends⟩ := children_loop _ _
    (fun j s inside held => allocRound_spec spec aligned high le inside held) 0 (by omega) start
  rw [Nat.zero_mul] at ran
  rw [ran,ok_bind]
  dsimp only
  have cases : (Searching hints m₁ blocks free level scan blk count j (t,b,r) ∧ (j = 16 ∨ blocks ≤ childBlk level blk j)) ∨
      r ≠ blistNone ∧ Finset.Ico r (r + count) ⊆ free ∧ blk ≤ r ∧ r + count ≤ blk + radixAt (level + 1) ∧
      t.node scan = m₁.node scan ∧ Below hints m₁ t blocks (fun _ => free \ Finset.Ico r (r + count)) level scan blk := by
    rcases ends with ⟨last,held⟩ | ⟨_,⟨held,past⟩ | found⟩
    · exact .inl ⟨held,.inl last⟩
    · exact .inl ⟨held,.inr past⟩
    · exact .inr found
  rcases cases with ⟨held,past⟩ | ⟨found,run,low,top,same,kids⟩
  · have unfit := searching_failed held past within aligned some
    obtain rfl : r = blistNone := held.none
    have node : t.node scan = m.node scan := held.root.trans root
    rw [fetched t held.below.shape,ok_bind,if_neg (fun ne => ne rfl),stored t _ held.below.shape,ok_bind,
      less_of_le (by omega) (by omega)]
    refine ⟨_,_,rfl,(below.kept.trans held.below.kept).trans (kept_set le_rfl (by omega)),held.below.shape.setRoot ?_,
      .inl ⟨rfl,tree_node ?_ ?_ held.below.kids.setRoot,unfit⟩⟩
    · dsimp only
      split
      · unfold blistNone
        omega
      · exact held.below.shape.root.2
    · rw [set_same]
      rw [node,avail]
    intro on fewer fits
    have := tree.hint on fewer fits
    have lower : fewer < count := by
      by_contra more
      exact unfit on (fits.le (by omega))
    rw [set_same,node]
    dsimp only
    split <;> omega
  have node : t.node scan = m.node scan := same.trans root
  have taken := card_take run low top
  rw [fetched t kids.shape,ok_bind,if_pos found,stored t _ kids.shape,ok_bind,node,
    less_of_le (by omega) (by unfold blistNone at high; omega)]
  refine ⟨_,_,rfl,(below.kept.trans kids.kept).trans (kept_set le_rfl (by omega)),kids.shape.setRoot ?_,
    .inr ⟨found,run,low,top,tree_node ?_ ?_ kids.kids.setRoot⟩⟩
  · have := shape.root.2
    dsimp only
    split
    · omega
    · exact this
  · rw [set_same]
    change (m.node scan).u - count = _
    omega
  intro on fewer fits
  have old := tree.hint on fewer (fits.mono fun b _ _ mem => (mem_sdiff.mp mem).1)
  have few := fits.card
  rw [set_same]
  dsimp only
  split <;> omega

theorem alloc_spec (within : ∀ b ∈ free, b < blocks) (some : 0 < count) (le : count ≤ 32) (level depth : Nat) (deep : level ≤ depth) :
    AllocSpec hints blocks free level count fun m scan blk =>
      if skipAt level + 1 = 1 then blstLeafAlloc m scan blk count
      else blstMetaAlloc depth m scan blk count (radixAt level) (skipAt level + 1 - 1) := by
  induction level generalizing depth with
  | zero =>
    intro m scan blk shape tree aligned high
    dsimp only
    refine leafAlloc_spec shape tree aligned ?_ some le
    exact high
  | succ level ih =>
    intro m scan blk shape tree aligned high
    obtain ⟨depth,rfl⟩ : ∃ d, depth = d + 1 := ⟨depth - 1,by omega⟩
    dsimp only
    exact metaAlloc_spec depth shape tree aligned high within some le (ih depth (by omega))
end NetbsdAvr32.Blist
