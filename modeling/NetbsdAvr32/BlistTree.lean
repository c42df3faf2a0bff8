import Mathlib.Data.Finset.Interval
import Mathlib.Order.Interval.Finset.Nat
import Mathlib.Tactic.Ring
import NetbsdAvr32.BlistMap

-- The shape of the array, what a tree says about the free blocks, and what a
-- change below one node leaves alone.
namespace NetbsdAvr32.Blist
open Finset BitVec Outcome

theorem word_of_lt (small : n < 2 ^ 32) : word n = n := Nat.mod_eq_of_lt small

theorem less_of_le (le : m ≤ n) (small : n < 2 ^ 32) : less n m = n - m := by
  unfold less word
  omega

def radixAt (level : Nat) : Nat := 32 * 16 ^ level

def skipAt : Nat → Nat
  | 0 => 0
  | level + 1 => 16 * (skipAt level + 1)

section
variable (level : Nat)
include level

theorem radixAt_succ : radixAt (level + 1) = 16 * radixAt level := by
  unfold radixAt
  ring

theorem le_radixAt : 32 ≤ radixAt level := by
  have := Nat.one_le_pow level 16 (by decide)
  unfold radixAt
  omega

theorem radixAt_pos : 0 < radixAt level :=
  Nat.lt_of_lt_of_le (by decide) (le_radixAt level)

theorem radixAt_div : radixAt (level + 1) / blistMetaRadix = radixAt level := by
  rw [radixAt_succ]
  exact Nat.mul_div_cancel_left _ (by decide)

theorem skipAt_div : skipAt (level + 1) / blistMetaRadix = skipAt level + 1 :=
  Nat.mul_div_cancel_left _ (by decide)

theorem skipAt_leaf : skipAt level + 1 = 1 ↔ level = 0 := by
  cases level with
  | zero => simp [skipAt]
  | succ level => simp [skipAt]

theorem radixAt_leaf : radixAt level = blistBmapRadix ↔ level = 0 := by
  cases level with
  | zero => simp [radixAt,blistBmapRadix]
  | succ level =>
    have := le_radixAt level
    rw [radixAt_succ]
    simp only [blistBmapRadix,Nat.add_eq_zero_iff,one_ne_zero,and_false,iff_false]
    omega
end

theorem radixAt_mono (le : level ≤ top) : radixAt level ≤ radixAt top :=
  Nat.mul_le_mul_left _ (Nat.pow_le_pow_right (by decide) le)

def childAt (level scan j : Nat) : Nat := scan + (1 + j * (skipAt level + 1))
def childBlk (level blk j : Nat) : Nat := blk + j * radixAt level

theorem childBlk_succ (level blk j : Nat) : childBlk level blk (j + 1) = childBlk level blk j + radixAt level := by
  unfold childBlk
  rw [Nat.succ_mul]
  omega

theorem childBlk_mono (level blk : Nat) (le : j ≤ k) : childBlk level blk j ≤ childBlk level blk k :=
  Nat.add_le_add_left (Nat.mul_le_mul_right _ le) _

theorem childBlk_last (level blk : Nat) : childBlk level blk 16 = blk + radixAt (level + 1) := by
  rw [radixAt_succ]
  rfl

theorem childBlk_end (level blk : Nat) (inside : j < 16) : childBlk level blk j + radixAt level ≤ blk + radixAt (level + 1) := by
  rw [← childBlk_succ,← childBlk_last]
  exact childBlk_mono level blk inside

theorem le_childBlk (level blk j : Nat) : blk ≤ childBlk level blk j := Nat.le_add_right _ _

theorem lt_childAt (level scan j : Nat) : scan < childAt level scan j := by
  unfold childAt
  omega

theorem childAt_succ (level scan j : Nat) : childAt level scan (j + 1) = childAt level scan j + (skipAt level + 1) := by
  unfold childAt
  rw [Nat.succ_mul]
  omega

theorem childAt_mono (level scan : Nat) (le : j ≤ k) : childAt level scan j ≤ childAt level scan k :=
  Nat.add_le_add_left (Nat.add_le_add_left (Nat.mul_le_mul_right _ le) _) _

theorem childAt_before (level scan : Nat) (lt : j < k) : childAt level scan j + skipAt level < childAt level scan k := by
  have := childAt_mono level scan (show j + 1 ≤ k from lt)
  rw [childAt_succ] at this
  omega

theorem childAt_end (level scan : Nat) (inside : j < 16) : childAt level scan j + skipAt level ≤ scan + skipAt (level + 1) := by
  have := childAt_before level scan inside
  unfold childAt at this ⊢
  rw [skipAt]
  omega

theorem child_of_block (low : blk ≤ b) (high : b < blk + radixAt (level + 1)) :
    ∃ j < 16, childBlk level blk j ≤ b ∧ b < childBlk level blk j + radixAt level := by
  rw [radixAt_succ] at high
  have positive := radixAt_pos level
  refine ⟨(b - blk) / radixAt level,(Nat.div_lt_iff_lt_mul positive).mpr (by omega),?_,?_⟩
  · have := Nat.div_mul_le_self (b - blk) (radixAt level)
    unfold childBlk
    omega
  have := Nat.lt_div_mul_add positive (a := b - blk)
  unfold childBlk
  omega

theorem child_unique (first : childBlk level blk j ≤ b ∧ b < childBlk level blk j + radixAt level)
    (second : childBlk level blk k ≤ b ∧ b < childBlk level blk k + radixAt level) : j = k := by
  rcases Nat.lt_trichotomy j k with lt | eq | lt
  · have := childBlk_mono level blk (show j + 1 ≤ k from lt)
    rw [childBlk_succ] at this
    omega
  · exact eq
  have := childBlk_mono level blk (show k + 1 ≤ j from lt)
  rw [childBlk_succ] at this
  omega

structure Kept (m t : Mem) (scan len : Nat) : Prop where
  size : t.size = m.size
  outside : ∀ i, i < scan ∨ scan + len < i → t.node i = m.node i

theorem Kept.refl (m : Mem) (scan len : Nat) : Kept m m scan len := ⟨rfl,fun _ _ => rfl⟩

theorem Kept.trans (first : Kept m t scan len) (second : Kept t u scan len) : Kept m u scan len :=
  ⟨second.size.trans first.size,fun i out => (second.outside i out).trans (first.outside i out)⟩

theorem Kept.widen (kept : Kept m t scan len) (low : first ≤ scan) (high : scan + len ≤ first + more) :
    Kept m t first more :=
  ⟨kept.size,fun i out => kept.outside i (by omega)⟩

theorem kept_set (low : scan ≤ i) (high : i ≤ scan + len) : Kept m (m.set i node) scan len :=
  ⟨rfl,fun k out => Function.update_of_ne (by omega) _ _⟩

theorem set_same (m : Mem) (i : Nat) (node : BlMeta) : (m.set i node).node i = node := Function.update_self _ _ _
theorem set_other {m : Mem} (ne : k ≠ i) : (m.set i node).node k = m.node k := Function.update_of_ne ne _ _

theorem set_self (m : Mem) (i : Nat) : m.set i (m.node i) = m := by
  rw [Mem.set,Function.update_eq_self]

theorem fetch_ok (inside : i < m.size) : fetch m i = .ok (m.node i) := if_pos inside
theorem store_ok (inside : i < m.size) : store m i node = .ok (m.set i node) := if_pos inside

-- The nodes that cover blocks below `blocks` are in the array and are not
-- terminators, and a terminator follows the last of a node's children.
def Shape (m : Mem) (blocks : Nat) : Nat → Nat → Nat → Prop
  | 0, scan, _ => scan < m.size ∧ (m.node scan).bmBighint ≠ blistNone
  | level + 1, scan, blk => scan < m.size ∧ (m.node scan).bmBighint ≠ blistNone ∧ ∀ j < 16,
    (childBlk level blk j < blocks → Shape m blocks level (childAt level scan j) (childBlk level blk j)) ∧
      (blocks ≤ childBlk level blk j → (∀ k < j, childBlk level blk k < blocks) →
        childAt level scan j < m.size ∧ (m.node (childAt level scan j)).bmBighint = blistNone)

theorem Shape.root (shape : Shape m blocks level scan blk) :
    scan < m.size ∧ (m.node scan).bmBighint ≠ blistNone := by
  cases level with
  | zero => exact shape
  | succ level => exact ⟨shape.1,shape.2.1⟩

theorem Shape.child (shape : Shape m blocks (level + 1) scan blk) (inside : j < 16) (real : childBlk level blk j < blocks) :
    Shape m blocks level (childAt level scan j) (childBlk level blk j) :=
  (shape.2.2 j inside).1 real

theorem Shape.frame (shape : Shape m blocks level scan blk) (size : t.size = m.size)
    (same : ∀ i, scan ≤ i → i ≤ scan + skipAt level → t.node i = m.node i) : Shape t blocks level scan blk := by
  induction level generalizing scan blk with
  | zero =>
    obtain ⟨inside,hint⟩ := shape
    exact ⟨size ▸ inside,(same scan le_rfl (by omega)).symm ▸ hint⟩
  | succ level ih =>
    obtain ⟨inside,hint,children⟩ := shape
    refine ⟨size ▸ inside,(same scan le_rfl (by omega)).symm ▸ hint,fun j lt => ⟨?_,?_⟩⟩
    · intro real
      have low := lt_childAt level scan j
      have high := childAt_end level scan lt
      exact ih ((children j lt).1 real) fun i from_ to_ => same i (by omega) (by omega)
    intro past first
    obtain ⟨present,mark⟩ := (children j lt).2 past first
    have low := lt_childAt level scan j
    have high := childAt_end level scan lt
    exact ⟨size ▸ present,(same (childAt level scan j) (by omega) (by omega)).symm ▸ mark⟩

theorem Shape.setRoot (shape : Shape m blocks level scan blk) (hint : node.bmBighint ≠ blistNone) :
    Shape (m.set scan node) blocks level scan blk := by
  have root : ((m.set scan node).node scan).bmBighint ≠ blistNone := by
    rw [set_same]
    exact hint
  cases level with
  | zero => exact ⟨shape.1,root⟩
  | succ level =>
    refine ⟨shape.1,root,fun j lt => ?_⟩
    have low := lt_childAt level scan j
    refine ⟨fun real => ?_,fun past first => ?_⟩
    · exact (shape.child lt real).frame rfl fun i from_ _ => set_other (by omega)
    obtain ⟨present,mark⟩ := (shape.2.2 j lt).2 past first
    refine ⟨present,?_⟩
    rw [set_other (by omega)]
    exact mark

theorem child_apart (ne : j ≠ k) (low : childAt level scan k ≤ i) (high : i ≤ childAt level scan k + skipAt level) :
    i < childAt level scan j ∨ childAt level scan j + skipAt level < i := by
  rcases Nat.lt_or_gt_of_ne ne with lt | lt
  · have := childAt_before level scan lt
    omega
  have := childAt_before level scan lt
  omega

theorem Shape.setChild (shape : Shape m blocks (level + 1) scan blk) (inside : j < 16)
    (real : childBlk level blk j < blocks) (kept : Kept m t (childAt level scan j) (skipAt level))
    (child : Shape t blocks level (childAt level scan j) (childBlk level blk j)) :
    Shape t blocks (level + 1) scan blk := by
  have below := lt_childAt level scan j
  refine ⟨kept.size.symm ▸ shape.1,?_,fun k lt => ⟨fun present => ?_,fun past first => ?_⟩⟩
  · rw [kept.outside scan (.inl below)]
    exact shape.2.1
  · by_cases same : j = k
    · subst k
      exact child
    exact (shape.child lt present).frame kept.size fun i low high =>
      kept.outside i (child_apart same low high)
  obtain ⟨present,mark⟩ := (shape.2.2 k lt).2 past first
  have ne : j ≠ k := by
    rintro rfl
    omega
  refine ⟨kept.size.symm ▸ present,?_⟩
  rw [kept.outside _ (child_apart ne le_rfl (by omega))]
  exact mark

def Fits (free : Finset Nat) (level blk count : Nat) : Prop :=
  ∃ leaf s, blk ≤ leaf ∧ leaf + 32 ≤ blk + radixAt level ∧ leaf % 32 = 0 ∧
    leaf ≤ s ∧ s + count ≤ leaf + 32 ∧ Finset.Ico s (s + count) ⊆ free

section
variable (fits : Fits free level blk count)
include fits

theorem Fits.mono (sub : ∀ b, blk ≤ b → b < blk + radixAt level → b ∈ free → b ∈ free₁) :
    Fits free₁ level blk count := by
  obtain ⟨leaf,s,low,high,aligned,from_,to_,run⟩ := fits
  refine ⟨leaf,s,low,high,aligned,from_,to_,fun b mem => ?_⟩
  have bounds := mem_Ico.mp mem
  exact sub b (by omega) (by omega) (run mem)

theorem Fits.le (less : fewer ≤ count) : Fits free level blk fewer := by
  obtain ⟨leaf,s,low,high,aligned,from_,to_,run⟩ := fits
  refine ⟨leaf,s,low,high,aligned,from_,by omega,fun b mem => run ?_⟩
  rw [mem_Ico] at mem ⊢
  omega

theorem Fits.bound : count ≤ 32 := by
  obtain ⟨leaf,s,-,-,-,from_,to_,-⟩ := fits
  omega
end

def blocksOf (level blk : Nat) : Finset Nat := Finset.Ico blk (blk + radixAt level)

theorem Fits.card (fits : Fits free level blk count) : count ≤ (free ∩ blocksOf level blk).card := by
  obtain ⟨leaf,s,low,high,aligned,from_,to_,run⟩ := fits
  have sub : Finset.Ico s (s + count) ⊆ free ∩ blocksOf level blk := by
    intro b mem
    have bounds := mem_Ico.mp mem
    exact mem_inter.mpr ⟨run mem,mem_Ico.mpr (by omega)⟩
  have := card_le_card sub
  simpa using this

theorem childBlk_aligned (aligned : blk % 32 = 0) (level j : Nat) : childBlk level blk j % 32 = 0 := by
  unfold childBlk radixAt
  rw [Nat.add_mod,Nat.mul_left_comm,Nat.mul_mod_right,aligned]

theorem Fits.child (fits : Fits free (level + 1) blk count) (aligned : blk % 32 = 0) :
    ∃ j < 16, Fits free level (childBlk level blk j) count := by
  obtain ⟨leaf,s,low,high,even,from_,to_,run⟩ := fits
  have top : leaf < blk + radixAt (level + 1) := by omega
  obtain ⟨j,inside,first,last⟩ := child_of_block low top
  have whole := childBlk_aligned aligned level j
  have period : radixAt level % 32 = 0 := by
    unfold radixAt
    omega
  exact ⟨j,inside,leaf,s,first,by omega,even,from_,to_,run⟩

theorem Fits.lift (fits : Fits free level (childBlk level blk j) count) (inside : j < 16) :
    Fits free (level + 1) blk count := by
  obtain ⟨leaf,s,low,high,even,from_,to_,run⟩ := fits
  have := le_childBlk level blk j
  have := childBlk_end level blk inside
  exact ⟨leaf,s,by omega,by omega,even,from_,to_,run⟩

-- The hint of a node is no lower than a run of free blocks in a leaf below it.
def Hint (m : Mem) (free : Finset Nat) (level scan blk : Nat) : Prop :=
  ∀ count, Fits free level blk count → count ≤ (m.node scan).bmBighint

-- What the subtree at `scan` says about the free blocks. Below a node with no
-- free block, or with no other, nothing is said. With `hints` the hints count.
def Tree (hints : Prop) (m : Mem) (blocks : Nat) (free : Finset Nat) : Nat → Nat → Nat → Prop
  | 0, scan, blk => (∀ b < 32, (m.node scan).bmuBitmap.getLsbD b = true ↔ blk + b ∈ free) ∧
    (hints → Hint m free 0 scan blk)
  | level + 1, scan, blk => (m.node scan).u = (free ∩ blocksOf (level + 1) blk).card ∧
    (hints → Hint m free (level + 1) scan blk) ∧
    (0 < (m.node scan).u → (m.node scan).u < radixAt (level + 1) → ∀ j < 16, childBlk level blk j < blocks →
      Tree hints m blocks free level (childAt level scan j) (childBlk level blk j))

theorem Tree.hint (tree : Tree hints m blocks free level scan blk) : hints → Hint m free level scan blk := by
  cases level with
  | zero => exact tree.2
  | succ level => exact tree.2.1

theorem inter_blocks_congr (same : ∀ b, blk ≤ b → b < blk + radixAt level → (b ∈ free ↔ b ∈ free₁)) :
    free ∩ blocksOf level blk = free₁ ∩ blocksOf level blk := by
  ext b
  simp only [mem_inter,blocksOf,mem_Ico]
  constructor
  · rintro ⟨mem,low,high⟩
    exact ⟨(same b low high).mp mem,low,high⟩
  rintro ⟨mem,low,high⟩
  exact ⟨(same b low high).mpr mem,low,high⟩

theorem Hint.frame (holds : Hint m free level scan blk) (root : t.node scan = m.node scan)
    (alike : ∀ b, blk ≤ b → b < blk + radixAt level → (b ∈ free ↔ b ∈ free₁)) : Hint t free₁ level scan blk := by
  intro count fits
  rw [root]
  exact holds count (fits.mono fun b low high mem => (alike b low high).mpr mem)

theorem Tree.frame (tree : Tree hints m blocks free level scan blk)
    (same : ∀ i, scan ≤ i → i ≤ scan + skipAt level → t.node i = m.node i)
    (alike : ∀ b, blk ≤ b → b < blk + radixAt level → (b ∈ free ↔ b ∈ free₁)) :
    Tree hints t blocks free₁ level scan blk := by
  induction level generalizing scan blk with
  | zero =>
    have root := same scan le_rfl (by omega)
    refine ⟨fun b lt => ?_,fun hints => (tree.2 hints).frame root alike⟩
    rw [root,tree.1 b lt]
    exact alike _ (by omega) (by simpa [radixAt] using lt)
  | succ level ih =>
    have root := same scan le_rfl (by omega)
    obtain ⟨avail,hinted,children⟩ := tree
    refine ⟨?_,fun hints => (hinted hints).frame root alike,fun some more j inside real => ?_⟩
    · rw [root,avail,inter_blocks_congr alike]
    rw [root] at some more
    have low := lt_childAt level scan j
    have high := childAt_end level scan inside
    have first := le_childBlk level blk j
    have last := childBlk_end level blk inside
    exact ih (children some more j inside real) (fun i from_ to_ => same i (by omega) (by omega))
      (fun b from_ to_ => alike b (by omega) (by omega))

def Kids (hints : Prop) (m : Mem) (blocks : Nat) (free : Nat → Finset Nat) (level scan blk : Nat) : Prop :=
  ∀ j < 16, childBlk level blk j < blocks →
    Tree hints m blocks (free j) level (childAt level scan j) (childBlk level blk j)

theorem Kids.setChild (kids : Kids hints m blocks free level scan blk) (kept : Kept m t (childAt level scan j) (skipAt level))
    (child : Tree hints t blocks (free₁ j) level (childAt level scan j) (childBlk level blk j))
    (alike : ∀ k < 16, k ≠ j → ∀ b, childBlk level blk k ≤ b → b < childBlk level blk k + radixAt level →
      (b ∈ free k ↔ b ∈ free₁ k)) : Kids hints t blocks free₁ level scan blk := by
  intro k inside real
  by_cases same : k = j
  · subst k
    exact child
  exact (kids k inside real).frame (fun i low high => kept.outside i (child_apart (Ne.symm same) low high))
    (alike k inside same)

theorem Kids.setRoot (kids : Kids hints m blocks free level scan blk) : Kids hints (m.set scan node) blocks free level scan blk := by
  intro k inside real
  have low := lt_childAt level scan k
  exact (kids k inside real).frame (fun i from_ _ => set_other (by omega)) fun _ _ _ => Iff.rfl

theorem card_blocksOf (level blk : Nat) : (blocksOf level blk).card = radixAt level := by
  simp [blocksOf]

theorem card_inter_le (free : Finset Nat) (level blk : Nat) : (free ∩ blocksOf level blk).card ≤ radixAt level :=
  card_blocksOf level blk ▸ card_le_card inter_subset_right

theorem inter_empty (none : ∀ b, blk ≤ b → b < blk + radixAt level → b ∉ free) : free ∩ blocksOf level blk = ∅ := by
  rw [eq_empty_iff_forall_notMem]
  intro b mem
  have bounds := mem_Ico.mp (mem_inter.mp mem).2
  exact none b bounds.1 bounds.2 (mem_inter.mp mem).1

theorem of_card_zero (zero : (free ∩ blocksOf level blk).card = 0) (low : blk ≤ b) (high : b < blk + radixAt level) : b ∉ free := by
  intro mem
  have := card_eq_zero.mp zero
  exact notMem_empty b (this ▸ mem_inter.mpr ⟨mem,mem_Ico.mpr ⟨low,high⟩⟩)

theorem of_card_full (full : (free ∩ blocksOf level blk).card = radixAt level) (low : blk ≤ b) (high : b < blk + radixAt level) :
    b ∈ free := by
  have all : free ∩ blocksOf level blk = blocksOf level blk :=
    eq_of_subset_of_card_le inter_subset_right (by rw [full,card_blocksOf])
  have mem : b ∈ free ∩ blocksOf level blk := all.symm ▸ mem_Ico.mpr ⟨low,high⟩
  exact (mem_inter.mp mem).1

theorem tree_empty (node : (m.node scan).u = 0) (none : ∀ b, blk ≤ b → b < blk + radixAt level → b ∉ free) :
    Tree hints m blocks free level scan blk := by
  have hint : Hint m free level scan blk := by
    intro count fits
    have := fits.card
    rw [inter_empty none,card_empty] at this
    omega
  cases level with
  | zero =>
    refine ⟨fun b lt => ?_,fun _ => hint⟩
    rw [BlMeta.bmuBitmap,node]
    simp only [ofNat_eq_ofNat,getLsbD_zero,Bool.false_eq_true,false_iff]
    exact none _ (by omega) (by simpa [radixAt] using lt)
  | succ level =>
    refine ⟨?_,fun _ => hint,fun some => by omega⟩
    rw [node,inter_empty none,card_empty]

theorem tree_full (node : (m.node scan).u = if level = 0 then 2 ^ 32 - 1 else radixAt level)
    (big : 32 ≤ (m.node scan).bmBighint) (all : ∀ b, blk ≤ b → b < blk + radixAt level → b ∈ free) :
    Tree hints m blocks free level scan blk := by
  have hint : Hint m free level scan blk := fun count fits => fits.bound.trans big
  cases level with
  | zero =>
    refine ⟨fun b lt => ?_,fun _ => hint⟩
    have ones : (m.node scan).bmuBitmap = allOnes 32 := by
      rw [BlMeta.bmuBitmap,node]
      rfl
    rw [ones,getLsbD_allOnes]
    simp only [lt,decide_true,true_iff]
    exact all _ (by omega) (by simpa [radixAt] using lt)
  | succ level =>
    have whole : free ∩ blocksOf (level + 1) blk = blocksOf (level + 1) blk :=
      inter_eq_right.mpr fun b mem => all b (mem_Ico.mp mem).1 (mem_Ico.mp mem).2
    rw [if_neg (Nat.succ_ne_zero level)] at node
    refine ⟨?_,fun _ => hint,fun _ more => by omega⟩
    rw [node,whole,card_blocksOf]

def Spans (mask : BitVec 32) (low high : Nat) : Prop :=
  ∀ b < 32, mask.getLsbD b = true ↔ low ≤ b ∧ b < high

theorem spans_low (small : s ≤ 32) : Spans (allOnes 32 >>> (32 - s)) 0 s := by
  intro b lt
  simp only [getLsbD_ushiftRight,getLsbD_allOnes,decide_eq_true_eq]
  omega

theorem Spans.shift (spans : Spans mask low high) : Spans (mask <<< 1) (low + 1) (high + 1) := by
  intro b lt
  simp only [getLsbD_shiftLeft,lt,decide_true,Bool.true_and,Bool.and_eq_true,Bool.not_eq_true',decide_eq_false_iff_not]
  constructor
  · rintro ⟨past,bit⟩
    have := (spans (b - 1) (by omega)).mp bit
    omega
  intro bounds
  exact ⟨by omega,(spans (b - 1) (by omega)).mpr (by omega)⟩

theorem leafMask_spec (some : 0 < count) (fits : blk % 32 + count ≤ 32) :
    ∃ mask, leafMask blk count = .ok mask ∧ Spans mask (blk % 32) (blk % 32 + count) := by
  refine ⟨_,if_pos ⟨by omega,by unfold blistBmapRadix; omega⟩,fun b lt => ?_⟩
  simp only [getLsbD_and,getLsbD_shiftLeft,getLsbD_ushiftRight,getLsbD_allOnes,lt,
    decide_true,Bool.true_and,Bool.and_eq_true,Bool.not_eq_true',decide_eq_false_iff_not,decide_eq_true_eq,blistBmapRadix]
  omega

theorem and_eq_zero_iff (orig mask : BitVec 32) :
    orig &&& mask = 0 ↔ ∀ b < 32, mask.getLsbD b = true → orig.getLsbD b = false := by
  constructor
  · intro zero b lt set
    have bit := congrArg (fun x => getLsbD x b) zero
    simpa [set] using bit
  intro none
  refine eq_of_getLsbD_eq fun b lt => ?_
  cases bit : mask.getLsbD b <;> simp_all

theorem and_eq_mask_iff (orig mask : BitVec 32) :
    orig &&& mask = mask ↔ ∀ b < 32, mask.getLsbD b = true → orig.getLsbD b = true := by
  constructor
  · intro same b lt set
    have bit := congrArg (fun x => getLsbD x b) same
    simpa [set] using bit
  intro all
  refine eq_of_getLsbD_eq fun b lt => ?_
  cases bit : mask.getLsbD b <;> simp_all

theorem exists_bit (nonzero : orig ≠ (0 : BitVec 32)) : ∃ b < 32, orig.getLsbD b = true := by
  by_contra none
  refine nonzero (eq_of_getLsbD_eq fun b lt => ?_)
  have clear : ¬orig.getLsbD b = true := fun set => none ⟨b,lt,set⟩
  simpa using clear

theorem halve (width : 2 ^ (e + 1) ≤ 2 ^ 4) : 2 ^ (e + 1) / 2 = 2 ^ e ∧
    allOnes 32 >>> (32 - 2 ^ (e + 1)) >>> 2 ^ e = allOnes 32 >>> (32 - 2 ^ e) := by
  refine ⟨by omega,?_⟩
  rw [← shiftRight_add]
  congr 1
  omega

theorem findOne_spec (e : Nat) (small : e ≤ 4) (r : Nat) (orig : BitVec 32) (here : ∃ b < 2 ^ (e + 1), orig.getLsbD b = true) :
    ∃ q < 2 ^ (e + 1), findOne (e + 2) (2 ^ e) r orig (allOnes 32 >>> (32 - 2 ^ e)) = .ok (r + q) ∧
      orig.getLsbD q = true := by
  have width : 2 ^ e ≤ 2 ^ 4 := Nat.pow_le_pow_right (by decide) small
  have spans : Spans (allOnes 32 >>> (32 - 2 ^ e)) 0 (2 ^ e) := spans_low (by omega)
  have positive : 2 ^ e ≠ 0 := Nat.pos_iff_ne_zero.mp (Nat.two_pow_pos e)
  have double : 2 ^ (e + 1) = 2 * 2 ^ e := by rw [pow_succ]; ring
  rw [findOne,if_neg positive]
  obtain ⟨b,lt,set⟩ := here
  by_cases zero : orig &&& (allOnes 32 >>> (32 - 2 ^ e)) = 0
  · -- no bit in the low half
    have clear := (and_eq_zero_iff _ _).mp zero
    have past : 2 ^ e ≤ b := by
      by_contra low
      have := clear b (by omega) ((spans b (by omega)).mpr (by omega))
      simp [set] at this
    simp only [zero,beq_self_eq_true,cond_true]
    have shifted : (orig >>> 2 ^ e).getLsbD (b - 2 ^ e) = true := by
      rw [getLsbD_ushiftRight]
      rwa [Nat.add_sub_cancel' past]
    cases e with
    | zero =>
      refine ⟨1,by decide,?_,?_⟩
      · simp [findOne]
      have : b = 1 := by omega
      exact this ▸ set
    | succ e =>
      rw [(halve width).1,(halve width).2]
      obtain ⟨q,below,ran,bit⟩ := findOne_spec e (by omega) (r + 2 ^ (e + 1)) (orig >>> 2 ^ (e + 1)) ⟨_,by omega,shifted⟩
      refine ⟨2 ^ (e + 1) + q,by omega,?_,?_⟩
      · rw [ran,Nat.add_assoc]
      · rwa [getLsbD_ushiftRight] at bit
  have kept : ∃ b < 2 ^ e, orig.getLsbD b = true := by
    by_contra none
    refine zero ((and_eq_zero_iff _ _).mpr fun b lt mask => ?_)
    have := (spans b lt).mp mask
    have clear : ¬orig.getLsbD b = true := fun set => none ⟨b,by omega,set⟩
    simpa using clear
  have nonzero : (orig &&& (allOnes 32 >>> (32 - 2 ^ e)) == 0) = false := beq_false_of_ne zero
  simp only [nonzero,cond_false]
  cases e with
  | zero =>
    obtain ⟨b,lt,set⟩ := kept
    have : b = 0 := by omega
    exact ⟨0,by decide,by simp [findOne],this ▸ set⟩
  | succ e =>
    rw [(halve width).1,(halve width).2]
    obtain ⟨q,below,ran,bit⟩ := findOne_spec e (by omega) r orig kept
    exact ⟨q,by omega,ran,bit⟩

theorem findRun_spec (orig : BitVec 32) (count : Nat) (rounds j : Nat) (mask : BitVec 32) (spans : Spans mask j (j + count))
    (room : j + count + rounds ≤ 33) :
    (∃ k mask₁, findRun orig rounds j mask = some (k,mask₁) ∧ k + count ≤ 32 ∧ Spans mask₁ k (k + count) ∧
      ∀ b < 32, mask₁.getLsbD b = true → orig.getLsbD b = true) ∨
    findRun orig rounds j mask = none ∧ ∀ k, j ≤ k → k < j + rounds → ∃ b, k ≤ b ∧ b < k + count ∧ orig.getLsbD b = false := by
  induction rounds generalizing j mask with
  | zero => exact .inr ⟨rfl,fun k low high => by omega⟩
  | succ rounds ih =>
    rw [findRun]
    split_ifs with same
    · exact .inl ⟨j,mask,rfl,by omega,spans,(and_eq_mask_iff _ _).mp same⟩
    have moved : Spans (mask <<< 1) (j + 1) (j + 1 + count) := by
      have := spans.shift
      rwa [Nat.add_right_comm] at this
    rcases ih (j + 1) (mask <<< 1) moved (by omega) with found | ⟨ran,none⟩
    · exact .inl found
    refine .inr ⟨ran,fun k low high => ?_⟩
    rcases Nat.eq_or_lt_of_le low with rfl | past
    · by_contra all
      refine same ((and_eq_mask_iff _ _).mpr fun b lt set => ?_)
      have bounds := (spans b lt).mp set
      by_contra clear
      exact all ⟨b,bounds.1,bounds.2,by simpa using clear⟩
    · exact none k past (by omega)

theorem testBit_and_sub_one (n : Nat) (nonzero : n ≠ 0) :
    ∃ k, n.testBit k = true ∧ ∀ i, (n &&& (n - 1)).testBit i = (n.testBit i && decide (i ≠ k)) := by
  induction n using Nat.strong_induction_on with
  | _ n ih =>
    rcases Nat.even_or_odd' n with ⟨q,rfl | rfl⟩
    · obtain ⟨k,set,rest⟩ := ih q (by omega) (by omega)
      have pred : 2 * q - 1 = 2 * (q - 1) + 1 := by omega
      refine ⟨k + 1,?_,fun i => ?_⟩
      · rwa [Nat.testBit_succ,Nat.mul_div_cancel_left _ (by decide)]
      cases i with
      | zero => simp
      | succ i =>
        have bit := rest i
        rw [Nat.testBit_and,pred,Nat.testBit_succ,Nat.testBit_succ,Nat.mul_div_cancel_left _ (by decide),
          Nat.mul_add_div (by decide)]
        simpa using bit
    refine ⟨0,by simp,fun i => ?_⟩
    cases i with
    | zero => simp
    | succ i =>
      rw [Nat.add_sub_cancel,Nat.testBit_and,Nat.testBit_succ,Nat.testBit_succ,Nat.mul_add_div (by decide),
        Nat.mul_div_cancel_left _ (by decide)]
      simp

def setBits (bitmap : BitVec 32) : Finset Nat := (Finset.range 32).filter fun b => bitmap.getLsbD b = true

theorem mem_setBits : b ∈ setBits bitmap ↔ b < 32 ∧ bitmap.getLsbD b = true := by
  simp [setBits]

theorem setBits_clear (nonzero : bitmap ≠ (0 : BitVec 32)) :
    (setBits (bitmap &&& (bitmap - 1))).card + 1 = (setBits bitmap).card := by
  have positive : bitmap.toNat ≠ 0 := fun zero => nonzero (eq_of_toNat_eq zero)
  obtain ⟨k,set,rest⟩ := testBit_and_sub_one bitmap.toNat positive
  have pred : (bitmap - 1).toNat = bitmap.toNat - 1 := by
    rw [toNat_sub]
    simp only [ofNat_eq_ofNat,toNat_ofNat]
    omega
  have small : k < 32 := by
    by_contra big
    rw [Nat.testBit_lt_two_pow (Nat.lt_of_lt_of_le bitmap.isLt (Nat.pow_le_pow_right (by decide) (by omega)))] at set
    cases set
  have erased : setBits (bitmap &&& (bitmap - 1)) = (setBits bitmap).erase k := by
    ext b
    have bit := rest b
    rw [Nat.testBit_and,← pred] at bit
    change (bitmap.getLsbD b && (bitmap - 1).getLsbD b) = (bitmap.getLsbD b && decide (b ≠ k)) at bit
    simp only [mem_setBits,mem_erase,getLsbD_and,bit,Bool.and_eq_true,decide_eq_true_eq]
    tauto
  have mem : k ∈ setBits bitmap := mem_setBits.mpr ⟨small,set⟩
  rw [erased,card_erase_add_one mem]

theorem countBits_spec (rounds nblks : Nat) (bitmap : BitVec 32) (enough : (setBits bitmap).card < rounds) :
    countBits rounds nblks bitmap = .ok (nblks + (setBits bitmap).card) := by
  induction rounds generalizing nblks bitmap with
  | zero => omega
  | succ rounds ih =>
    rw [countBits]
    by_cases zero : bitmap = 0
    · subst zero
      simp [setBits]
    have cleared := setBits_clear zero
    rw [if_neg zero,ih _ _ (by omega),← cleared]
    congr 1
    omega

theorem fetch_leaf (shape : Shape m blocks level scan blk) : fetch m scan = .ok (m.node scan) := fetch_ok shape.root.1
theorem store_leaf (shape : Shape m blocks level scan blk) : store m scan node = .ok (m.set scan node) := store_ok shape.root.1

-- What a call of blst_leaf_alloc or blst_meta_alloc on a node does.
structure Allocates (hints : Prop) (m t : Mem) (blocks : Nat) (free : Finset Nat) (level scan blk count r : Nat) : Prop where
  kept : Kept m t scan (skipAt level)
  shape : Shape t blocks level scan blk
  answer : r = blistNone ∧ Tree hints t blocks free level scan blk ∧ (hints → ¬Fits free level blk count) ∨
    r ≠ blistNone ∧ Finset.Ico r (r + count) ⊆ free ∧ blk ≤ r ∧ r + count ≤ blk + radixAt level ∧
      Tree hints t blocks (free \ Finset.Ico r (r + count)) level scan blk

theorem leaf_tree {m : Mem} {node : BlMeta} {bitmap : BitVec 32} (bits : ∀ b < 32, bitmap.getLsbD b = true ↔ blk + b ∈ free)
    (hint : hints → ∀ count, Fits free 0 blk count → count ≤ node.bmBighint) :
    Tree hints (m.set scan (node.withBitmap bitmap)) blocks free 0 scan blk := by
  refine ⟨fun b lt => ?_,fun on count fits => ?_⟩
  · rw [set_same,BlMeta.bmuBitmap,BlMeta.withBitmap]
    simp only [ofNat_toNat,setWidth_eq]
    exact bits b lt
  rw [set_same]
  exact hint on count fits

theorem fits_leaf (fits : Fits free 0 blk count) (aligned : blk % 32 = 0) :
    ∃ k, k + count ≤ 32 ∧ ∀ b, k ≤ b → b < k + count → blk + b ∈ free := by
  obtain ⟨leaf,s,low,high,even,from_,to_,run⟩ := fits
  simp only [radixAt,pow_zero,mul_one] at high
  refine ⟨s - blk,by omega,fun b first last => run (mem_Ico.mpr (by omega))⟩

section
variable (shape : Shape m blocks 0 scan blk)
include shape

section
variable (tree : Tree hints m blocks free 0 scan blk)
include tree

theorem leaf_failed 
    (small : hint < blistNone) (none : ¬Fits free 0 blk count) (le : ∀ fewer, Fits free 0 blk fewer → fewer ≤ hint) :
    Allocates hints m (m.set scan {m.node scan with bmBighint := hint}) blocks free 0 scan blk count blistNone where
  kept := kept_set le_rfl (by omega)
  shape := shape.setRoot (by dsimp only; omega)
  answer := by
    refine .inl ⟨rfl,⟨fun b lt => ?_,fun _ fewer fits => ?_⟩,fun _ => none⟩
    · rw [set_same]
      exact tree.1 b lt
    rw [set_same]
    exact le fewer fits

theorem leaf_taken 
    (spans : Spans mask k (k + count)) (room : k + count ≤ 32) (high : blk + 32 < 2 ^ 32 - 1)
    (set : ∀ b, k ≤ b → b < k + count → (m.node scan).bmuBitmap.getLsbD b = true) :
    Allocates hints m (m.set scan ((m.node scan).withBitmap ((m.node scan).bmuBitmap &&& ~~~mask))) blocks free 0 scan blk count
      (blk + k) where
  kept := kept_set le_rfl (by omega)
  shape := shape.setRoot shape.2
  answer := by
    refine .inr ⟨by unfold blistNone; omega,fun b mem => ?_,Nat.le_add_right _ _,by simp [radixAt]; omega,leaf_tree ?_ ?_⟩
    · have bounds := mem_Ico.mp mem
      have := (tree.1 (b - blk) (by omega)).mp (set (b - blk) (by omega) (by omega))
      rwa [Nat.add_sub_cancel' (by omega)] at this
    · intro b lt
      have bit := tree.1 b lt
      have inside := spans b lt
      simp only [getLsbD_and,getLsbD_not,lt,decide_true,Bool.true_and,Bool.and_eq_true,Bool.not_eq_true',
        mem_sdiff,mem_Ico,← Bool.not_eq_true,bit,inside]
      constructor
      · rintro ⟨mem,out⟩
        exact ⟨mem,by omega⟩
      rintro ⟨mem,out⟩
      exact ⟨mem,by omega⟩
    intro on fewer fits
    exact tree.2 on fewer (fits.mono fun b _ _ mem => (mem_sdiff.mp mem).1)

theorem leafAlloc_spec (aligned : blk % 32 = 0)
    (high : blk + 32 < 2 ^ 32 - 1) (some : 0 < count) (le : count ≤ 32) :
    ∃ r t, blstLeafAlloc m scan blk count = .ok (r,t) ∧ Allocates hints m t blocks free 0 scan blk count r := by
  have clear (b : Nat) (lt : b < 32) (off : (m.node scan).bmuBitmap.getLsbD b = false) : blk + b ∉ free := by
    intro mem
    rw [(tree.1 b lt).mpr mem] at off
    cases off
  rw [blstLeafAlloc,fetch_leaf shape,ok_bind]
  dsimp only
  split
  · next zero =>
    rw [store_leaf shape,ok_bind]
    have none (fewer : Nat) (fits : Fits free 0 blk fewer) : fewer ≤ 0 := by
      obtain ⟨k,room,run⟩ := fits_leaf fits aligned
      by_contra more
      have lt : k < 32 := by omega
      exact clear k lt (by rw [zero]; simp) (run k le_rfl (by omega))
    exact ⟨_,_,rfl,leaf_failed shape tree (by decide) (fun fits => by have := none _ fits; omega) none⟩
  next zero =>
  by_cases one : count = 1
  · subst one
    obtain ⟨b,lt,set⟩ := exists_bit zero
    obtain ⟨q,below,ran,bit⟩ := findOne_spec 4 le_rfl 0 (m.node scan).bmuBitmap ⟨b,lt,set⟩
    have spans : Spans (1#32 <<< q) q (q + 1) := by
      intro b lt
      simp only [getLsbD_shiftLeft,lt,decide_true,Bool.true_and,getLsbD_one,Bool.and_eq_true,
        Bool.not_eq_true',decide_eq_false_iff_not,decide_eq_true_eq]
      omega
    rw [Nat.zero_add] at ran
    change ∃ r t, (findOne 6 16 0 (m.node scan).bmuBitmap (allOnes 32 >>> 16) >>= _) = Except.ok (r,t) ∧ _
    rw [show findOne 6 16 0 (m.node scan).bmuBitmap (allOnes 32 >>> 16) = .ok q from ran,ok_bind,
      store_leaf shape,ok_bind,word_of_lt (by omega)]
    refine ⟨_,_,rfl,leaf_taken shape tree spans (by omega) high fun b first last => ?_⟩
    have same : b = q := by omega
    exact same ▸ bit
  rw [if_neg one,if_pos (by unfold blistBmapRadix; omega),if_neg (by unfold blistBmapRadix; omega)]
  have spans : Spans (allOnes 32 >>> (blistBmapRadix - count)) 0 (0 + count) := by
    rw [Nat.zero_add]
    exact spans_low le
  rcases findRun_spec (m.node scan).bmuBitmap count (blistBmapRadix - count + 1) 0 _ spans (by unfold blistBmapRadix; omega)
    with ⟨k,mask,ran,room,place,all⟩ | ⟨ran,none⟩
  · rw [ran]
    dsimp only
    rw [store_leaf shape,ok_bind,word_of_lt (by omega)]
    exact ⟨_,_,rfl,leaf_taken shape tree place room high fun b first last =>
      all b (by omega) ((place b (by omega)).mpr ⟨first,last⟩)⟩
  rw [ran]
  rw [store_leaf shape,ok_bind,less_of_le (by omega) (by omega)]
  have fails : ¬Fits free 0 blk count := by
    intro fits
    obtain ⟨k,room,run⟩ := fits_leaf fits aligned
    obtain ⟨b,first,last,off⟩ := none k (Nat.zero_le k) (by unfold blistBmapRadix; omega)
    exact clear b (by omega) off (run b first last)
  refine ⟨_,_,rfl,leaf_failed shape tree (by unfold blistNone; omega) fails fun fewer fits => ?_⟩
  by_contra more
  exact fails (fits.le (by omega))
end
end

structure Frees (hints : Prop) (m t : Mem) (blocks : Nat) (free : Finset Nat) (level scan blk first count : Nat) : Prop where
  kept : Kept m t scan (skipAt level)
  shape : Shape t blocks level scan blk
  tree : Tree hints t blocks (free ∪ Finset.Ico first (first + count)) level scan blk

structure Fills (hints : Prop) (m t : Mem) (blocks : Nat) (free : Finset Nat) (level scan blk first count : Nat) : Prop where
  kept : Kept m t scan (skipAt level)
  shape : Shape t blocks level scan blk
  tree : Tree hints t blocks (free \ Finset.Ico first (first + count)) level scan blk

theorem leafMask_range (aligned : blk % 32 = 0) (some : 0 < count) (low : blk ≤ first) (high : first + count ≤ blk + 32) :
    ∃ mask, leafMask first count = .ok mask ∧
      ∀ b < 32, mask.getLsbD b = true ↔ blk + b ∈ Finset.Ico first (first + count) := by
  obtain ⟨mask,ran,spans⟩ := leafMask_spec some (show first % 32 + count ≤ 32 by omega)
  refine ⟨mask,ran,fun b lt => ?_⟩
  rw [spans b lt,mem_Ico]
  omega

theorem leafFree_spec (shape : Shape m blocks 0 scan blk) (tree : Tree hints m blocks free 0 scan blk) (aligned : blk % 32 = 0)
    (some : 0 < count) (low : blk ≤ first) (high : first + count ≤ blk + 32) (taken : ∀ b ∈ Finset.Ico first (first + count), b ∉ free) :
    ∃ t, blstLeafFree m scan first count = .ok t ∧ Frees hints m t blocks free 0 scan blk first count := by
  obtain ⟨mask,ran,range⟩ := leafMask_range aligned some low high
  have clear : (m.node scan).bmuBitmap &&& mask = 0 := by
    refine (and_eq_zero_iff _ _).mpr fun b lt set => ?_
    have out := taken _ ((range b lt).mp set)
    rw [← tree.1 b lt] at out
    simpa using out
  have not : ¬(m.node scan).bmuBitmap &&& mask ≠ 0 := fun ne => ne clear
  rw [blstLeafFree,ran,ok_bind,fetch_leaf shape,ok_bind,if_neg not,store_leaf shape]
  refine ⟨_,rfl,⟨kept_set le_rfl (by omega),shape.setRoot (show blistBmapRadix ≠ blistNone by decide),?_⟩⟩
  change Tree hints (m.set scan (BlMeta.withBitmap {m.node scan with bmBighint := blistBmapRadix}
    ((m.node scan).bmuBitmap ||| mask))) blocks _ 0 scan blk
  refine leaf_tree (fun b lt => ?_) fun _ fewer fits => fits.bound
  rw [getLsbD_or,Bool.or_eq_true,tree.1 b lt,range b lt,mem_union]

theorem card_setBits {bitmap : BitVec 32} (blk : Nat) {free : Finset Nat} (bits : ∀ b < 32, bitmap.getLsbD b = true ↔ blk + b ∈ free)
    (inside : ∀ b ∈ free, blk ≤ b ∧ b < blk + 32) : (setBits bitmap).card = free.card := by
  refine card_bij (fun b _ => blk + b) (fun b mem => ?_) (fun b _ c _ same => Nat.add_left_cancel same) fun b mem => ?_
  · have bounds := mem_setBits.mp mem
    exact (bits b bounds.1).mp bounds.2
  have bounds := inside b mem
  have back : blk + (b - blk) = b := by omega
  refine ⟨b - blk,mem_setBits.mpr ⟨by omega,(bits _ (by omega)).mpr ?_⟩,back⟩
  rw [back]
  exact mem

theorem leafFill_spec (shape : Shape m blocks 0 scan blk) (tree : Tree hints m blocks free 0 scan blk) (aligned : blk % 32 = 0)
    (some : 0 < count) (low : blk ≤ first) (high : first + count ≤ blk + 32) :
    ∃ t, blstLeafFill m scan first count = .ok ((free ∩ Finset.Ico first (first + count)).card,t) ∧
      Fills hints m t blocks free 0 scan blk first count := by
  obtain ⟨mask,ran,range⟩ := leafMask_range aligned some low high
  have filled : (setBits ((m.node scan).bmuBitmap &&& mask)).card = (free ∩ Finset.Ico first (first + count)).card := by
    refine card_setBits blk (fun b lt => ?_) fun b mem => ?_
    · rw [getLsbD_and,Bool.and_eq_true,tree.1 b lt,range b lt,mem_inter]
    have := mem_Ico.mp (mem_inter.mp mem).2
    omega
  have few : (setBits ((m.node scan).bmuBitmap &&& mask)).card < blistBmapRadix + 1 := by
    have := Finset.card_filter_le (Finset.range 32) fun b => ((m.node scan).bmuBitmap &&& mask).getLsbD b = true
    exact Nat.lt_succ_of_le this
  rw [blstLeafFill,ran,ok_bind,fetch_leaf shape,ok_bind,countBits_spec _ _ _ few,ok_bind,
    store_leaf shape,ok_bind,filled,Nat.zero_add]
  refine ⟨_,rfl,⟨kept_set le_rfl (by omega),shape.setRoot shape.2,leaf_tree (fun b lt => ?_) fun on fewer fits => ?_⟩⟩
  · have bit := tree.1 b lt
    have inside := range b lt
    simp only [getLsbD_and,getLsbD_not,lt,decide_true,Bool.true_and,Bool.and_eq_true,Bool.not_eq_true',
      mem_sdiff,← Bool.not_eq_true,bit,inside]
  · exact tree.2 on fewer (fits.mono fun b _ _ mem => (mem_sdiff.mp mem).1)
end NetbsdAvr32.Blist
