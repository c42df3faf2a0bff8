import NetbsdAvr32.BlistAlloc

-- Ranges broken down below the children of a node, and blst_meta_free.
namespace NetbsdAvr32.Blist
open Sweep Finset Outcome Nat
variable {count : Nat}

def pieceFirst (level blk first j : Nat) : Nat := max first (childBlk level blk j)
def pieceCount (level blk first count j : Nat) : Nat :=
  min (first + count) (childBlk level blk j + radixAt level) - pieceFirst level blk first j

def firstChild (level blk first : Nat) : Nat := (first - blk) / radixAt level

def Touches (level blk first count j : Nat) : Prop :=
  childBlk level blk j < first + count ∧ first < childBlk level blk j + radixAt level

theorem firstChild_le (level : Nat) (low : blk ≤ first) : childBlk level blk (firstChild level blk first) ≤ first := by
  have := div_mul_le_self (first - blk) (radixAt level)
  unfold childBlk firstChild
  omega

theorem lt_firstChild_succ (level blk first : Nat) : first < childBlk level blk (firstChild level blk first + 1) := by
  have := lt_div_mul_add (radixAt_pos level) (a := first - blk)
  unfold childBlk firstChild
  rw [succ_mul]
  omega

theorem firstChild_lt (high : first < blk + radixAt (level + 1)) (low : blk ≤ first) : firstChild level blk first < 16 := by
  rw [radixAt_succ] at high
  exact (div_lt_iff_lt_mul (radixAt_pos level)).mpr (by omega)

def PieceState (inv : Nat → α → Prop) (level blk first count j : Nat) (s : α × Nat × Nat × Nat) : Prop :=
  inv j s.1 ∧ firstChild level blk first ≤ j ∧ s.2.1 = min (first + count) (max first (childBlk level blk j)) ∧
    s.2.2.1 = first + count - s.2.1 ∧ s.2.2.2 = childBlk level blk j

variable {visit : Nat → Nat → Nat → Nat → α → Except Halt α}

theorem piecesRound_visits {inv : Nat → α → Prop} (some : 0 < count)
    (top : first + count ≤ blk + radixAt (level + 1)) (high : blk + radixAt (level + 1) < blistNone) (inside : j < 16)
    (held : PieceState inv level blk first count j s) (more : childBlk level blk j < first + count) :
    Touches level blk first count j ∧ ∃ rest, (∀ a, inv (j + 1) a → PieceState inv level blk first count (j + 1) (a,rest)) ∧
      piecesRound visit (radixAt level) i s =
        (visit i (pieceFirst level blk first j) (pieceCount level blk first count j) (childBlk level blk j) s.1 >>= fun a => .ok (.next (a,rest))) := by
  obtain ⟨a,f,c,b⟩ := s
  obtain ⟨own,from_,place,size,base⟩ := held
  dsimp only at own place size base
  subst place size base
  have last := childBlk_end level blk inside
  have next := childBlk_succ level blk j
  have past : first < childBlk level blk j + radixAt level := by
    rw [← next]
    exact lt_of_lt_of_le (lt_firstChild_succ level blk first) (childBlk_mono level blk (succ_le_succ from_))
  have start : min (first + count) (max first (childBlk level blk j)) = pieceFirst level blk first j := by
    unfold pieceFirst
    omega
  unfold blistNone at high
  have size : (if less (childBlk level blk j + radixAt level) (pieceFirst level blk first j) >
        first + count - pieceFirst level blk first j then first + count - pieceFirst level blk first j
      else less (childBlk level blk j + radixAt level) (pieceFirst level blk first j)) =
      pieceCount level blk first count j := by
    rw [less_of_le (by unfold pieceFirst; omega) (by omega)]
    unfold pieceCount
    split <;> omega
  refine ⟨⟨more,past⟩,(word (pieceFirst level blk first j + pieceCount level blk first count j),
    less (first + count - pieceFirst level blk first j) (pieceCount level blk first count j),childBlk level blk j + radixAt level),
    fun a carried => ⟨carried,le_succ_of_le from_,?_,?_,next.symm⟩,?_⟩
  · dsimp only
    rw [word_of_lt (by unfold pieceCount; omega),next]
    unfold pieceCount pieceFirst
    omega
  · dsimp only
    rw [less_of_le (by unfold pieceCount; omega) (by omega),word_of_lt (by unfold pieceCount; omega)]
    omega
  unfold piecesRound
  dsimp only
  rw [word_of_lt (by omega),word_of_lt (by omega),if_pos (by omega),start,size]

theorem piecesRound_stops {inv : Nat → α → Prop}
    (top : first + count ≤ blk + radixAt (level + 1)) (high : blk + radixAt (level + 1) < blistNone)
    (held : PieceState inv level blk first count j s) (done : first + count ≤ childBlk level blk j) :
    piecesRound visit (radixAt level) i s = .ok (.stop s) := by
  obtain ⟨a,f,c,b⟩ := s
  obtain ⟨own,from_,place,size,base⟩ := held
  dsimp only at own place size base
  unfold blistNone at high
  unfold piecesRound
  dsimp only
  rw [word_of_lt (by omega),if_neg (by omega)]

theorem piecesRound_spec (inv : Nat → α → Prop) (some : 0 < count) (top : first + count ≤ blk + radixAt (level + 1))
    (high : blk + radixAt (level + 1) < blistNone)
    (visits : ∀ j a, j < 16 → Touches level blk first count j → inv j a →
      ∃ b, visit (1 + j * (skipAt level + 1)) (pieceFirst level blk first j) (pieceCount level blk first count j)
        (childBlk level blk j) a = .ok b ∧ inv (j + 1) b)
    (inside : j < 16) (held : PieceState inv level blk first count j s) :
    Carries (piecesRound visit (radixAt level)) (skipAt level + 1) (PieceState inv level blk first count)
      (fun j s => PieceState inv level blk first count j s ∧ first + count ≤ childBlk level blk j) j s := by
  unfold Carries
  by_cases more : childBlk level blk j < first + count
  · obtain ⟨touches,rest,carries,round⟩ := piecesRound_visits some top high inside held more
    obtain ⟨a,ran,carried⟩ := visits j s.1 inside touches held.1
    rw [round,ran,ok_bind]
    exact .inl ⟨_,rfl,carries a carried⟩
  rw [piecesRound_stops top high held (Nat.le_of_not_lt more)]
  exact .inr ⟨_,rfl,held,Nat.le_of_not_lt more⟩

theorem pieces_begin (visit : Nat → Nat → Nat → Nat → α → Except Halt α) (a : α) (low : blk ≤ first) (small : first < 2 ^ 32) :
    pieces visit (radixAt level) (skipAt (level + 1)) (skipAt level + 1) (less first blk / radixAt level * (skipAt level + 1) + 1) first count
        (word (blk + less first blk / radixAt level * radixAt level)) a =
      (forLoop (skipAt (level + 1)) (skipAt level + 1) (piecesRound visit (radixAt level)) (blistMetaRadix + 1)
        (1 + firstChild level blk first * (skipAt level + 1)) (a,first,count,childBlk level blk (firstChild level blk first)) >>= fun s => .ok s.2.1) := by
  have begin : word (blk + firstChild level blk first * radixAt level) = childBlk level blk (firstChild level blk first) :=
    word_of_lt (lt_of_le_of_lt (firstChild_le level low) small)
  rw [less_of_le low small]
  change pieces visit (radixAt level) (skipAt (level + 1)) (skipAt level + 1)
    (firstChild level blk first * (skipAt level + 1) + 1) first count (word (blk + firstChild level blk first * radixAt level)) a = _
  rw [begin,add_comm (firstChild level blk first * (skipAt level + 1)) 1]
  rfl

theorem pieces_start {inv : Nat → α → Prop} (low : blk ≤ first) (start : inv (firstChild level blk first) a) :
    PieceState inv level blk first count (firstChild level blk first) (a,first,count,childBlk level blk (firstChild level blk first)) := by
  have below := firstChild_le level low
  exact ⟨start,le_rfl,by dsimp only; omega,by dsimp only; omega,rfl⟩

theorem pieces_rule (visit : Nat → Nat → Nat → Nat → α → Except Halt α) (inv : Nat → α → Prop) (some : 0 < count) (low : blk ≤ first)
    (top : first + count ≤ blk + radixAt (level + 1)) (high : blk + radixAt (level + 1) < blistNone)
    (visits : ∀ j a, j < 16 → Touches level blk first count j → inv j a →
      ∃ b, visit (1 + j * (skipAt level + 1)) (pieceFirst level blk first j) (pieceCount level blk first count j)
        (childBlk level blk j) a = .ok b ∧ inv (j + 1) b)
    (start : inv (firstChild level blk first) a) :
    ∃ j b, pieces visit (radixAt level) (skipAt (level + 1)) (skipAt level + 1)
        (less first blk / radixAt level * (skipAt level + 1) + 1) first count
        (word (blk + less first blk / radixAt level * radixAt level)) a = .ok b ∧
      inv j b ∧ j ≤ 16 ∧ first + count ≤ childBlk level blk j := by
  have small : first < 2 ^ 32 := by
    unfold blistNone at high
    omega
  have inside := firstChild_lt (show first < blk + radixAt (level + 1) by omega) low
  obtain ⟨j,⟨b,f,c,d⟩,ran,le,ends⟩ := children_loop _ _
    (fun j s inside held => piecesRound_spec inv some top high visits inside held)
    (firstChild level blk first) inside.le (pieces_start low start)
  refine ⟨j,b,?_,?_⟩
  · rw [pieces_begin visit a low small,ran]
    rfl
  rcases ends with ⟨rfl,held⟩ | ⟨_,held,past⟩
  · exact ⟨held.1,le,by rw [childBlk_last]; exact top⟩
  · exact ⟨held.1,le,past⟩

theorem mem_piece (j : Nat) (low : childBlk level blk j ≤ b) (high : b < childBlk level blk j + radixAt level) :
    b ∈ Finset.Ico (pieceFirst level blk first j) (pieceFirst level blk first j + pieceCount level blk first count j) ↔
      b ∈ Finset.Ico first (first + count) := by
  rw [mem_Ico,mem_Ico]
  unfold pieceCount pieceFirst
  omega

section
variable (touches : Touches level blk first count j)
include touches

theorem piece_pos (some : 0 < count) : 0 < pieceCount level blk first count j := by
  have := radixAt_pos level
  obtain ⟨before,past⟩ := touches
  unfold pieceCount pieceFirst
  omega

theorem piece_top :
    pieceFirst level blk first j + pieceCount level blk first count j ≤ childBlk level blk j + radixAt level := by
  obtain ⟨before,past⟩ := touches
  unfold pieceCount pieceFirst
  omega

theorem piece_last :
    pieceFirst level blk first j + pieceCount level blk first count j ≤ first + count := by
  obtain ⟨before,past⟩ := touches
  unfold pieceCount pieceFirst
  omega
end

theorem untouched (low : blk ≤ first) (past : first + count ≤ childBlk level blk j)
    (out : ¬(firstChild level blk first ≤ k ∧ k < j)) (from_ : childBlk level blk k ≤ b)
    (to_ : b < childBlk level blk k + radixAt level) : b ∉ Finset.Ico first (first + count) := by
  intro mem
  have bounds := mem_Ico.mp mem
  by_cases before : k < firstChild level blk first
  · have := childBlk_mono level blk (show k + 1 ≤ firstChild level blk first from before)
    have := firstChild_le level low
    have := childBlk_succ level blk k
    omega
  have := childBlk_mono level blk (show j ≤ k by omega)
  omega

-- blst_meta_free on this node, or on a node below that it reaches, ends with
-- all blocks of a partly free node free while the hint is below a leaf's size.
def Completes (m : Mem) : Nat → Nat → Nat → Nat → Nat → Prop
  | 0, _, _, _, _ => False
  | level + 1, scan, first, count, blk => (m.node scan).u ≠ 0 ∧
    if (m.node scan).u + count = radixAt (level + 1) then (m.node scan).bmBighint < blistBmapRadix
    else ∃ j < 16, Touches level blk first count j ∧
      Completes m level (childAt level scan j) (pieceFirst level blk first j) (pieceCount level blk first count j)
        (childBlk level blk j)

theorem Completes.frame (completes : Completes t level scan first count blk)
    (same : ∀ i, scan ≤ i → i ≤ scan + skipAt level → t.node i = m.node i) : Completes m level scan first count blk := by
  induction level generalizing scan first count blk with
  | zero => exact completes
  | succ level ih =>
    have root := same scan le_rfl (by omega)
    unfold Completes at completes ⊢
    rw [root] at completes
    obtain ⟨some,rest⟩ := completes
    refine ⟨some,?_⟩
    split at rest
    · next full =>
      rw [if_pos full]
      exact rest
    next partly =>
    rw [if_neg partly]
    obtain ⟨j,inside,touches,below⟩ := rest
    have low := lt_childAt level scan j
    have high := childAt_end level scan inside
    exact ⟨j,inside,touches,ih below fun i from_ to_ => same i (by omega) (by omega)⟩

theorem Completes.some (completes : Completes m level scan first count blk) : (m.node scan).u ≠ 0 := by
  cases level with
  | zero => exact completes.elim
  | succ level => exact completes.1

def FreeSpec (hints : Prop) (blocks : Nat) (free : Finset Nat) (level : Nat)
    (op : Mem → Nat → Nat → Nat → Nat → Except Halt Mem) : Prop :=
  ∀ m scan first count blk, Shape m blocks level scan blk → Tree hints m blocks free level scan blk → blk % 32 = 0 →
    0 < count → blk ≤ first → first + count ≤ blk + radixAt level → blk + radixAt level < blistNone →
    first + count ≤ blocks → (∀ b ∈ Finset.Ico first (first + count), b ∉ free) →
    (hints → ¬Completes m level scan first count blk) →
    ∃ t, op m scan first count blk = .ok t ∧ Frees hints m t blocks free level scan blk first count

structure Freeing (hints : Prop) (m : Mem) (blocks : Nat) (free : Finset Nat) (level scan blk first count j : Nat) (t : Mem) :
    Prop where
  kept : Kept m t scan (skipAt (level + 1))
  shape : Shape t blocks (level + 1) scan blk
  avail : (t.node scan).u = (m.node scan).u
  rise : (m.node scan).bmBighint ≤ (t.node scan).bmBighint
  still : ∀ k < 16, j ≤ k → ∀ i, childAt level scan k ≤ i → i ≤ childAt level scan k + skipAt level → t.node i = m.node i
  kids : Kids hints t blocks (fun k => if k < j then free ∪ Finset.Ico first (first + count) else free) level scan blk
  seen : ∀ k, firstChild level blk first ≤ k → k < j → childBlk level blk k < blocks ∧
    (t.node (childAt level scan k)).bmBighint ≤ (t.node scan).bmBighint

theorem Freeing.visited (held : Freeing hints m blocks free level scan blk first count j t) (inside : j < 16)
    (real : childBlk level blk j < blocks) (kept : Kept t u (childAt level scan j) (skipAt level))
    (child : Frees hints t u blocks free level (childAt level scan j) (childBlk level blk j) (pieceFirst level blk first j)
      (pieceCount level blk first count j))
    (avail : node.u = (t.node scan).u) (rise : (t.node scan).bmBighint ≤ node.bmBighint) (hint : node.bmBighint ≠ blistNone)
    (own : (u.node (childAt level scan j)).bmBighint ≤ node.bmBighint) :
    Freeing hints m blocks free level scan blk first count (j + 1) (u.set scan node) where
  kept := (held.kept.trans (kept_child kept inside)).trans (kept_set le_rfl (by omega))
  shape := (held.shape.setChild inside real kept child.shape).setRoot hint
  avail := by
    rw [set_same,avail]
    exact held.avail
  rise := by
    rw [set_same]
    exact held.rise.trans rise
  still := by
    intro k lt late i low high
    have := lt_childAt level scan k
    rw [set_other (by omega),kept.outside i (child_apart (by omega) low high)]
    exact held.still k lt (by omega) i low high
  kids := by
    refine Kids.setRoot (held.kids.setChild kept ?_ fun k _ other b _ _ => ?_)
    · rw [if_pos (lt_succ_self j)]
      refine child.tree.frame (fun _ _ _ => rfl) fun b low high => ?_
      rw [mem_union,mem_union,mem_piece j low high]
    split
    · rw [if_pos (by omega)]
    · rw [if_neg (by omega)]
  seen := by
    intro k from_ to_
    have := lt_childAt level scan k
    rw [set_same,set_other (by omega)]
    by_cases last : k = j
    · subst k
      exact ⟨real,own⟩
    have apart := childAt_before level scan (show k < j by omega)
    obtain ⟨present,lower⟩ := held.seen k from_ (by omega)
    rw [kept.outside _ (.inl (by omega))]
    exact ⟨present,lower.trans rise⟩

theorem freePiece_spec (spec : FreeSpec hints blocks free level op) (aligned : blk % 32 = 0) (some : 0 < count)
    (high : blk + radixAt (level + 1) < blistNone)
    (within : first + count ≤ blocks) (taken : ∀ b ∈ Finset.Ico first (first + count), b ∉ free)
    (calm : hints → ∀ j < 16, Touches level blk first count j →
      ¬Completes m level (childAt level scan j) (pieceFirst level blk first j) (pieceCount level blk first count j)
        (childBlk level blk j))
    (inside : j < 16) (touches : Touches level blk first count j)
    (held : Freeing hints m blocks free level scan blk first count j t) :
    ∃ u, freePiece op scan (1 + j * (skipAt level + 1)) (pieceFirst level blk first j) (pieceCount level blk first count j)
        (childBlk level blk j) t = .ok u ∧
      Freeing hints m blocks free level scan blk first count (j + 1) u := by
  have real : childBlk level blk j < blocks := lt_of_lt_of_le touches.1 within
  have last := childBlk_end level blk inside
  have under := lt_childAt level scan j
  have tree : Tree hints t blocks free level (childAt level scan j) (childBlk level blk j) := by
    have kid := held.kids j inside real
    dsimp only at kid
    rwa [if_neg (lt_irrefl j)] at kid
  have part (b : Nat) (mem : b ∈ Finset.Ico (pieceFirst level blk first j)
      (pieceFirst level blk first j + pieceCount level blk first count j)) : b ∉ free := by
    have bounds := mem_Ico.mp mem
    have low : childBlk level blk j ≤ b := (le_max_right _ _).trans bounds.1
    have := piece_top touches
    exact taken b ((mem_piece j low (by omega)).mp mem)
  obtain ⟨u,ran,child⟩ := spec t (childAt level scan j) (pieceFirst level blk first j)
    (pieceCount level blk first count j) _ (held.shape.child inside real) tree
    (childBlk_aligned aligned level j) (piece_pos touches some) (le_max_right _ _) (piece_top touches) (by omega)
    ((piece_last touches).trans within) part
    (fun on completes => calm on j inside touches (completes.frame (held.still j inside le_rfl)))
  have node : u.node scan = t.node scan := child.kept.outside scan (.inl under)
  have whole : Shape u blocks (level + 1) scan blk := held.shape.setChild inside real child.kept child.shape
  have fetched : fetch t scan = .ok (t.node scan) := fetch_ok held.shape.root.1
  have refetched : fetch u scan = .ok (t.node scan) := node ▸ fetch_ok whole.root.1
  have below : fetch u (scan + (1 + j * (skipAt level + 1))) = .ok (u.node (childAt level scan j)) := fetch_ok child.shape.root.1
  change op t (scan + (1 + j * (skipAt level + 1))) _ _ _ = _ at ran
  unfold freePiece
  rw [fetched,ok_bind,if_neg held.shape.root.2,ran,ok_bind,refetched,ok_bind,below,ok_bind]
  split_ifs with lower
  · rw [store_leaf whole]
    exact ⟨_,rfl,held.visited inside real child.kept child rfl lower.le child.shape.root.2 le_rfl⟩
  rw [← set_self u scan]
  exact ⟨_,rfl,held.visited inside real child.kept child (by rw [node]) (by rw [node]) whole.root.2
    (by rw [node]; exact Nat.le_of_not_lt lower)⟩

theorem card_give (taken : ∀ b ∈ Finset.Ico first (first + count), b ∉ free) (low : blk ≤ first)
    (high : first + count ≤ blk + radixAt level) :
    ((free ∪ Finset.Ico first (first + count)) ∩ blocksOf level blk).card = (free ∩ blocksOf level blk).card + count := by
  have inside : Finset.Ico first (first + count) ∩ blocksOf level blk = Finset.Ico first (first + count) := by
    refine inter_eq_left.mpr fun b mem => ?_
    have bounds := mem_Ico.mp mem
    exact mem_Ico.mpr (by omega)
  have apart : Disjoint (free ∩ blocksOf level blk) (Finset.Ico first (first + count)) :=
    disjoint_right.mpr fun b mem held => taken b mem (mem_inter.mp held).1
  rw [union_inter_distrib_right,inside,card_union_of_disjoint apart,Nat.card_Ico,Nat.add_sub_cancel_left]

theorem freePieces_spec (spec : FreeSpec hints blocks free level op) (aligned : blk % 32 = 0) (some : 0 < count) (low : blk ≤ first)
    (top : first + count ≤ blk + radixAt (level + 1)) (high : blk + radixAt (level + 1) < blistNone)
    (within : first + count ≤ blocks) (taken : ∀ b ∈ Finset.Ico first (first + count), b ∉ free)
    (calm : hints → ∀ j < 16, Touches level blk first count j →
      ¬Completes m level (childAt level scan j) (pieceFirst level blk first j) (pieceCount level blk first count j)
        (childBlk level blk j))
    (shape : Shape m blocks (level + 1) scan blk) (kids : Kids hints m blocks (fun _ => free) level scan blk)
    (avail : (m.node scan).u = (free ∩ blocksOf (level + 1) blk).card + count)
    (old : hints → Hint m free (level + 1) scan blk) :
    ∃ t, pieces (freePiece op scan) (radixAt level) (skipAt (level + 1)) (skipAt level + 1)
        (less first blk / radixAt level * (skipAt level + 1) + 1) first count
        (word (blk + less first blk / radixAt level * radixAt level)) m = .ok t ∧
      Frees hints m t blocks free (level + 1) scan blk first count := by
  have start : Freeing hints m blocks free level scan blk first count (firstChild level blk first) m :=
    ⟨Kept.refl _ _ _,shape,rfl,le_rfl,fun _ _ _ _ _ _ => rfl,fun k lt real => by
      refine (kids k lt real).frame (fun _ _ _ => rfl) fun b from_ to_ => ?_
      dsimp only
      by_cases before : k < firstChild level blk first
      · have next := childBlk_mono level blk (show k + 1 ≤ firstChild level blk first from before)
        have := firstChild_le level low
        have := childBlk_succ level blk k
        rw [if_pos before,mem_union,mem_Ico]
        constructor
        · exact fun mem => .inl mem
        rintro (mem | bounds)
        · exact mem
        · omega
      · rw [if_neg before],
      fun k from_ to_ => by omega⟩
  obtain ⟨j,t,ran,held,_,past⟩ := pieces_rule (freePiece op scan) _ some low top high
    (fun j t inside touches held => freePiece_spec spec aligned some high within taken calm inside touches held) start
  refine ⟨t,ran,held.kept,held.shape,tree_node ?_ (fun on fewer fits => ?_) fun k lt real => ?_⟩
  · rw [held.avail,avail,card_give taken low top]
  · obtain ⟨k,lt,found⟩ := fits.child aligned
    by_cases visited : firstChild level blk first ≤ k ∧ k < j
    · obtain ⟨real,lower⟩ := held.seen k visited.1 visited.2
      have kid := held.kids k lt real
      dsimp only at kid
      rw [if_pos visited.2] at kid
      exact (kid.hint on fewer found).trans lower
    refine (old on fewer (Fits.lift (found.mono fun b from_ to_ mem => ?_) lt)).trans held.rise
    rcases mem_union.mp mem with mem | mem
    · exact mem
    · exact (untouched low past visited from_ to_ mem).elim
  refine (held.kids k lt real).frame (fun _ _ _ => rfl) fun b from_ to_ => ?_
  dsimp only
  split_ifs with before
  · rfl
  rw [mem_union]
  have out := untouched low past (fun both => before both.2) from_ to_
  tauto

theorem tree_whole (node : (m.node scan).u = radixAt (level + 1))
    (card : (free ∩ blocksOf (level + 1) blk).card = radixAt (level + 1)) (big : hints → 32 ≤ (m.node scan).bmBighint) :
    Tree hints m blocks free (level + 1) scan blk :=
  ⟨node.trans card.symm,fun on _ fits => fits.bound.trans (big on),fun _ more => absurd node more.ne⟩

theorem metaFree_spec (depth : Nat)
    (spec : FreeSpec hints blocks free level fun m scan first count blk =>
      if skipAt level + 1 = 1 then blstLeafFree m scan first count
      else blstMetaFree depth m scan first count (radixAt level) (skipAt level + 1 - 1) blk) :
    FreeSpec hints blocks free (level + 1) fun m scan first count blk =>
      blstMetaFree (depth + 1) m scan first count (radixAt (level + 1)) (skipAt (level + 1)) blk := by
  intro m scan first count blk shape tree aligned some low top high within taken calm
  have avail := tree.1
  have given := card_give taken low top
  have bound := card_inter_le (free ∪ Finset.Ico first (first + count)) (level + 1) blk
  have small : radixAt (level + 1) < 2 ^ 32 - 1 := by
    unfold blistNone at high
    omega
  have fetched : fetch m scan = .ok (m.node scan) := fetch_ok shape.root.1
  dsimp only
  rw [blstMetaFree,skipAt_div]
  rw [fetched,ok_bind]
  by_cases zero : (m.node scan).u = 0
  · -- all allocated: the node gets the count as its hint
    have empty (b : Nat) (from_ : blk ≤ b) (to_ : b < blk + radixAt (level + 1)) : b ∉ free :=
      of_card_zero (avail.symm.trans zero) from_ to_
    have shaped : Shape (m.set scan ⟨count,count⟩) blocks (level + 1) scan blk :=
      shape.setRoot (show count ≠ blistNone by unfold blistNone; omega)
    have none : (free ∩ blocksOf (level + 1) blk).card = 0 := avail.symm.trans zero
    rw [if_pos zero,store_leaf shape,ok_bind]
    by_cases all : count = radixAt (level + 1)
    · have again : fetch (m.set scan ⟨count,count⟩) scan = .ok ⟨count,count⟩ := by
        rw [fetch_ok shaped.root.1,set_same]
      rw [if_neg (fun ne => ne all),ok_bind,again,ok_bind,if_pos all]
      refine ⟨_,rfl,kept_set le_rfl (by omega),shaped,tree_whole ?_ (by omega) fun _ => ?_⟩
      · rw [set_same]
        exact all
      rw [set_same,all]
      exact le_radixAt _
    obtain ⟨t,opened,kept,root,shaped,values⟩ := initSublevel_spec ⟨0,0⟩ ⟨0,0⟩ shaped
      (show 0 ≠ blistNone by decide) (show 0 ≠ blistNone by decide)
    have node : t.node scan = ⟨count,count⟩ := by
      rw [root,set_same]
    have value (j : Nat) (inside : j < 16) (real : childBlk level blk j < blocks) : (t.node (childAt level scan j)).u = 0 := by
      rw [values j inside real]
      split <;> rfl
    have again : fetch t scan = .ok ⟨count,count⟩ := node ▸ fetch_ok shaped.root.1
    rw [if_pos all,show allAllocated (m.set scan ⟨count,count⟩) scan (skipAt (level + 1)) (skipAt level + 1) = .ok t from opened,
      ok_bind,again,ok_bind,if_neg all,if_neg (by dsimp only; omega),radixAt_div]
    obtain ⟨u,ran,done⟩ := freePieces_spec spec aligned some low top high within taken
      (fun _ j inside touches completes => completes.some (value j inside (lt_of_lt_of_le touches.1 within)))
      shaped
      (fun j inside real => tree_empty (value j inside real) fun b from_ to_ =>
        have := le_childBlk level blk j
        have := childBlk_end level blk inside
        empty b (by omega) (by omega))
      (by rw [node,none,zero_add])
      (fun _ fewer fits => by
        have := fits.card
        omega)
    exact ⟨u,ran,((kept_set le_rfl (by omega)).trans kept).trans done.kept,done.shape,done.tree⟩
  rw [if_neg zero,word_of_lt (by omega),store_leaf shape,ok_bind]
  have hint : (m.node scan).bmBighint ≠ blistNone := shape.root.2
  have shaped : Shape (m.set scan {m.node scan with u := (m.node scan).u + count}) blocks (level + 1) scan blk :=
    shape.setRoot hint
  have again : fetch (m.set scan {m.node scan with u := (m.node scan).u + count}) scan =
      .ok {m.node scan with u := (m.node scan).u + count} := by
    rw [fetch_ok shaped.root.1,set_same]
  rw [again,ok_bind]
  dsimp only
  by_cases all : (m.node scan).u + count = radixAt (level + 1)
  · -- all free: the hint stays as it was
    rw [if_pos all]
    refine ⟨_,rfl,kept_set le_rfl (by omega),shaped,tree_whole ?_ (by omega) fun on => ?_⟩
    · rw [set_same]
      exact all
    rw [set_same]
    by_contra lower
    refine calm on ⟨zero,?_⟩
    rw [if_pos all]
    exact Nat.lt_of_not_le lower
  rw [if_neg all,if_neg (by omega),radixAt_div]
  obtain ⟨u,ran,done⟩ := freePieces_spec spec aligned some low top high within taken
    (fun on j inside touches completes => by
      refine calm on ⟨zero,?_⟩
      rw [if_neg all]
      refine ⟨j,inside,touches,completes.frame fun i from_ _ => ?_⟩
      have := lt_childAt level scan j
      exact set_other (by omega))
    shaped (Kids.setRoot (tree.2.2 (by omega) (by omega)))
    (by
      rw [set_same]
      rw [avail])
    (fun on fewer fits => by
      rw [set_same]
      exact tree.hint on fewer fits)
  exact ⟨u,ran,(kept_set le_rfl (by omega)).trans done.kept,done.shape,done.tree⟩

theorem free_spec (level depth : Nat) (deep : level ≤ depth) :
    FreeSpec hints blocks free level fun m scan first count blk =>
      if skipAt level + 1 = 1 then blstLeafFree m scan first count
      else blstMetaFree depth m scan first count (radixAt level) (skipAt level + 1 - 1) blk := by
  induction level generalizing depth with
  | zero =>
    intro m scan first count blk shape tree aligned some low top high within taken _
    dsimp only
    exact leafFree_spec shape tree aligned some low top taken
  | succ level ih =>
    obtain ⟨depth,rfl⟩ : ∃ d, depth = d + 1 := ⟨depth - 1,by omega⟩
    intro m scan first count blk
    dsimp only
    exact metaFree_spec depth (ih depth (by omega)) m scan first count blk

def FillSpec (hints : Prop) (blocks : Nat) (free : Finset Nat) (level : Nat)
    (op : Mem → Nat → Nat → Nat → Nat → Except Halt (Nat × Mem)) : Prop :=
  ∀ m scan first count blk, Shape m blocks level scan blk → Tree hints m blocks free level scan blk → blk % 32 = 0 →
    0 < count → blk ≤ first → first + count ≤ blk + radixAt level → blk + radixAt level < blistNone →
    first + count ≤ blocks →
    ∃ t, op m scan first count blk = .ok ((free ∩ Finset.Ico first (first + count)).card,t) ∧
      Fills hints m t blocks free level scan blk first count

theorem card_split (free : Finset Nat) (low : first ≤ middle) (high : middle ≤ last) :
    (free ∩ Finset.Ico first middle).card + (free ∩ Finset.Ico middle last).card = (free ∩ Finset.Ico first last).card := by
  have apart : Disjoint (free ∩ Finset.Ico first middle) (free ∩ Finset.Ico middle last) := by
    refine disjoint_left.mpr fun b left right => ?_
    have before := mem_Ico.mp (mem_inter.mp left).2
    have after := mem_Ico.mp (mem_inter.mp right).2
    omega
  rw [← card_union_of_disjoint apart,← inter_union_distrib_left,Finset.Ico_union_Ico_eq_Ico low high]

theorem card_range_le (free : Finset Nat) (first last : Nat) : (free ∩ Finset.Ico first last).card ≤ last - first := by
  have := card_le_card (show free ∩ Finset.Ico first last ⊆ Finset.Ico first last from inter_subset_right)
  rwa [card_Ico] at this

structure Filling (hints : Prop) (m : Mem) (blocks : Nat) (free : Finset Nat) (level scan blk first count j : Nat) (s : Nat × Mem) :
    Prop where
  kept : Kept m s.2 scan (skipAt (level + 1))
  shape : Shape s.2 blocks (level + 1) scan blk
  root : s.2.node scan = m.node scan
  kids : Kids hints s.2 blocks (fun k => if k < j then free \ Finset.Ico first (first + count) else free) level scan blk
  filled : s.1 = (free ∩ Finset.Ico first (min (first + count) (max first (childBlk level blk j)))).card

theorem fillPiece_spec (spec : FillSpec hints blocks free level op) (aligned : blk % 32 = 0) (some : 0 < count)
    (high : blk + radixAt (level + 1) < blistNone) (top : first + count ≤ blk + radixAt (level + 1))
    (within : first + count ≤ blocks) (inside : j < 16) (touches : Touches level blk first count j)
    (held : Filling hints m blocks free level scan blk first count j s) :
    ∃ t, fillPiece op scan (1 + j * (skipAt level + 1)) (pieceFirst level blk first j) (pieceCount level blk first count j)
        (childBlk level blk j) s = .ok t ∧
      Filling hints m blocks free level scan blk first count (j + 1) t := by
  obtain ⟨nblks,t⟩ := s
  have real : childBlk level blk j < blocks := lt_of_lt_of_le touches.1 within
  have last := childBlk_end level blk inside
  have tree : Tree hints t blocks free level (childAt level scan j) (childBlk level blk j) := by
    have kid := held.kids j inside real
    dsimp only at kid
    rwa [if_neg (lt_irrefl j)] at kid
  obtain ⟨u,ran,kept,shape,kid⟩ := spec t (childAt level scan j) (pieceFirst level blk first j)
    (pieceCount level blk first count j) _ (held.shape.child inside real) tree
    (childBlk_aligned aligned level j) (piece_pos touches some) (le_max_right _ _) (piece_top touches) (by omega)
    ((piece_last touches).trans within)
  have total : nblks + (free ∩ Finset.Ico (pieceFirst level blk first j) (pieceFirst level blk first j +
      pieceCount level blk first count j)).card =
        (free ∩ Finset.Ico first (min (first + count) (max first (childBlk level blk (j + 1))))).card := by
    obtain ⟨before,past⟩ := touches
    have counted := held.filled
    have place : min (first + count) (max first (childBlk level blk j)) = pieceFirst level blk first j := by
      unfold pieceFirst
      omega
    have stop : pieceFirst level blk first j + pieceCount level blk first count j =
        min (first + count) (max first (childBlk level blk (j + 1))) := by
      rw [childBlk_succ]
      unfold pieceCount pieceFirst
      omega
    dsimp only at counted
    rw [place] at counted
    rw [counted,stop]
    refine card_split free (le_max_left _ _) ?_
    rw [← stop]
    exact le_add_right _ _
  have few := card_range_le free first (min (first + count) (max first (childBlk level blk (j + 1))))
  unfold blistNone at high
  have fetched : fetch t scan = .ok (t.node scan) := fetch_ok held.shape.root.1
  change op t (scan + (1 + j * (skipAt level + 1))) _ _ _ = _ at ran
  unfold fillPiece
  dsimp only
  rw [fetched,ok_bind,if_neg held.shape.root.2,ran,ok_bind]
  rw [total,word_of_lt (by omega)]
  refine ⟨_,rfl,held.kept.trans (kept_child kept inside),held.shape.setChild inside real kept shape,?_,?_,rfl⟩
  · exact (kept.outside scan (.inl (lt_childAt level scan j))).trans held.root
  refine held.kids.setChild kept ?_ fun k _ other b _ _ => ?_
  · rw [if_pos (lt_succ_self j)]
    refine kid.frame (fun _ _ _ => rfl) fun b low high => ?_
    rw [mem_sdiff,mem_sdiff,mem_piece j low high]
  split
  · rw [if_pos (by omega)]
  · rw [if_neg (by omega)]

theorem fillPieces_spec (spec : FillSpec hints blocks free level op) (aligned : blk % 32 = 0) (some : 0 < count) (low : blk ≤ first)
    (top : first + count ≤ blk + radixAt (level + 1)) (high : blk + radixAt (level + 1) < blistNone)
    (within : first + count ≤ blocks) (below : Below hints m m₁ blocks (fun _ => free) level scan blk) :
    ∃ t, pieces (fillPiece op scan) (radixAt level) (skipAt (level + 1)) (skipAt level + 1)
        (less first blk / radixAt level * (skipAt level + 1) + 1) first count
        (word (blk + less first blk / radixAt level * radixAt level)) (0,m₁) =
          .ok ((free ∩ Finset.Ico first (first + count)).card,t) ∧
      t.node scan = m₁.node scan ∧
      Below hints m t blocks (fun _ => free \ Finset.Ico first (first + count)) level scan blk := by
  have begin := firstChild_le level low
  have start : Filling hints m₁ blocks free level scan blk first count (firstChild level blk first) (0,m₁) := by
    refine ⟨Kept.refl _ _ _,below.shape,rfl,fun k lt real => ?_,?_⟩
    · refine (below.kids k lt real).frame (fun _ _ _ => rfl) fun b from_ to_ => ?_
      dsimp only
      by_cases before : k < firstChild level blk first
      · have next := childBlk_mono level blk (show k + 1 ≤ firstChild level blk first from before)
        have := childBlk_succ level blk k
        have out : b ∉ Finset.Ico first (first + count) := by
          rw [mem_Ico]
          omega
        rw [if_pos before,mem_sdiff]
        tauto
      · rw [if_neg before]
    have empty : min (first + count) (max first (childBlk level blk (firstChild level blk first))) = first := by omega
    rw [empty,Finset.Ico_self,Finset.inter_empty,Finset.card_empty]
  obtain ⟨j,⟨nblks,t⟩,ran,held,_,past⟩ := pieces_rule (fillPiece op scan) _ some low top high
    (fun j s inside touches held => fillPiece_spec spec aligned some high top within inside touches held) start
  have all : min (first + count) (max first (childBlk level blk j)) = first + count := by omega
  have counted := held.filled
  rw [all] at counted
  refine ⟨t,counted ▸ ran,held.root,below.kept.trans held.kept,held.shape,fun k lt real => ?_⟩
  refine (held.kids k lt real).frame (fun _ _ _ => rfl) fun b from_ to_ => ?_
  dsimp only
  by_cases before : k < j
  · rw [if_pos before]
  have out := untouched low past (fun both => before both.2) from_ to_
  rw [if_neg before,mem_sdiff]
  tauto

theorem metaFill_spec (depth : Nat)
    (spec : FillSpec hints blocks free level fun m scan first count blk =>
      if skipAt level + 1 = 1 then blstLeafFill m scan first count
      else blstMetaFill depth m scan first count (radixAt level) (skipAt level + 1 - 1) blk) :
    FillSpec hints blocks free (level + 1) fun m scan first count blk =>
      blstMetaFill (depth + 1) m scan first count (radixAt (level + 1)) (skipAt (level + 1)) blk := by
  intro m scan first count blk shape tree aligned some low top high within
  have avail := tree.1
  have bound := card_inter_le free (level + 1) blk
  have fetched : fetch m scan = .ok (m.node scan) := fetch_ok shape.root.1
  have inside : free ∩ Finset.Ico first (first + count) ⊆ free ∩ blocksOf (level + 1) blk := by
    refine inter_subset_inter_left fun b mem => ?_
    have bounds := mem_Ico.mp mem
    exact mem_Ico.mpr (by omega)
  have part := card_le_card inside
  dsimp only
  rw [blstMetaFill,skipAt_div]
  dsimp only
  rw [fetched,ok_bind]
  by_cases collapses : count = radixAt (level + 1) ∨ (m.node scan).u = 0
  · have whole : (m.node scan).u = (free ∩ Finset.Ico first (first + count)).card ∧
        ∀ b, blk ≤ b → b < blk + radixAt (level + 1) → b ∉ free \ Finset.Ico first (first + count) := by
      rcases collapses with full | zero
      · have same : first = blk := by omega
        subst same
        refine ⟨by rw [avail,full]; rfl,fun b from_ to_ mem => (mem_sdiff.mp mem).2 (mem_Ico.mpr (by omega))⟩
      · exact ⟨by omega,fun b from_ to_ mem => of_card_zero (avail.symm.trans zero) from_ to_ (mem_sdiff.mp mem).1⟩
    rw [if_pos collapses,store_leaf shape,ok_bind,whole.1]
    exact ⟨_,rfl,kept_set le_rfl (by omega),shape.setRoot (show count ≠ blistNone by omega),
      tree_empty (by rw [set_same]) whole.2⟩
  have fit : radixAt level < blistNone := by
    rw [radixAt_succ] at high
    omega
  obtain ⟨zero,partly⟩ := not_or.mp collapses
  obtain ⟨m₁,opened,root,below⟩ := open_children shape tree fit partly
  obtain ⟨t,ran,same,below⟩ := fillPieces_spec spec aligned some low top high within below
  have node : t.node scan = m.node scan := same.trans root
  have again : fetch t scan = .ok (m.node scan) := node ▸ fetch_ok below.shape.root.1
  rw [if_neg collapses,if_neg (by omega),opened,ok_bind,radixAt_div,ran,ok_bind]
  rw [again,ok_bind,store_leaf below.shape,ok_bind,less_of_le (by omega) (by unfold blistNone at high; omega)]
  refine ⟨_,rfl,below.kept.trans (kept_set le_rfl (by omega)),below.shape.setRoot shape.root.2,
    tree_node ?_ (fun on fewer fits => ?_) below.kids.setRoot⟩
  · have split : (free \ Finset.Ico first (first + count)) ∩ blocksOf (level + 1) blk =
        (free ∩ blocksOf (level + 1) blk) \ (free ∩ Finset.Ico first (first + count)) := by
      ext b
      simp only [mem_inter,mem_sdiff]
      tauto
    rw [set_same,split,card_sdiff_of_subset inside,← avail]
  rw [set_same]
  exact tree.hint on fewer (fits.mono fun b _ _ mem => (mem_sdiff.mp mem).1)

theorem fill_spec (level depth : Nat) (deep : level ≤ depth) :
    FillSpec hints blocks free level fun m scan first count blk =>
      if skipAt level + 1 = 1 then blstLeafFill m scan first count
      else blstMetaFill depth m scan first count (radixAt level) (skipAt level + 1 - 1) blk := by
  induction level generalizing depth with
  | zero =>
    intro m scan first count blk shape tree aligned some low top high within
    dsimp only
    exact leafFill_spec shape tree aligned some low top
  | succ level ih =>
    obtain ⟨depth,rfl⟩ : ∃ d, depth = d + 1 := ⟨depth - 1,by omega⟩
    intro m scan first count blk
    dsimp only
    exact metaFill_spec depth (ih depth (by omega)) m scan first count blk
end NetbsdAvr32.Blist
