import NetbsdAvr32.BlistResize

-- No call inside the list reads or writes past the array, whatever the nodes
-- say about the free blocks.
namespace NetbsdAvr32.Blist
open Sweep Outcome Nat
variable {count : Nat}

variable {m t u : Mem} {blocks level scan blk count first i j : Nat} {node : BlMeta}

def Typed (m : Mem) : Prop := ∀ i, (m.node i).bmBighint < 2 ^ 32

theorem Typed.set (typed : Typed m) (word : node.bmBighint < 2 ^ 32) : Typed (m.set i node) := by
  intro k
  by_cases same : k = i
  · subst k
    rw [set_same]
    exact word
  rw [set_other same]
  exact typed k

structure Inside (m : Mem) (blocks level scan blk : Nat) (t : Mem) : Prop where
  kept : Kept m t scan (skipAt level)
  shape : Shape t blocks level scan blk
  typed : Typed t

theorem Inside.refl (shape : Shape m blocks level scan blk) (typed : Typed m) : Inside m blocks level scan blk m := ⟨Kept.refl _ _ _,shape,typed⟩

theorem Inside.setRoot (held : Inside m blocks level scan blk t) (hint : node.bmBighint < blistNone) : Inside m blocks level scan blk (t.set scan node) :=
  ⟨held.kept.trans (kept_set le_rfl (by omega)),held.shape.setRoot (Nat.ne_of_lt hint),held.typed.set (by unfold blistNone at hint; omega)⟩

theorem Inside.child (held : Inside m blocks (level + 1) scan blk u) (inside : j < 16) (real : childBlk level blk j < blocks)
    (own : Inside u blocks level (childAt level scan j) (childBlk level blk j) t) : Inside m blocks (level + 1) scan blk t :=
  ⟨held.kept.trans (kept_child own.kept inside),held.shape.setChild inside real own.kept own.shape,own.typed⟩

theorem Inside.hint (held : Inside m blocks level scan blk t) : (t.node scan).bmBighint < blistNone := by
  have := held.typed scan
  have := held.shape.root.2
  unfold blistNone at *
  omega

theorem stays_store (held : Inside m blocks level scan blk t) (hint : node.bmBighint < blistNone) :
    Stays (Inside m blocks level scan blk) (store t scan node) := by
  rw [store_leaf held.shape]
  exact held.setRoot hint

section loops
variable {leaf inner : BlMeta}

theorem children_stays (level : Nat) (inv : Nat → σ → Prop) (left : σ → Prop) (body : Nat → σ → Except Halt (Round σ)) {s : σ}
    (round : ∀ j s, j < 16 → inv j s → Stays (Leaves inv left j) (body (1 + j * (skipAt level + 1)) s)) (j : Nat) (inside : j ≤ 16) (start : inv j s) :
    Stays (fun r => inv 16 r.2 ∨ left r.2) (forLoop (skipAt (level + 1)) (skipAt level + 1) body (blistMetaRadix + 1) (1 + j * (skipAt level + 1)) s) :=
  forLoop_stays (succ_pos _) rfl round j inside start _ (by unfold blistMetaRadix; omega)

-- All children before `j` cover blocks, which says where the next index points.
structure Reaching (m : Mem) (blocks level scan blk j : Nat) (t : Mem) : Prop where
  held : Inside m blocks (level + 1) scan blk t
  before : ∀ k < j, childBlk level blk k < blocks

section
variable (reaching : Reaching m blocks level scan blk j t)
include reaching

theorem Reaching.read (inside : j < 16) :
    fetch t (scan + (1 + j * (skipAt level + 1))) = .ok (t.node (childAt level scan j)) :=
  fetch_ok (reaching.held.shape.probe inside reaching.before).1

theorem Reaching.real (inside : j < 16) (more : (t.node (childAt level scan j)).bmBighint ≠ blistNone) :
    childBlk level blk j < blocks := by
  by_contra past
  exact more ((reaching.held.shape.probe inside reaching.before).2.mpr (Nat.le_of_not_lt past))

theorem Reaching.next (inside : j < 16) (real : childBlk level blk j < blocks)
    (own : Inside t blocks level (childAt level scan j) (childBlk level blk j) u) : Reaching m blocks level scan blk (j + 1) u where
  held := reaching.held.child inside real own
  before := by
    intro k lt
    rcases lt_or_eq_of_le (le_of_lt_succ lt) with earlier | rfl
    · exact reaching.before k earlier
    · exact real
end

theorem Reaching.start (held : Inside m blocks (level + 1) scan blk t) : Reaching m blocks level scan blk 0 t := ⟨held,fun k lt => by omega⟩

theorem initSublevel_stays (held : Inside m blocks (level + 1) scan blk t) (leafHint : leaf.bmBighint < blistNone) (innerHint : inner.bmBighint < blistNone) :
    Stays (Inside m blocks (level + 1) scan blk) (initSublevel leaf inner t scan (skipAt (level + 1)) (skipAt level + 1)) := by
  have loop := children_stays level (Reaching m blocks level scan blk) (Inside m blocks (level + 1) scan blk)
    (sublevelRound leaf inner scan (skipAt level + 1)) (fun j u inside reaching => ?_) 0 (by omega) (Reaching.start held)
  · rw [zero_mul] at loop
    exact loop.bind fun r ends => ends.elim (fun reaching => reaching.held) id
  rw [sublevelRound,reaching.read inside,ok_bind]
  by_cases ends : (u.node (childAt level scan j)).bmBighint = blistNone
  · rw [if_pos ends]
    exact reaching.held
  have real := reaching.real inside ends
  have child := reaching.held.shape.child inside real
  have hint : (if skipAt level + 1 = 1 then leaf else inner).bmBighint < blistNone := by
    split_ifs
    · exact leafHint
    · exact innerHint
  rw [if_neg ends]
  refine (stays_store (Inside.refl child reaching.held.typed) hint).bind fun u own => ?_
  exact reaching.next inside real own
end loops
-- What the call on a node at this level may do, for any call and any place it
-- is said to be at.
def AllocStays (blocks level : Nat) (alloc : Mem → Nat → Nat → Except Halt (Nat × Mem)) : Prop :=
  ∀ m scan blk base, Shape m blocks level scan blk → Typed m → Stays (fun r => Inside m blocks level scan blk r.2) (alloc m scan base)

theorem leafAlloc_stays (some : 0 < count) (small : count < blistNone) : AllocStays blocks 0 fun m scan base => blstLeafAlloc m scan base count := by
  intro m scan blk base shape typed
  have held := Inside.refl shape typed
  have failed (hint : Nat) (low : hint < blistNone) : Stays (fun r => Inside m blocks 0 scan blk r.2)
      (store m scan {m.node scan with bmBighint := hint} >>= fun m => .ok (blistNone,m)) :=
    (stays_store held low).bind fun _ after => after
  have taken (r : Nat) (bitmap : BitVec 32) : Stays (fun r => Inside m blocks 0 scan blk r.2)
      (store m scan ((m.node scan).withBitmap bitmap) >>= fun m => .ok (r,m)) :=
    (stays_store held (show ((m.node scan).withBitmap bitmap).bmBighint < blistNone from held.hint)).bind fun _ after => after
  have fewer : less count 1 < blistNone := by
    unfold blistNone at small ⊢
    rw [less_of_le some (by omega)]
    omega
  dsimp only
  rw [blstLeafAlloc,fetch_leaf shape,ok_bind]
  by_cases zero : (m.node scan).bmuBitmap = 0
  · rw [if_pos zero]
    exact failed 0 (by decide)
  rw [if_neg zero]
  by_cases one : count = 1
  · obtain ⟨q,-,ran,-⟩ := findOne_spec 4 le_rfl 0 (m.node scan).bmuBitmap (exists_bit zero)
    rw [if_pos one,show findOne 6 (blistBmapRadix / 2) 0 (m.node scan).bmuBitmap (BitVec.allOnes 32 >>> (blistBmapRadix / 2)) = .ok (0 + q) from ran,
      ok_bind]
    exact taken _ _
  rw [if_neg one]
  split_ifs with le
  · rw [if_neg (by unfold blistBmapRadix; omega)]
    cases findRun (m.node scan).bmuBitmap (blistBmapRadix - count + 1) 0 (BitVec.allOnes 32 >>> (blistBmapRadix - count)) with
    | some place => exact taken _ _
    | none => exact failed _ fewer
  · exact failed _ fewer

theorem allocRound_stays {alloc : Mem → Nat → Nat → Except Halt (Nat × Mem)} (count : Nat) (spec : AllocStays blocks level alloc) (inside : j < 16)
    (s : Mem × Nat × Nat) (reaching : Reaching m blocks level scan blk j s.1) :
    Stays (Leaves (fun j s => Reaching m blocks level scan blk j s.1) (fun s => Inside m blocks (level + 1) scan blk s.1) j)
      (allocRound alloc scan count (radixAt level) (1 + j * (skipAt level + 1)) s) := by
  obtain ⟨u,b,r⟩ := s
  unfold allocRound
  dsimp only
  rw [reaching.read inside]
  simp only [ok_bind]
  by_cases ends : (u.node (childAt level scan j)).bmBighint = blistNone
  · rw [if_pos ends]
    exact reaching.held
  have real := reaching.real inside ends
  have child := reaching.held.shape.child inside real
  rw [if_neg ends]
  by_cases fits : count ≤ (u.node (childAt level scan j)).bmBighint
  · rw [if_pos fits]
    refine (spec u (childAt level scan j) _ b child reaching.held.typed).bind fun a own => ?_
    split_ifs
    · exact reaching.held.child inside real own
    · exact reaching.next inside real own
  split_ifs
  · trivial
  · exact reaching.next inside real (Inside.refl child reaching.held.typed)

theorem open_stays (held : Inside m blocks (level + 1) scan blk t) (small : radixAt level < blistNone) (whole : Prop) [Decidable whole] :
    Stays (Inside m blocks (level + 1) scan blk)
      (if whole then allFree t scan (radixAt (level + 1) / blistMetaRadix) (skipAt (level + 1)) (skipAt level + 1) else .ok t) := by
  split_ifs
  · rw [radixAt_div]
    exact initSublevel_stays held (by decide) small
  · exact held

theorem alloc_stays (blocks : Nat) (some : 0 < count) (small : count < blistNone) (level depth : Nat) (deep : level ≤ depth) (high : radixAt level < blistNone) :
    AllocStays blocks level fun m scan base => if skipAt level + 1 = 1 then blstLeafAlloc m scan base count
      else blstMetaAlloc depth m scan base count (radixAt level) (skipAt level + 1 - 1) := by
  induction level generalizing depth with
  | zero => exact leafAlloc_stays some small
  | succ level ih =>
    obtain ⟨depth,rfl⟩ : ∃ d, depth = d + 1 := ⟨depth - 1,by omega⟩
    have lower : radixAt level < blistNone := lt_of_le_of_lt (radixAt_mono (le_succ level)) high
    have spec := ih depth (by omega) lower
    intro m scan blk base shape typed
    have held := Inside.refl shape typed
    dsimp only
    rw [if_neg (by simp [skipAt]),Nat.add_sub_cancel,blstMetaAlloc,skipAt_div]
    rw [fetch_leaf shape,ok_bind]
    split
    · exact (stays_store held small).bind fun _ after => after
    refine (open_stays held lower ((m.node scan).u = radixAt (level + 1))).bind fun u opened => ?_
    rw [radixAt_div]
    have loop := children_stays level _ _ _ (fun j s inside reaching => allocRound_stays count spec inside s reaching) 0 (by omega)
      (s := (u,base,blistNone)) (Reaching.start opened)
    rw [zero_mul] at loop
    refine loop.bind fun a ends => ?_
    obtain ⟨i,t,b,r⟩ := a
    have after : Inside m blocks (level + 1) scan blk t := ends.elim (fun reaching => reaching.held) id
    dsimp only
    rw [fetch_leaf after.shape,ok_bind]
    have hint := after.hint
    split
    · refine (stays_store after ?_).bind fun _ last => last
      dsimp only
      split_ifs
      · omega
      · exact hint
    refine (stays_store after ?_).bind fun _ last => last
    dsimp only
    split_ifs
    · rw [less_of_le some (by unfold blistNone at small; omega)]
      omega
    · exact hint

theorem pieces_stays {visit : Nat → Nat → Nat → Nat → α → Except Halt α} (inv : α → Prop) {a : α} (some : 0 < count) (low : blk ≤ first)
    (top : first + count ≤ blk + radixAt (level + 1)) (high : blk + radixAt (level + 1) < blistNone)
    (visits : ∀ j a, j < 16 → Touches level blk first count j → inv a →
      Stays inv (visit (1 + j * (skipAt level + 1)) (pieceFirst level blk first j) (pieceCount level blk first count j) (childBlk level blk j) a))
    (start : inv a) :
    Stays inv (pieces visit (radixAt level) (skipAt (level + 1)) (skipAt level + 1) (less first blk / radixAt level * (skipAt level + 1) + 1) first count
      (word (blk + less first blk / radixAt level * radixAt level)) a) := by
  have inside := firstChild_lt (show first < blk + radixAt (level + 1) by omega) low
  rw [pieces_begin visit a low (by unfold blistNone at high; omega)]
  refine (children_stays level (PieceState (fun _ => inv) level blk first count) (fun s => inv s.1) _ (fun j s lt held => ?_)
    (firstChild level blk first) inside.le (pieces_start low start)).bind fun r ends => ends.elim And.left id
  by_cases more : childBlk level blk j < first + count
  · obtain ⟨touches,rest,carries,round⟩ := piecesRound_visits some top high lt held more
    rw [round]
    exact (visits j s.1 lt touches held.1).bind fun a carried => carries a carried
  rw [piecesRound_stops top high held (Nat.le_of_not_lt more)]
  exact held.1

def RangeStays (blocks level : Nat) (mem : α → Mem) (op : Mem → Nat → Nat → Nat → Nat → Except Halt α) : Prop :=
  ∀ m scan first count blk, Shape m blocks level scan blk → Typed m → blk % 32 = 0 → 0 < count → blk ≤ first → first + count ≤ blk + radixAt level →
    blk + radixAt level < blistNone → first + count ≤ blocks → Stays (fun a => Inside m blocks level scan blk (mem a)) (op m scan first count blk)

theorem RangeStays.piece {mem : α → Mem} {op : Mem → Nat → Nat → Nat → Nat → Except Halt α} (spec : RangeStays blocks level mem op) (aligned : blk % 32 = 0)
    (some : 0 < count) (high : blk + radixAt (level + 1) < blistNone) (within : first + count ≤ blocks) (lt : j < 16)
    (touches : Touches level blk first count j) (held : Inside m blocks (level + 1) scan blk u) :
    Stays (fun a => Inside m blocks (level + 1) scan blk (mem a)) (op u (scan + (1 + j * (skipAt level + 1))) (pieceFirst level blk first j)
      (pieceCount level blk first count j) (childBlk level blk j)) := by
  have real : childBlk level blk j < blocks := lt_of_lt_of_le touches.1 within
  have last := childBlk_end level blk lt
  exact (spec u (childAt level scan j) _ _ _ (held.shape.child lt real) held.typed (childBlk_aligned aligned level j) (piece_pos touches some)
    (le_max_right _ _) (piece_top touches) (by omega) ((piece_last touches).trans within)).mono fun a own => held.child lt real own

theorem leafFree_stays : RangeStays blocks 0 id fun m scan first count _ => blstLeafFree m scan first count := by
  intro m scan first count blk shape typed aligned some low top high within
  obtain ⟨mask,ran,-⟩ := leafMask_range aligned some low top
  dsimp only
  rw [blstLeafFree,ran,ok_bind,fetch_leaf shape,ok_bind]
  split_ifs
  · trivial
  · exact stays_store (Inside.refl shape typed) (show blistBmapRadix < blistNone by decide)

theorem freePiece_stays {op : Mem → Nat → Nat → Nat → Nat → Except Halt Mem} (spec : RangeStays blocks level id op) (aligned : blk % 32 = 0) (some : 0 < count)
    (high : blk + radixAt (level + 1) < blistNone) (within : first + count ≤ blocks) (lt : j < 16) (touches : Touches level blk first count j)
    (held : Inside m blocks (level + 1) scan blk u) :
    Stays (Inside m blocks (level + 1) scan blk) (freePiece op scan (1 + j * (skipAt level + 1)) (pieceFirst level blk first j)
      (pieceCount level blk first count j) (childBlk level blk j) u) := by
  have real : childBlk level blk j < blocks := lt_of_lt_of_le touches.1 within
  unfold freePiece
  rw [fetch_leaf held.shape,ok_bind,if_neg held.shape.root.2]
  refine (spec.piece aligned some high within lt touches held).bind fun t after => ?_
  have child := after.shape.child lt real
  have below : fetch t (scan + (1 + j * (skipAt level + 1))) = .ok (t.node (childAt level scan j)) := fetch_ok child.root.1
  dsimp only [id] at after
  rw [fetch_leaf after.shape,ok_bind,below,ok_bind]
  split_ifs
  · exact stays_store after (Inside.refl child after.typed).hint
  · exact after

theorem free_stays (blocks level depth : Nat) (deep : level ≤ depth) : RangeStays blocks level id fun m scan first count blk =>
    if skipAt level + 1 = 1 then blstLeafFree m scan first count
    else blstMetaFree depth m scan first count (radixAt level) (skipAt level + 1 - 1) blk := by
  induction level generalizing depth with
  | zero => exact leafFree_stays
  | succ level ih =>
    obtain ⟨depth,rfl⟩ : ∃ d, depth = d + 1 := ⟨depth - 1,by omega⟩
    have spec := ih depth (by omega)
    intro m scan first count blk shape typed aligned some low top high within
    have held := Inside.refl shape typed
    have small : count < blistNone := by omega
    dsimp only
    rw [if_neg (by simp [skipAt]),Nat.add_sub_cancel,blstMetaFree,skipAt_div]
    rw [fetch_leaf shape,ok_bind]
    -- The node is marked first, and its children are initialised if it was all allocated.
    refine @Stays.bind _ _ (Inside m blocks (level + 1) scan blk) _ _ _ ?_ fun u after => ?_
    · split
      · refine (stays_store held small).bind fun u after => ?_
        split_ifs
        · exact initSublevel_stays after (by decide) (by decide)
        · exact after
      · exact stays_store held held.hint
    rw [fetch_leaf after.shape,ok_bind,radixAt_div]
    split
    · exact after
    split
    · trivial
    · exact pieces_stays _ some low top high (fun j t lt touches held => freePiece_stays spec aligned some high within lt touches held) after

theorem leafFill_stays : RangeStays blocks 0 Prod.snd fun m scan first count _ => blstLeafFill m scan first count := by
  intro m scan first count blk shape typed aligned some low top high within
  have held := Inside.refl shape typed
  obtain ⟨mask,ran,-⟩ := leafMask_range aligned some low top
  have few : (setBits ((m.node scan).bmuBitmap &&& mask)).card < blistBmapRadix + 1 := by
    have := Finset.card_filter_le (Finset.range 32) fun b => ((m.node scan).bmuBitmap &&& mask).getLsbD b = true
    exact lt_succ_of_le this
  dsimp only
  rw [blstLeafFill,ran,ok_bind,fetch_leaf shape,ok_bind,countBits_spec _ _ _ few,ok_bind]
  exact (stays_store held (show ((m.node scan).withBitmap _).bmBighint < blistNone from held.hint)).bind fun _ after => after

theorem fill_stays (blocks level depth : Nat) (deep : level ≤ depth) : RangeStays blocks level Prod.snd fun m scan first count blk =>
    if skipAt level + 1 = 1 then blstLeafFill m scan first count
    else blstMetaFill depth m scan first count (radixAt level) (skipAt level + 1 - 1) blk := by
  induction level generalizing depth with
  | zero => exact leafFill_stays
  | succ level ih =>
    obtain ⟨depth,rfl⟩ : ∃ d, depth = d + 1 := ⟨depth - 1,by omega⟩
    have spec := ih depth (by omega)
    intro m scan first count blk shape typed aligned some low top high within
    have held := Inside.refl shape typed
    have small : count < blistNone := by omega
    have lower : radixAt level < blistNone := by
      have : radixAt level ≤ radixAt (level + 1) := radixAt_mono (le_succ level)
      omega
    dsimp only
    rw [if_neg (by simp [skipAt]),Nat.add_sub_cancel,blstMetaFill,skipAt_div]
    dsimp only
    rw [fetch_leaf shape,ok_bind]
    split
    · exact (stays_store held small).bind fun _ after => after
    split
    · trivial
    refine (open_stays held lower ((m.node scan).u = radixAt (level + 1))).bind fun u opened => ?_
    rw [radixAt_div]
    refine (pieces_stays (fun s : Nat × Mem => Inside m blocks (level + 1) scan blk s.2) some low top high (fun j s lt touches held => ?_)
      opened).bind fun s after => ?_
    · unfold fillPiece
      dsimp only at held ⊢
      rw [fetch_leaf held.shape,ok_bind,if_neg held.shape.root.2]
      exact (spec.piece aligned some high within lt touches held).bind fun r after => after
    rw [fetch_leaf after.shape,ok_bind]
    refine (stays_store after ?_).bind fun _ last => last
    exact after.hint

theorem storeAt_typed (scan : Option Nat) (typed : Typed m) (word : node.bmBighint < 2 ^ 32) (ran : storeAt m scan node = .ok t) : Typed t := by
  cases scan with
  | none =>
    cases ran
    exact typed
  | some scan =>
    unfold storeAt store at ran
    dsimp only at ran
    split_ifs at ran
    cases ran
    exact typed.set word

theorem radixInit_typed (depth : Nat) : ∀ (m t : Mem) (scan : Option Nat) (radix skip count used : Nat), Typed m →
    blstRadixInit depth m scan radix skip count = .ok (used,t) → Typed t := by
  induction depth with
  | zero => exact fun _ _ _ _ _ _ _ _ ran => by cases ran
  | succ depth ih =>
    intro m t scan radix skip count used typed ran
    obtain ⟨u,stored,ran⟩ := bind_ok ran
    have typed := storeAt_typed _ typed (show (0 : Nat) < 2 ^ 32 by decide) stored
    split_ifs at ran
    · cases ran
      exact typed
    obtain ⟨⟨i,v,memindex,rest⟩,loop,ran⟩ := bind_ok ran
    cases ran
    refine forLoop_keeps (p := fun s : Mem × Nat × Nat => Typed s.1) (fun i s r held round => ?_) _ _ _ _ _ typed loop
    unfold initRound at round
    dsimp only at round held
    split_ifs at round
    · obtain ⟨⟨used,w⟩,child,round⟩ := bind_ok round
      cases round
      exact ih _ _ _ _ _ _ _ held child
    · obtain ⟨⟨used,w⟩,child,round⟩ := bind_ok round
      cases round
      exact ih _ _ _ _ _ _ _ held child
    cases scan with
    | none =>
      cases round
      exact held
    | some scan =>
      obtain ⟨node,-,round⟩ := bind_ok round
      obtain ⟨w,stored,round⟩ := bind_ok round
      cases round
      exact storeAt_typed (some (scan + i)) held (show blistNone < 2 ^ 32 by decide) stored

-- A call about blocks of the list; it need not be one that the list allows.
def Request (blocks : Nat) : Op → Prop
  | .alloc count => 0 < count ∧ count ≤ blocks
  | .free blkno count => 0 < count ∧ blkno + count ≤ blocks
  | .fill blkno count => 0 < count ∧ blkno + count ≤ blocks

-- A list after any such calls; malloc leaves words in the array.
inductive Used (blocks : Nat) : Blist → Prop where
  | created {raw : Nat → BlMeta} : (∀ i, (raw i).bmBighint < 2 ^ 32) → blistCreate raw blocks = .ok bl → Used blocks bl
  | step : Used blocks bl → Request blocks op → step bl op = .ok (reply,next) → Used blocks next

variable {raw : Nat → BlMeta} {m : Mem} {blocks size level top count blkno reply : Nat} {bl dest next : Blist} {op : Op}

structure Bounded (blocks level : Nat) (bl : Blist) : Prop where
  deep : level ≤ 6
  radix : bl.blRadix = radixAt level
  skip : bl.blSkip = skipAt level
  covers : blocks ≤ radixAt level
  shape : Shape bl.blRoot blocks level 0 0
  typed : Typed bl.blRoot

section
variable (bounded : Bounded blocks level bl)
include bounded

theorem Bounded.high : radixAt level ≤ 2 ^ 29 := radixAt_mono bounded.deep

theorem Bounded.low : 0 + radixAt level < blistNone := by
  have := bounded.high
  unfold blistNone
  omega

theorem Bounded.depth : level ≤ maxDepth := le_trans bounded.deep (by decide)

theorem Bounded.after (free : Nat) (held : Inside bl.blRoot blocks level 0 0 m) :
    Bounded blocks level {bl with blRoot := m,blFree := free} :=
  ⟨bounded.deep,bounded.radix,bounded.skip,bounded.covers,held.shape,held.typed⟩

theorem blistAlloc_stays (some : 0 < count) (le : count ≤ blocks) :
    Stays (fun r => Bounded blocks level r.2) (blistAlloc bl count) := by
  have high := bounded.high
  have covers := bounded.covers
  have call := alloc_stays blocks some (show count < blistNone by unfold blistNone; omega) level maxDepth bounded.depth
    (by have := bounded.low; omega) bl.blRoot 0 0 0 bounded.shape bounded.typed
  dsimp only at call
  rw [Nat.add_sub_cancel,← at_root,← bounded.radix,← bounded.skip] at call
  refine call.bind fun r held => ?_
  dsimp only
  split_ifs
  · exact bounded.after _ held
  · exact bounded.after _ held

theorem blistFree_stays (some : 0 < count) (within : blkno + count ≤ blocks) :
    Stays (Bounded blocks level) (blistFree bl blkno count) := by
  have covers := bounded.covers
  have call := free_stays blocks level maxDepth bounded.depth bl.blRoot 0 blkno count 0 bounded.shape bounded.typed rfl some (zero_le _)
    (by omega) bounded.low within
  dsimp only at call
  rw [Nat.add_sub_cancel,← at_root,← bounded.radix,← bounded.skip] at call
  exact call.bind fun r held => bounded.after _ held

theorem blistFill_stays (some : 0 < count) (within : blkno + count ≤ blocks) :
    Stays (fun r => Bounded blocks level r.2) (blistFill bl blkno count) := by
  have covers := bounded.covers
  have call := fill_stays blocks level maxDepth bounded.depth bl.blRoot 0 blkno count 0 bounded.shape bounded.typed rfl some (zero_le _)
    (by omega) bounded.low within
  dsimp only at call
  rw [Nat.add_sub_cancel,← at_root,← bounded.radix,← bounded.skip] at call
  exact call.bind fun r held => bounded.after _ held

theorem step_stays (request : Request blocks op) : Stays (fun r => Bounded blocks level r.2) (step bl op) := by
  cases op with
  | alloc count => exact blistAlloc_stays bounded request.1 request.2
  | free blkno count => exact (blistFree_stays bounded request.1 request.2).bind fun _ after => after
  | fill blkno count => exact blistFill_stays bounded request.1 request.2
end

theorem created_bounded (typed : ∀ i, (raw i).bmBighint < 2 ^ 32) (positive : 0 < blocks) (small : blocks ≤ 2 ^ 29) :
    ∃ level bl, blistCreate raw blocks = .ok bl ∧ Bounded blocks level bl := by
  obtain ⟨level,le,m,ran,covers,shape,-⟩ := create_spec raw positive small
  refine ⟨level,_,ran,le,rfl,rfl,covers,shape,?_⟩
  obtain ⟨⟨radix,skip⟩,-,ran⟩ := bind_ok ran
  obtain ⟨⟨used,_⟩,-,ran⟩ := bind_ok ran
  obtain ⟨⟨_,t⟩,init,ran⟩ := bind_ok ran
  cases ran
  exact radixInit_typed _ _ _ _ _ _ _ _ (show Typed ⟨1 + used,raw⟩ from typed) init

theorem Used.small (used : Used blocks bl) : blocks ≤ 2 ^ 29 := by
  induction used with
  | created typed ran => exact created_small ran
  | step prior request ran ih => exact ih

theorem Used.bounded (used : Used blocks bl) (positive : 0 < blocks) : ∃ level, Bounded blocks level bl := by
  have small := used.small
  induction used with
  | created typed ran =>
    obtain ⟨level,bl,created,bounded⟩ := created_bounded typed positive small
    cases ran.symm.trans created
    exact ⟨level,bounded⟩
  | step prior request ran ih =>
    obtain ⟨level,bounded⟩ := ih
    have stays := step_stays bounded request
    rw [ran] at stays
    exact ⟨level,stays⟩

section copy
variable {scan blk left : Nat}

theorem copyBits_stays (v : BitVec 32) (within : blk + count ≤ size) (small : size < 2 ^ 32) (rounds : Nat) : ∀ j dest, Bounded size top dest →
    Stays (Bounded size top) (copyBits v blk count rounds j dest) := by
  induction rounds with
  | zero => exact fun _ _ bounded => bounded
  | succ rounds ih =>
    intro j dest bounded
    unfold copyBits
    split
    · rw [word_of_lt (by omega)]
      refine @Stays.bind _ _ (Bounded size top) _ _ _ ?_ fun after bounded => ih (j + 1) after bounded
      split_ifs
      · exact blistFree_stays bounded (by decide) (by omega)
      · exact bounded
    · exact bounded

def CopyStays (m : Mem) (blocks size top level : Nat) (copy : Nat → Nat → Nat → Blist → Except Halt Blist) : Prop :=
  ∀ scan blk count dest, Shape m blocks level scan blk → 0 < count → count ≤ radixAt level → blk + count ≤ blocks → blk + count ≤ size →
    Bounded size top dest → Stays (Bounded size top) (copy scan blk count dest)

theorem copyRound_stays {copy : Nat → Nat → Nat → Blist → Except Halt Blist} {j : Nat} (spec : CopyStays m blocks size top level copy)
    (shape : Shape m blocks (level + 1) scan blk) (within : blk + count ≤ blocks) (inside : blk + count ≤ size) (small : size < 2 ^ 32)
    (high : blk + radixAt (level + 1) < blistNone) (lt : j < 16) (s : Blist × Nat × Nat)
    (held : Bounded size top s.1 ∧ s.2.1 = count - j * radixAt level ∧ s.2.2 = childBlk level blk j) :
    Stays (Leaves (fun j s => Bounded size top s.1 ∧ s.2.1 = count - j * radixAt level ∧ s.2.2 = childBlk level blk j) (fun s => Bounded size top s.1) j)
      (copyRound copy m scan (radixAt level) (1 + j * (skipAt level + 1)) s) := by
  obtain ⟨dest,left,b⟩ := s
  obtain ⟨bounded,rest,rfl⟩ := held
  dsimp only at bounded rest
  have last := childBlk_end level blk lt
  have next : (j + 1) * radixAt level = j * radixAt level + radixAt level := succ_mul _ _
  have place : childBlk level blk j = blk + j * radixAt level := rfl
  unfold copyRound
  dsimp only
  by_cases done : left = 0
  · rw [if_pos done]
    exact bounded
  have real : childBlk level blk j < blocks := by omega
  have child := shape.child lt real
  have read : fetch m (scan + (1 + j * (skipAt level + 1))) = .ok (m.node (childAt level scan j)) := fetch_ok child.root.1
  have advance : word (childBlk level blk j + radixAt level) = childBlk level blk (j + 1) := by
    rw [childBlk_succ]
    exact word_of_lt (by unfold blistNone at high; omega)
  rw [if_neg done,read,ok_bind,if_neg child.root.2,advance]
  split_ifs with whole
  · refine (spec _ _ (radixAt level) dest child (radixAt_pos level) le_rfl (by omega) (by omega) bounded).bind fun after bounded => ⟨bounded,?_,rfl⟩
    dsimp only
    rw [less_of_le whole (by omega)]
    omega
  refine (spec _ _ left dest child (by omega) (by omega) (by omega) (by omega) bounded).bind fun after bounded => ⟨bounded,?_,rfl⟩
  dsimp only
  omega

theorem copy_stays (m : Mem) (blocks : Nat) {size : Nat} (top : Nat) (small : size < 2 ^ 32) (level depth : Nat) (deep : level < depth) (high : blocks + radixAt level < blistNone) :
    CopyStays m blocks size top level fun scan blk count dest => blstCopy depth m scan blk (radixAt level) (skipAt level) count dest := by
  induction level generalizing depth with
  | zero =>
    obtain ⟨depth,rfl⟩ : ∃ d, depth = d + 1 := ⟨depth - 1,by omega⟩
    intro scan blk count dest shape some le within inside bounded
    dsimp only
    rw [blstCopy,fetch_leaf shape,ok_bind,if_pos (show radixAt 0 = blistBmapRadix from rfl)]
    dsimp only
    split_ifs
    · exact blistFree_stays bounded some inside
    · exact copyBits_stays _ inside small 32 0 dest bounded
    · exact bounded
  | succ level ih =>
    obtain ⟨depth,rfl⟩ : ∃ d, depth = d + 1 := ⟨depth - 1,by omega⟩
    have lower : radixAt level ≤ radixAt (level + 1) := radixAt_mono (le_succ level)
    have spec := ih depth (by omega) (by omega)
    have inner : radixAt (level + 1) ≠ blistBmapRadix := fun same => absurd ((radixAt_leaf _).mp same) (succ_ne_zero level)
    intro scan blk count dest shape some le within inside bounded
    dsimp only
    rw [blstCopy,fetch_leaf shape,ok_bind,if_neg inner]
    split
    · exact bounded
    by_cases full : (m.node scan).u = radixAt (level + 1)
    · split_ifs with less
      · exact blistFree_stays bounded some inside
      · exact blistFree_stays bounded (radixAt_pos _) (by omega)
    rw [if_neg full,radixAt_div,skipAt_div]
    dsimp only
    have loop := children_stays level _ _ _ (fun j s lt held => copyRound_stays spec shape within inside small (by omega) lt s held) 0 (by omega)
      (s := (dest,count,blk)) ⟨bounded,by simp,by simp [childBlk]⟩
    rw [zero_mul] at loop
    exact loop.bind fun r ends => ends.elim And.left id
end copy

-- The radix loop ends with a radix that covers the blocks, and no access is past
-- bl_rootblks; a call that does not return panics.
structure Sized (blocks : Nat) : Prop where
  ends : ∃ rounds radix skip, coverRadix blocks rounds blistBmapRadix 0 = .ok (radix,skip) ∧ blocks ≤ radix
  init : ∀ raw, (∀ i, (raw i).bmBighint < 2 ^ 32) → ∃ bl, blistCreate raw blocks = .ok bl
  calls : ∀ bl, Used blocks bl → ∀ op, Request blocks op → Stays (fun _ => True) (step bl op)
  copies : ∀ bl, Used blocks bl → ∀ size dest count, Used size dest → 0 < size → 0 < count → count ≤ blocks → count ≤ size →
    Stays (fun _ => True) (blstCopy maxDepth bl.blRoot 0 0 bl.blRadix bl.blSkip count dest)

theorem rootblks_exact (positive : 0 < blocks) : Sized blocks ↔ blocks ≤ 2 ^ 29 := by
  constructor
  · rintro ⟨⟨rounds,radix,skip,ran,_⟩,-,-,-⟩
    by_contra large
    rw [coverRadix_fuel (Nat.lt_of_not_le large) rounds blistBmapRadix 0 (.inr ⟨0,Nat.zero_le _,rfl⟩)] at ran
    cases ran
  intro small
  refine ⟨?_,fun raw typed => ?_,fun bl used op request => ?_,fun bl used size dest count used' some' some le within => ?_⟩
  · obtain ⟨level,_,found,covers⟩ := coverRadix_spec blocks positive small maxDepth 0 rfl (by omega) fun l lt => by omega
    exact ⟨maxDepth,_,_,found,covers⟩
  · obtain ⟨_,bl,created,_⟩ := created_bounded typed positive small
    exact ⟨bl,created⟩
  · obtain ⟨level,bounded⟩ := used.bounded positive
    exact (step_stays bounded request).mono fun _ _ => trivial
  obtain ⟨level,bounded⟩ := used.bounded positive
  obtain ⟨top,into⟩ := used'.bounded some'
  have high := bounded.high
  have covers := bounded.covers
  have small' := used'.small
  have spec := copy_stays bl.blRoot blocks top (show size < 2 ^ 32 by omega) level maxDepth
    (lt_of_le_of_lt bounded.deep (by decide)) (by unfold blistNone; omega)
  rw [bounded.radix,bounded.skip]
  exact (spec 0 0 count dest bounded.shape some (by omega) (by omega) (by omega) into).mono fun _ _ => trivial

theorem rootblks_exact_forty : Sized 40 ↔ 40 ≤ 2 ^ 29 := rootblks_exact (by decide)

theorem rootblks_large : ¬Sized (2 ^ 31) := by
  rintro ⟨⟨rounds,radix,skip,ran,_⟩,-,-,-⟩
  rw [coverRadix_fuel (by decide) rounds blistBmapRadix 0 (.inr ⟨0,zero_le _,rfl⟩)] at ran
  cases ran
end NetbsdAvr32.Blist
