import NetbsdAvr32.BlistFree

-- blst_radix_init and blist_create.
namespace NetbsdAvr32.Blist
open Sweep Finset Nat Outcome
variable {count : Nat}

def covered (blocks level blk : Nat) : Nat := min (radixAt level) (blocks - blk)
def present (count level : Nat) : Nat := (count + radixAt level - 1) / radixAt level

def used (count : Nat) : Nat → Nat
  | 0 => 0
  | level + 1 => 1 + present count level * (skipAt level + 1)

theorem present_spec (count level : Nat) : count ≤ present count level * radixAt level ∧
    ∀ j, j * radixAt level < count ↔ j < present count level := by
  have positive := radixAt_pos level
  have above := lt_div_mul_add positive (a := count + radixAt level - 1)
  unfold present
  refine ⟨by omega,fun j => ?_⟩
  rw [lt_div_iff_mul_lt positive]
  omega

theorem present_le (le : count ≤ radixAt (level + 1)) : present count level ≤ 16 := by
  rw [radixAt_succ] at le
  by_contra more
  have := ((present_spec count level).2 16).mpr (by omega)
  omega

theorem used_le (le : count ≤ radixAt level) : used count level ≤ skipAt level + 1 := by
  cases level with
  | zero => exact zero_le _
  | succ level =>
    have := mul_le_mul_right (skipAt level + 1) (present_le le)
    rw [used,skipAt]
    omega

-- What blst_radix_init does on a node: it returns the same with and without an
-- array, and an array with room for it gets the shape of the tree.
def InitSpec (blocks level : Nat) (init : Mem → Option Nat → Nat → Except Halt (Nat × Mem)) : Prop :=
  ∀ m blk, blk < blocks → blk + radixAt level < blistNone →
    init m none (covered blocks level blk) = .ok (used (covered blocks level blk) level,m) ∧
    ∀ scan, scan + used (covered blocks level blk) level < m.size →
      ∃ t, init m (some scan) (covered blocks level blk) = .ok (used (covered blocks level blk) level,t) ∧
        Kept m t scan (skipAt level) ∧ Shape t blocks level scan blk ∧ (t.node scan).u = 0

theorem covered_le (blocks level blk : Nat) : covered blocks level blk ≤ radixAt level := min_le_left _ _

theorem child_real (blocks level blk : Nat) (inside : j < 16) : childBlk level blk j < blocks ↔ j < present (covered blocks (level + 1) blk) level := by
  have whole := mul_lt_mul_of_pos_right inside (radixAt_pos level)
  rw [← (present_spec _ _).2,covered,radixAt_succ]
  unfold childBlk
  omega

theorem covered_child (blocks level blk : Nat) (inside : j < 16) : covered blocks level (childBlk level blk j) =
    min (radixAt level) (covered blocks (level + 1) blk - j * radixAt level) := by
  have whole := mul_le_mul_right (radixAt level) (succ_le_of_lt inside)
  rw [succ_mul] at whole
  unfold covered childBlk
  rw [radixAt_succ]
  omega

structure Initing (scan : Option Nat) (m : Mem) (blocks level blk j : Nat) (s : Mem × Nat × Nat) : Prop where
  rest : s.2.2 = covered blocks (level + 1) blk - j * radixAt level
  memindex : s.2.1 ≤ 1 + j * (skipAt level + 1)
  before : j ≤ present (covered blocks (level + 1) blk) level
  dry : scan = none → s.1 = m
  kept : ∀ base, scan = some base → Kept m s.1 base (skipAt (level + 1)) ∧ s.1.node base = m.node base
  done : ∀ base, scan = some base → ∀ k < j, Shape s.1 blocks level (childAt level base k) (childBlk level blk k)

def Inited (scan : Option Nat) (m : Mem) (blocks level blk j : Nat) (s : Mem × Nat × Nat) : Prop :=
  Initing scan m blocks level blk j s ∧ present (covered blocks (level + 1) blk) level ≤ j ∧
    ∀ base, scan = some base → childAt level base j < m.size ∧ (s.1.node (childAt level base j)).bmBighint = blistNone

theorem init_child (left : Nat) (spec : InitSpec blocks level init) (high : blk + radixAt (level + 1) < blistNone)
    (room : ∀ base, scan = some base → base + used (covered blocks (level + 1) blk) (level + 1) < m.size)
    (inside : j < 16) (real : childBlk level blk j < blocks) (held : Initing scan m blocks level blk j s)
    (rest : left = covered blocks (level + 1) blk - (j + 1) * radixAt level) :
    ∃ t, init s.1 (scan.map (· + (1 + j * (skipAt level + 1)))) (covered blocks level (childBlk level blk j)) =
        .ok (used (covered blocks level (childBlk level blk j)) level,t) ∧
      Initing scan m blocks level blk (j + 1)
        (t,1 + j * (skipAt level + 1) + used (covered blocks level (childBlk level blk j)) level,left) := by
  obtain ⟨u,memindex,count⟩ := s
  have last := childBlk_end level blk inside
  have within := (child_real blocks level blk inside).mp real
  have small := used_le (covered_le blocks level (childBlk level blk j))
  have next : 1 + j * (skipAt level + 1) + (skipAt level + 1) = 1 + (j + 1) * (skipAt level + 1) := by
    rw [succ_mul]
    omega
  obtain ⟨plain,array⟩ := spec u (childBlk level blk j) real (by omega)
  cases scan with
  | none =>
    refine ⟨u,plain,rest,by dsimp only; omega,within,fun _ => held.dry rfl,fun base same => ?_,fun base same => ?_⟩
    · cases same
    · cases same
  | some base =>
    obtain ⟨kept,root⟩ := held.kept base rfl
    have fits := mul_le_mul_right (skipAt level + 1)
      (show j + 1 ≤ present (covered blocks (level + 1) blk) level from within)
    have enough := room base rfl
    rw [used] at enough
    have space : childAt level base j + used (covered blocks level (childBlk level blk j)) level < u.size := by
      rw [kept.size]
      unfold childAt
      omega
    obtain ⟨t,ran,changed,shape,_⟩ := array (childAt level base j) space
    have under := lt_childAt level base j
    refine ⟨t,ran,rest,by dsimp only; omega,within,fun same => (by cases same),fun b same => ?_,fun b same k lt => ?_⟩
    · cases same
      exact ⟨kept.trans (kept_child changed inside),(changed.outside base (.inl under)).trans root⟩
    cases same
    by_cases own : k = j
    · exact own ▸ shape
    exact (held.done base rfl k (by omega)).frame changed.size fun i low high =>
      changed.outside i (child_apart (by omega) low high)

theorem initRound_spec (spec : InitSpec blocks level init) (high : blk + radixAt (level + 1) < blistNone)
    (room : ∀ base, scan = some base → base + used (covered blocks (level + 1) blk) (level + 1) < m.size)
    (inside : j < 16) (held : Initing scan m blocks level blk j s) :
    Carries (initRound init scan (radixAt level)) (skipAt level + 1) (Initing scan m blocks level blk)
      (Inited scan m blocks level blk) j s := by
  obtain ⟨u,memindex,count⟩ := s
  have rest := held.rest
  dsimp only at rest
  have positive := radixAt_pos level
  have step : (j + 1) * radixAt level = j * radixAt level + radixAt level := succ_mul _ _
  have cover := covered_le blocks (level + 1) blk
  have part := covered_child blocks level blk inside
  unfold Carries initRound
  dsimp only
  by_cases whole : count ≥ radixAt level
  · have real : childBlk level blk j < blocks := (child_real blocks level blk inside).mpr (((present_spec _ _).2 j).mp (by omega))
    have same : covered blocks level (childBlk level blk j) = radixAt level := by omega
    obtain ⟨t,ran,carried⟩ := init_child (less count (radixAt level)) spec high room inside real held
      (by rw [less_of_le whole (by unfold blistNone at high; omega)]; omega)
    rw [same] at ran carried
    rw [if_pos whole,ran,ok_bind]
    exact .inl ⟨_,rfl,carried⟩
  rw [if_neg whole]
  by_cases more : count > 0
  · have real : childBlk level blk j < blocks := (child_real blocks level blk inside).mpr (((present_spec _ _).2 j).mp (by omega))
    have same : covered blocks level (childBlk level blk j) = count := by omega
    obtain ⟨t,ran,carried⟩ := init_child 0 spec high room inside real held (by omega)
    rw [same] at ran carried
    rw [if_pos more,ran,ok_bind]
    exact .inl ⟨_,rfl,carried⟩
  have past : present (covered blocks (level + 1) blk) level ≤ j := by
    by_contra lt
    have := ((present_spec (covered blocks (level + 1) blk) level).2 j).mpr (by omega)
    omega
  rw [if_neg more]
  cases scan with
  | none => exact .inr ⟨_,rfl,held,past,fun base same => (by cases same)⟩
  | some base =>
    obtain ⟨kept,root⟩ := held.kept base rfl
    have enough := room base rfl
    have before := held.before
    have last : j = present (covered blocks (level + 1) blk) level := by omega
    have space : childAt level base j < u.size := by
      rw [kept.size,last]
      exact enough
    have under := lt_childAt level base j
    have read : fetch u (base + (1 + j * (skipAt level + 1))) = .ok (u.node (childAt level base j)) := fetch_ok space
    have written : store u (base + (1 + j * (skipAt level + 1))) {u.node (childAt level base j) with bmBighint := blistNone} =
        .ok (u.set (childAt level base j) {u.node (childAt level base j) with bmBighint := blistNone}) := store_ok space
    dsimp only
    rw [read,ok_bind,written,ok_bind]
    refine .inr ⟨_,rfl,⟨rest,held.memindex,before,fun same => (by cases same),fun b same => ?_,fun b same k lt => ?_⟩,past,
      fun b same => ?_⟩
    · cases same
      refine ⟨kept.trans (kept_child (kept_set le_rfl (by omega)) inside),?_⟩
      rw [set_other (by omega)]
      exact root
    · cases same
      refine (held.done base rfl k lt).frame rfl fun i low high => ?_
      have := childAt_before level base lt
      exact set_other (by omega)
    cases same
    refine ⟨kept.size ▸ space,?_⟩
    rw [set_same]

theorem initLoop_spec (m : Mem) (scan : Option Nat) (spec : InitSpec blocks level init) (high : blk + radixAt (level + 1) < blistNone)
    (room : ∀ base, scan = some base → base + used (covered blocks (level + 1) blk) (level + 1) < m.size) :
    ∃ memindex count t, forLoop (skipAt (level + 1)) (skipAt level + 1) (initRound init scan (radixAt level)) (blistMetaRadix + 1) 1
        (m,0,covered blocks (level + 1) blk) = .ok (used (covered blocks (level + 1) blk) (level + 1),t,memindex,count) ∧
      memindex ≤ used (covered blocks (level + 1) blk) (level + 1) ∧ (scan = none → t = m) ∧
      ∀ base, scan = some base → Kept m t base (skipAt (level + 1)) ∧ t.node base = m.node base ∧
        ((m.node base).bmBighint ≠ blistNone → Shape t blocks (level + 1) base blk) := by
  have start : Initing scan m blocks level blk 0 (m,0,covered blocks (level + 1) blk) :=
    ⟨by simp,zero_le _,zero_le _,fun _ => rfl,fun base _ => ⟨Kept.refl _ _ _,rfl⟩,fun _ _ k lt => by omega⟩
  obtain ⟨j,⟨t,memindex,count⟩,ran,le,ends⟩ := children_loop _ _
    (fun j s inside held => initRound_spec spec high room inside held) 0 (by omega) start
  rw [zero_mul] at ran
  have few := present_le (covered_le blocks (level + 1) blk)
  obtain ⟨held,last,mark⟩ : Initing scan m blocks level blk j (t,memindex,count) ∧
      present (covered blocks (level + 1) blk) level ≤ j ∧ (j < 16 → ∀ base, scan = some base →
        childAt level base j < m.size ∧ (t.node (childAt level base j)).bmBighint = blistNone) := by
    rcases ends with ⟨rfl,held⟩ | ⟨_,held,last,mark⟩
    · exact ⟨held,few,fun lt => by omega⟩
    · exact ⟨held,last,fun _ => mark⟩
  have before := held.before
  obtain rfl : j = present (covered blocks (level + 1) blk) level := by omega
  refine ⟨memindex,count,t,ran,held.memindex,held.dry,fun base same => ?_⟩
  obtain ⟨kept,root⟩ := held.kept base same
  refine ⟨kept,root,fun hint => ⟨?_,?_,fun k lt => ⟨fun real => ?_,fun past all => ?_⟩⟩⟩
  · have := room base same
    rw [kept.size]
    omega
  · rw [root]
    exact hint
  · exact held.done base same k ((child_real blocks level blk lt).mp real)
  have reached : ¬k < present (covered blocks (level + 1) blk) level := fun inside => by
    have := (child_real blocks level blk lt).mpr inside
    omega
  have first : ¬present (covered blocks (level + 1) blk) level < k := fun inside => by
    have := (child_real blocks level blk (by omega)).mp (all _ inside)
    omega
  obtain rfl : k = present (covered blocks (level + 1) blk) level := by omega
  have := mark lt base same
  rw [kept.size]
  exact this

theorem radixInit_spec (blocks level depth : Nat) (deep : level < depth) :
    InitSpec blocks level fun m scan count => blstRadixInit depth m scan (radixAt level) (skipAt level) count := by
  induction level generalizing depth with
  | zero =>
    obtain ⟨depth,rfl⟩ : ∃ d, depth = d + 1 := ⟨depth - 1,by omega⟩
    intro m blk inside high
    refine ⟨rfl,fun scan room => ?_⟩
    have space : scan < m.size := room
    refine ⟨m.set scan ⟨0,0⟩,?_,kept_set le_rfl (by omega),⟨space,?_⟩,?_⟩
    · change (store m scan ⟨0,0⟩ >>= _) = _
      rw [store_ok space]
      rfl
    · rw [set_same]
      decide
    · rw [set_same]
  | succ level ih =>
    obtain ⟨depth,rfl⟩ : ∃ d, depth = d + 1 := ⟨depth - 1,by omega⟩
    intro m blk inside high
    have spec := ih depth (by omega)
    have inner : radixAt (level + 1) ≠ blistBmapRadix := fun same => absurd ((radixAt_leaf _).mp same) (Nat.succ_ne_zero level)
    have whole (scan : Option Nat) (n t : Mem) (memindex count : Nat)
        (first : storeAt m scan ⟨0,0⟩ = .ok n)
        (ran : forLoop (skipAt (level + 1)) (skipAt level + 1) (initRound (fun m scan count =>
            blstRadixInit depth m scan (radixAt level) (skipAt level) count) scan (radixAt level)) (blistMetaRadix + 1) 1
          (n,0,covered blocks (level + 1) blk) = .ok (used (covered blocks (level + 1) blk) (level + 1),t,memindex,count))
        (le : memindex ≤ used (covered blocks (level + 1) blk) (level + 1)) :
        blstRadixInit (depth + 1) m scan (radixAt (level + 1)) (skipAt (level + 1)) (covered blocks (level + 1) blk) =
          .ok (used (covered blocks (level + 1) blk) (level + 1),t) := by
      rw [blstRadixInit,first,ok_bind,if_neg inner,radixAt_div,skipAt_div]
      simp only [Nat.add_sub_cancel]
      rw [ran,ok_bind]
      dsimp only
      split
      · rfl
      have : memindex = used (covered blocks (level + 1) blk) (level + 1) := by omega
      rw [this]
    constructor
    · obtain ⟨memindex,count,t,ran,le,dry,_⟩ := initLoop_spec m none spec high fun base same => (by cases same)
      obtain rfl := dry rfl
      exact whole none _ _ _ _ rfl ran le
    intro scan room
    have stored : storeAt m (some scan) ⟨0,0⟩ = .ok (m.set scan ⟨0,0⟩) := store_ok (by omega)
    obtain ⟨memindex,count,t,ran,le,_,array⟩ := initLoop_spec (m.set scan ⟨0,0⟩) (some scan) spec high
      fun base same => (by cases same; exact room)
    obtain ⟨kept,root,shape⟩ := array scan rfl
    rw [set_same] at root shape
    refine ⟨t,whole (some scan) _ _ _ _ stored ran le,(kept_set le_rfl (by omega)).trans kept,
      shape (show 0 ≠ blistNone by decide),?_⟩
    rw [root]

theorem coverRadix_spec (blocks : Nat) (positive : 0 < blocks) (small : blocks ≤ 2 ^ 29) (rounds level : Nat)
    (enough : level + rounds = 8) (before : level ≤ 6) (lower : ∀ l < level, radixAt l < blocks) :
    ∃ top ≤ 6, coverRadix blocks rounds (radixAt level) (skipAt level) = .ok (radixAt top,skipAt top) ∧ blocks ≤ radixAt top := by
  induction rounds generalizing level with
  | zero => omega
  | succ rounds ih =>
    rw [coverRadix]
    by_cases more : radixAt level < blocks
    · have below : level < 6 := by
        by_contra last
        obtain rfl : level = 6 := by omega
        have : radixAt 6 = 2 ^ 29 := by decide
        omega
      have bound := radixAt_mono (show level + 1 ≤ 6 from below)
      have skips : skipAt (level + 1) < 2 ^ 32 := by
        have : ∀ l ≤ 6, skipAt l < 2 ^ 32 := by decide
        exact this _ below
      have top : radixAt 6 = 2 ^ 29 := by decide
      have radix : word (radixAt level * blistMetaRadix) = radixAt (level + 1) := by
        rw [show radixAt level * blistMetaRadix = radixAt (level + 1) by rw [radixAt_succ,mul_comm]; rfl,word_of_lt (by omega)]
      have skip : word ((skipAt level + 1) * blistMetaRadix) = skipAt (level + 1) := by
        rw [show (skipAt level + 1) * blistMetaRadix = skipAt (level + 1) by rw [skipAt,mul_comm]; rfl,word_of_lt skips]
      rw [if_pos more,radix,skip]
      refine ih (level + 1) (by omega) below fun l lt => ?_
      rcases lt_or_eq_of_le (le_of_lt_succ lt) with lt | rfl
      · exact lower l lt
      · exact more
    · rw [if_neg more]
      exact ⟨level,before,rfl,by omega⟩

-- Past 2^29 blocks the radix wraps to 0 and the loop goes on for ever.
theorem coverRadix_fuel (large : 2 ^ 29 < blocks) (rounds : Nat) : ∀ radix skip, radix = 0 ∨ (∃ level ≤ 6, radix = radixAt level) →
    coverRadix blocks rounds radix skip = .error .fuel := by
  induction rounds with
  | zero => exact fun _ _ _ => rfl
  | succ rounds ih =>
    intro radix skip reached
    have less : radix < blocks := by
      rcases reached with rfl | ⟨level,le,rfl⟩
      · omega
      · exact lt_of_le_of_lt (radixAt_mono le) large
    rw [coverRadix,if_pos less]
    refine ih _ _ ?_
    rcases reached with rfl | ⟨level,le,rfl⟩
    · exact .inl rfl
    rcases lt_or_eq_of_le le with below | rfl
    · refine .inr ⟨level + 1,below,?_⟩
      have bound := radixAt_mono (show level + 1 ≤ 6 from below)
      have top : radixAt 6 = 2 ^ 29 := by decide
      rw [show radixAt level * blistMetaRadix = radixAt (level + 1) by rw [radixAt_succ,mul_comm]; rfl,word_of_lt (by omega)]
    · exact .inl (by decide)

theorem created_small {bl : Blist} (created : blistCreate raw blocks = .ok bl) : blocks ≤ 2 ^ 29 := by
  by_contra large
  rw [blistCreate,coverRadix_fuel (Nat.lt_of_not_le large) maxDepth blistBmapRadix 0 (.inr ⟨0,Nat.zero_le _,rfl⟩)] at created
  cases created

theorem create_spec (raw : Nat → BlMeta) (positive : 0 < blocks) (small : blocks ≤ 2 ^ 29) :
    ∃ level ≤ 6, ∃ m, blistCreate raw blocks = .ok ⟨blocks,radixAt level,skipAt level,0,m⟩ ∧ blocks ≤ radixAt level ∧
      Shape m blocks level 0 0 ∧ (m.node 0).u = 0 := by
  obtain ⟨level,le,found,covers⟩ := coverRadix_spec blocks positive small maxDepth 0 rfl (by omega) fun l lt => by omega
  have bound : radixAt level ≤ 2 ^ 29 := radixAt_mono le
  have cover : covered blocks level 0 = blocks := by
    unfold covered
    omega
  have high : 0 + radixAt level < blistNone := by
    unfold blistNone
    omega
  have spec := radixInit_spec blocks level maxDepth (by unfold maxDepth; omega)
  have dry := (spec ⟨0,raw⟩ 0 positive high).1
  obtain ⟨m,ran,-,shape,zero⟩ := (spec ⟨1 + used (covered blocks level 0) level,raw⟩ 0 positive high).2 0 (by dsimp only; omega)
  rw [cover] at dry ran
  dsimp only at dry ran
  refine ⟨level,le,m,?_,covers,shape,zero⟩
  change coverRadix blocks maxDepth blistBmapRadix 0 = .ok (radixAt level,skipAt level) at found
  rw [blistCreate,found,ok_bind]
  dsimp only
  rw [dry,ok_bind]
  rw [ran]
  rfl

def isFree (m : Mem) : Nat → Nat → Nat → Nat → Bool
  | 0, scan, blk, b => (m.node scan).bmuBitmap.getLsbD (b - blk)
  | level + 1, scan, blk, b =>
    if (m.node scan).u = 0 then false
    else if (m.node scan).u = radixAt (level + 1) then true
    else
      let j := firstChild level blk b
      isFree m level (childAt level scan j) (childBlk level blk j) b

def Legal (blocks : Nat) (free : Finset Nat) : Op → Prop
  | .alloc count => 1 ≤ count ∧ count ≤ blistBmapRadix
  | .free blkno count => 0 < count ∧ blkno + count ≤ blocks ∧ ∀ b ∈ Finset.Ico blkno (blkno + count), b ∉ free
  | .fill blkno count => 0 < count ∧ blkno + count ≤ blocks

def Answers (free : Finset Nat) (reply : Nat) : Op → Prop
  | .alloc count => reply = blistNone ∨ Finset.Ico reply (reply + count) ⊆ free
  | .free _ _ => True
  | .fill blkno count => reply = (free ∩ Finset.Ico blkno (blkno + count)).card

def after (free : Finset Nat) (reply : Nat) : Op → Finset Nat
  | .alloc count => if reply = blistNone then free else free \ Finset.Ico reply (reply + count)
  | .free blkno count => free ∪ Finset.Ico blkno (blkno + count)
  | .fill blkno count => free \ Finset.Ico blkno (blkno + count)

inductive Reached (raw : Nat → BlMeta) (blocks : Nat) : Blist → Finset Nat → Prop where
  | created : blistCreate raw blocks = .ok bl → Reached raw blocks bl ∅
  | step : Reached raw blocks bl free → Legal blocks free op → step bl op = .ok (reply,next) →
      Reached raw blocks next (after free reply op)

structure Sound (hints : Prop) (blocks level : Nat) (bl : Blist) (free : Finset Nat) : Prop where
  deep : level ≤ 6
  radix : bl.blRadix = radixAt level
  skip : bl.blSkip = skipAt level
  covers : blocks ≤ radixAt level
  shape : Shape bl.blRoot blocks level 0 0
  tree : Tree hints bl.blRoot blocks free level 0 0
  count : bl.blFree = free.card
  within : ∀ b ∈ free, b < blocks

theorem created_sound (hints : Prop) (raw : Nat → BlMeta) (positive : 0 < blocks) (small : blocks ≤ 2 ^ 29) :
    ∃ level bl, blistCreate raw blocks = .ok bl ∧ Sound hints blocks level bl ∅ := by
  obtain ⟨level,le,m,ran,covers,shape,zero⟩ := create_spec raw positive small
  exact ⟨level,_,ran,le,rfl,rfl,covers,shape,tree_empty zero (by simp),rfl,by simp⟩

theorem at_root {level : Nat} (leaf inner : α) :
    (if radixAt level = blistBmapRadix then leaf else inner) = if skipAt level + 1 = 1 then leaf else inner := by
  simp only [radixAt_leaf,skipAt_leaf]

def LeafRun (free : Finset Nat) (count : Nat) : Prop :=
  ∃ leaf s, leaf % blistBmapRadix = 0 ∧ leaf ≤ s ∧ s + count ≤ leaf + blistBmapRadix ∧ Finset.Ico s (s + count) ⊆ free

theorem fits_of_run (sound : Sound hints blocks level bl free) (some : 0 < count) (run : LeafRun free count) :
    Fits free level 0 count := by
  obtain ⟨leaf,s,aligned,low,high,sub⟩ := run
  have inside := sound.within s (sub (mem_Ico.mpr (by omega)))
  have covers := sound.covers
  have period : radixAt level % 32 = 0 := mul_mod_right 32 (16 ^ level)
  unfold blistBmapRadix at aligned high
  exact ⟨leaf,s,zero_le _,by omega,aligned,low,high,sub⟩

-- No blist_free of the step completes a node with a low hint.
def Calm (bl : Blist) : Op → Prop
  | .free blkno count => ∀ level, bl.blRadix = radixAt level → ¬Completes bl.blRoot level 0 blkno count 0
  | _ => True

section
variable (sound : Sound hints blocks level bl free)
include sound

theorem Sound.high : radixAt level ≤ 2 ^ 29 := radixAt_mono sound.deep

theorem Sound.card_le : free.card ≤ 2 ^ 29 := by
  have sub : free ⊆ range blocks := fun b mem => mem_range.mpr (sound.within b mem)
  have := card_le_card sub
  rw [card_range] at this
  exact this.trans (sound.covers.trans sound.high)

theorem alloc_step (legal : Legal blocks free (.alloc count)) :
    ∃ reply next, step bl (.alloc count) = .ok (reply,next) ∧ Answers free reply (.alloc count) ∧
      Sound hints blocks level next (after free reply (.alloc count)) ∧
      (hints → reply = blistNone → ¬LeafRun free count) := by
  obtain ⟨some,le⟩ := legal
  have high := sound.high
  have few := sound.card_le
  obtain ⟨r,t,ran,kept,shape,answer⟩ := alloc_spec sound.within some le level maxDepth (by have := sound.deep; unfold maxDepth; omega)
    bl.blRoot 0 0 sound.shape sound.tree rfl (by unfold blistNone; omega)
  dsimp only at ran
  rw [Nat.add_sub_cancel,← at_root,← sound.radix,← sound.skip] at ran
  change ∃ reply next, blistAlloc bl count = .ok (reply,next) ∧ _
  rw [blistAlloc,ran,ok_bind]
  dsimp only
  rcases answer with ⟨rfl,tree,unfit⟩ | ⟨found,run,_,_,tree⟩
  · refine ⟨_,_,rfl,.inl rfl,?_,fun on _ run => unfit on (fits_of_run sound some run)⟩
    exact ⟨sound.deep,sound.radix,sound.skip,sound.covers,shape,tree,sound.count,sound.within⟩
  have size := card_sdiff_add_card_eq_card run
  rw [Nat.card_Ico,Nat.add_sub_cancel_left] at size
  rw [if_pos found]
  refine ⟨_,_,rfl,.inr run,?_,fun _ none => (found none).elim⟩
  rw [after,if_neg found]
  refine ⟨sound.deep,sound.radix,sound.skip,sound.covers,shape,tree,?_,fun b mem => sound.within b (mem_sdiff.mp mem).1⟩
  dsimp only
  rw [sound.count,less_of_le (by omega) (by omega)]
  omega

theorem free_step (legal : Legal blocks free (.free blkno count))
    (calm : hints → Calm bl (.free blkno count)) :
    ∃ reply next, step bl (.free blkno count) = .ok (reply,next) ∧
      Sound hints blocks level next (after free reply (.free blkno count)) := by
  obtain ⟨some,inside,taken⟩ := legal
  have high := sound.high
  have covers := sound.covers
  obtain ⟨t,ran,kept,shape,tree⟩ := free_spec level maxDepth (by have := sound.deep; unfold maxDepth; omega)
    bl.blRoot 0 blkno count 0 sound.shape sound.tree rfl some (Nat.zero_le _) (by omega) (by unfold blistNone; omega) inside taken
    (fun on => calm on level sound.radix)
  dsimp only at ran
  rw [Nat.add_sub_cancel,← at_root,← sound.radix,← sound.skip] at ran
  have apart : Disjoint free (Finset.Ico blkno (blkno + count)) := disjoint_right.mpr taken
  have within (b : Nat) (mem : b ∈ free ∪ Finset.Ico blkno (blkno + count)) : b < blocks := by
    rcases mem_union.mp mem with mem | mem
    · exact sound.within b mem
    have := mem_Ico.mp mem
    omega
  have size : (free ∪ Finset.Ico blkno (blkno + count)).card = free.card + count := by
    rw [card_union_of_disjoint apart,Nat.card_Ico,Nat.add_sub_cancel_left]
  have next : Sound hints blocks level {bl with blRoot := t,blFree := word (bl.blFree + count)}
      (free ∪ Finset.Ico blkno (blkno + count)) := by
    refine ⟨sound.deep,sound.radix,sound.skip,covers,shape,tree,?_,within⟩
    have few := sound.card_le
    rw [sound.count,size,word_of_lt (by omega)]
  refine ⟨0,_,?_,next⟩
  change (blistFree bl blkno count >>= _) = _
  rw [blistFree,ran]
  rfl

theorem fill_step (legal : Legal blocks free (.fill blkno count)) :
    ∃ reply next, step bl (.fill blkno count) = .ok (reply,next) ∧ Answers free reply (.fill blkno count) ∧
      Sound hints blocks level next (after free reply (.fill blkno count)) := by
  obtain ⟨some,inside⟩ := legal
  have high := sound.high
  have covers := sound.covers
  obtain ⟨t,ran,kept,shape,tree⟩ := fill_spec level maxDepth (by have := sound.deep; unfold maxDepth; omega)
    bl.blRoot 0 blkno count 0 sound.shape sound.tree rfl some (zero_le _) (by omega) (by unfold blistNone; omega) inside
  dsimp only at ran
  rw [Nat.add_sub_cancel,← at_root,← sound.radix,← sound.skip] at ran
  refine ⟨_,{bl with blRoot := t,blFree := less bl.blFree (free ∩ Finset.Ico blkno (blkno + count)).card},?_,rfl,?_⟩
  · change blistFill bl blkno count = _
    rw [blistFill,ran]
    rfl
  have few := sound.card_le
  have part := card_le_card (show free ∩ Finset.Ico blkno (blkno + count) ⊆ free from inter_subset_left)
  have split := card_sdiff_add_card_inter free (Finset.Ico blkno (blkno + count))
  refine ⟨sound.deep,sound.radix,sound.skip,covers,shape,tree,?_,fun b mem => sound.within b (mem_sdiff.mp mem).1⟩
  dsimp only
  rw [sound.count,after,less_of_le part (by omega)]
  omega

theorem step_spec (legal : Legal blocks free op) (calm : hints → Calm bl op) :
    ∃ reply next, step bl op = .ok (reply,next) ∧ Answers free reply op ∧
      Sound hints blocks level next (after free reply op) := by
  cases op with
  | alloc count =>
    obtain ⟨reply,next,ran,answers,sound,-⟩ := alloc_step sound legal
    exact ⟨reply,next,ran,answers,sound⟩
  | free blkno count =>
    obtain ⟨reply,next,ran,sound⟩ := free_step sound legal calm
    exact ⟨reply,next,ran,trivial,sound⟩
  | fill blkno count => exact fill_step sound legal
end

theorem reached_sound (positive : 0 < blocks) (small : blocks ≤ 2 ^ 29) (reached : Reached raw blocks bl free) :
    ∃ level, Sound False blocks level bl free := by
  induction reached with
  | created ran =>
    obtain ⟨level,bl,created,sound⟩ := created_sound False raw positive small
    cases ran.symm.trans created
    exact ⟨level,sound⟩
  | step prior legal ran ih =>
    obtain ⟨level,sound⟩ := ih
    obtain ⟨reply,next,stepped,_,sound⟩ := step_spec sound legal False.elim
    cases ran.symm.trans stepped
    exact ⟨level,sound⟩

theorem Tree.isFree_iff (tree : Tree hints m blocks free level scan blk) (low : blk ≤ b) (high : b < blk + radixAt level)
    (real : b < blocks) : isFree m level scan blk b = true ↔ b ∈ free := by
  induction level generalizing scan blk with
  | zero =>
    simp only [radixAt,pow_zero,mul_one] at high
    have bit := tree.1 (b - blk) (by omega)
    rwa [Nat.add_sub_cancel' low] at bit
  | succ level ih =>
    obtain ⟨avail,-,children⟩ := tree
    have bound := card_inter_le free (level + 1) blk
    rw [isFree]
    split
    · next zero =>
      have := of_card_zero (avail.symm.trans zero) low high
      simpa using this
    split
    · next whole =>
      have := of_card_full (avail.symm.trans whole) low high
      simpa using this
    have first := firstChild_le level low
    have past := lt_firstChild_succ level blk b
    rw [childBlk_succ] at past
    exact ih (children (by omega) (by omega) _ (firstChild_lt high low) (by omega)) first past

-- The list is a set of free blocks: every call returns, and does to the set
-- what its reply says.
theorem blist_exact (raw : Nat → BlMeta) (blocks : Nat) (positive : 0 < blocks) (small : blocks ≤ 2 ^ 29) :
    (∃ bl, blistCreate raw blocks = .ok bl) ∧ ∀ bl free, Reached raw blocks bl free →
      bl.blFree = free.card ∧ (∀ b ∈ free, b < blocks) ∧
      (∃ level, bl.blRadix = radixAt level ∧ ∀ b < blocks, isFree bl.blRoot level 0 0 b = true ↔ b ∈ free) ∧
      ∀ op, Legal blocks free op → ∃ reply next, step bl op = .ok (reply,next) ∧ Answers free reply op := by
  obtain ⟨_,bl,created,_⟩ := created_sound False raw positive small
  refine ⟨⟨bl,created⟩,fun bl free reached => ?_⟩
  obtain ⟨level,sound⟩ := reached_sound positive small reached
  refine ⟨sound.count,sound.within,⟨level,sound.radix,fun b lt => ?_⟩,fun op legal => ?_⟩
  · exact sound.tree.isFree_iff (zero_le b) (by have := sound.covers; omega) lt
  · obtain ⟨reply,next,ran,answers,_⟩ := step_spec sound legal False.elim
    exact ⟨reply,next,ran,answers⟩

theorem blist_exact_forty : ∃ bl reply next, blistCreate (fun _ => ⟨0,0⟩) 40 = .ok bl ∧
    step bl (.free 8 32) = .ok (reply,next) := by
  obtain ⟨⟨bl,created⟩,all⟩ := blist_exact (fun _ => ⟨0,0⟩) 40 (by decide) (by decide)
  obtain ⟨_,_,_,steps⟩ := all bl ∅ (.created created)
  obtain ⟨reply,next,ran,_⟩ := steps (.free 8 32) ⟨by decide,by decide,fun _ _ => notMem_empty _⟩
  exact ⟨bl,reply,next,created,ran⟩

inductive Live (m : Mem) (blocks top : Nat) : Nat → Nat → Nat → Prop where
  | root : Live m blocks top top 0 0
  | child : Live m blocks top (level + 1) scan blk → 0 < (m.node scan).u → (m.node scan).u < radixAt (level + 1) →
      j < 16 → childBlk level blk j < blocks → Live m blocks top level (childAt level scan j) (childBlk level blk j)

end NetbsdAvr32.Blist
