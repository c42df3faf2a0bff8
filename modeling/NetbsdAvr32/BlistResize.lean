import NetbsdAvr32.BlistExact
import NetbsdAvr32.PowerMask

-- blst_copy and blist_resize: the free space of a tree replayed into another.
namespace NetbsdAvr32.Blist
open Sweep Finset Outcome Nat
variable {count size : Nat}

def copyBits (v : BitVec 32) (blk count : Nat) : Nat → Nat → Blist → Except Halt Blist
  | 0, _, dest => .ok dest
  | rounds + 1, j, dest =>
    if j < count then do
      let dest ← (if v &&& (1#32 <<< j) ≠ 0 then blistFree dest (word (blk + j)) 1 else .ok dest)
      copyBits v blk count rounds (j + 1) dest
    else .ok dest

-- One round of the loop over the children; `copy` is the call on a child. The
-- state is the new list, the blocks left and `blk`.
def copyRound (copy : Nat → Nat → Nat → Blist → Except Halt Blist) (m : Mem) (scan radix i : Nat) :
    Blist × Nat × Nat → Except Halt (Round (Blist × Nat × Nat))
  | (dest,count,blk) =>
    if count = 0 then .ok (.stop (dest,count,blk))
    else do
      let child ← fetch m (scan + i)
      if child.bmBighint = blistNone then .ok (.stop (dest,count,blk))
      else if count ≥ radix then
        let dest ← copy (scan + i) blk radix dest
        .ok (.next (dest,less count radix,word (blk + radix)))
      else
        let dest ← copy (scan + i) blk count dest
        .ok (.next (dest,0,word (blk + radix)))

def blstCopy : Nat → Mem → Nat → Nat → Nat → Nat → Nat → Blist → Except Halt Blist
  | 0, _, _, _, _, _, _, _ => .error .fuel
  | depth + 1, m, scan, blk, radix, skip, count, dest => do
    let node ← fetch m scan
    if radix = blistBmapRadix then
      let v := node.bmuBitmap
      if v = BitVec.allOnes 32 then blistFree dest blk count
      else if v ≠ 0 then copyBits v blk count blistBmapRadix 0 dest
      else .ok dest
    else if node.u = 0 then .ok dest
    else if node.u = radix then
      if count < radix then blistFree dest blk count else blistFree dest blk radix
    else
      let radix := radix / blistMetaRadix
      let nextSkip := skip / blistMetaRadix
      let (_,dest,_) ← forLoop skip nextSkip
        (copyRound (fun scan blk count dest => blstCopy depth m scan blk radix (nextSkip - 1) count dest) m scan radix)
        (blistMetaRadix + 1) 1 (dest,count,blk)
      .ok dest

-- `raw` is what malloc leaves in the new array.
def blistResize (raw : Nat → BlMeta) (bl : Blist) (count : Nat) (freenew : Bool) : Except Halt Blist := do
  let newbl ← blistCreate raw count
  let count := if count > bl.blBlocks then bl.blBlocks else count
  let newbl ← blstCopy maxDepth bl.blRoot 0 0 bl.blRadix bl.blSkip count newbl
  if freenew ∧ count < newbl.blBlocks then blistFree newbl count (less newbl.blBlocks count)
  else .ok newbl

structure Into (blocks top : Nat) (dest : Blist) (free : Finset Nat) : Prop where
  sound : Sound False blocks top dest free
  size : dest.blBlocks = blocks

theorem Into.free (into : Into blocks top dest taken) (some : 0 < count) (within : blk + count ≤ blocks)
    (apart : ∀ b ∈ Finset.Ico blk (blk + count), b ∉ taken) :
    ∃ next, blistFree dest blk count = .ok next ∧ Into blocks top next (taken ∪ Finset.Ico blk (blk + count)) := by
  obtain ⟨reply,next,ran,sound⟩ := free_step into.sound (show Legal blocks taken (.free blk count) from ⟨some,within,apart⟩) False.elim
  obtain ⟨after,freed,same⟩ := bind_ok ran
  cases same
  refine ⟨next,freed,sound,?_⟩
  obtain ⟨m,-,same⟩ := bind_ok freed
  cases same
  exact into.size

theorem Into.same (into : Into blocks top dest taken) (alike : ∀ b, b ∈ taken ↔ b ∈ other) : Into blocks top dest other := by
  obtain rfl : taken = other := ext alike
  exact into

def copied (taken free : Finset Nat) (blk count : Nat) : Finset Nat := taken ∪ (free ∩ Finset.Ico blk (blk + count))

theorem mem_copied : b ∈ copied taken free blk count ↔ b ∈ taken ∨ b ∈ free ∧ blk ≤ b ∧ b < blk + count := by
  unfold copied
  rw [mem_union,mem_inter,mem_Ico]

theorem copyBits_spec {v : BitVec 32} (bits : ∀ j < 32, v.getLsbD j = true ↔ blk + j ∈ free) (top : blk + count ≤ blocks) (small : blocks < 2 ^ 32)
    (le : count ≤ 32) (apart : ∀ b ∈ Finset.Ico blk (blk + count), b ∉ taken) (rounds j : Nat) (all : j + rounds = 32)
    (into : Into blocks level dest (copied taken free blk (min j count))) :
    ∃ next, copyBits v blk count rounds j dest = .ok next ∧ Into blocks level next (copied taken free blk count) := by
  induction rounds generalizing j dest with
  | zero =>
    rw [min_eq_right (by omega)] at into
    exact ⟨dest,rfl,into⟩
  | succ rounds ih =>
    unfold copyBits
    split
    · next more =>
      rw [min_eq_left (le_of_lt more)] at into
      have clear := PowerMask.bit_clear v (show j < 32 by omega)
      by_cases set : v.getLsbD j = true
      · have mem := (bits j (by omega)).mp set
        have some : v &&& 1#32 <<< j ≠ 0 := fun zero => by
          rw [clear.mp zero] at set
          cases set
        have new : ∀ b ∈ Finset.Ico (blk + j) (blk + j + 1), b ∉ copied taken free blk j := by
          intro b one
          have bounds := mem_Ico.mp one
          rw [mem_copied]
          rintro (old | ⟨_,_,before⟩)
          · exact apart b (mem_Ico.mpr (by omega)) old
          · omega
        obtain ⟨next,ran,held⟩ := into.free (by decide) (by omega) new
        rw [if_pos some,word_of_lt (by omega),ran,ok_bind]
        refine ih (j + 1) (by omega) (held.same fun b => ?_)
        rw [mem_union,mem_copied,mem_copied,mem_Ico]
        constructor
        · rintro ((old | ⟨free,low,high⟩) | one)
          · exact .inl old
          · exact .inr ⟨free,low,by omega⟩
          obtain rfl : b = blk + j := by omega
          exact .inr ⟨mem,by omega,by omega⟩
        rintro (old | ⟨free,low,high⟩)
        · exact .inl (.inl old)
        by_cases last : b = blk + j
        · exact .inr (by omega)
        · exact .inl (.inr ⟨free,low,by omega⟩)
      have out : blk + j ∉ free := fun mem => set ((bits j (by omega)).mpr mem)
      rw [if_neg (not_not.mpr (clear.mpr (by simpa using set))),ok_bind]
      refine ih (j + 1) (by omega) (into.same fun b => ?_)
      rw [mem_copied,mem_copied]
      constructor
      · rintro (old | ⟨free,low,high⟩)
        · exact .inl old
        · exact .inr ⟨free,low,by omega⟩
      rintro (old | ⟨free,low,high⟩)
      · exact .inl old
      have ne : b ≠ blk + j := fun same => out (same ▸ free)
      exact .inr ⟨free,low,by omega⟩
    · next more =>
      rw [Nat.min_eq_right (Nat.le_of_not_lt more)] at into
      exact ⟨dest,rfl,into⟩

def CopySpec (m : Mem) (blocks : Nat) (free : Finset Nat) (size top level : Nat) (copy : Nat → Nat → Nat → Blist → Except Halt Blist) : Prop :=
  ∀ scan blk count dest taken, Shape m blocks level scan blk → Tree False m blocks free level scan blk → 0 < count → count ≤ radixAt level →
    blk + count ≤ blocks → blk + count ≤ size → blk + radixAt level < blistNone → (∀ b ∈ Finset.Ico blk (blk + count), b ∉ taken) →
    Into size top dest taken → ∃ next, copy scan blk count dest = .ok next ∧ Into size top next (copied taken free blk count)

theorem copied_none (none : ∀ b, blk ≤ b → b < blk + count → b ∉ free) : b ∈ taken ↔ b ∈ copied taken free blk count := by
  rw [mem_copied]
  constructor
  · exact .inl
  rintro (old | ⟨mem,low,high⟩)
  · exact old
  · exact (none b low high mem).elim

theorem copied_all (all : ∀ b, blk ≤ b → b < blk + count → b ∈ free) :
    b ∈ taken ∪ Finset.Ico blk (blk + count) ↔ b ∈ copied taken free blk count := by
  rw [mem_copied,mem_union,mem_Ico]
  constructor
  · rintro (old | ⟨low,high⟩)
    · exact .inl old
    · exact .inr ⟨all b low high,low,high⟩
  rintro (old | ⟨_,low,high⟩)
  · exact .inl old
  · exact .inr ⟨low,high⟩

theorem copied_copied (blk first second : Nat) :
    b ∈ copied (copied taken free blk first) free (blk + first) second ↔ b ∈ copied taken free blk (first + second) := by
  simp only [mem_copied]
  constructor
  · rintro ((old | ⟨mem,low,high⟩) | ⟨mem,low,high⟩)
    · exact .inl old
    · exact .inr ⟨mem,low,by omega⟩
    · exact .inr ⟨mem,by omega,by omega⟩
  rintro (old | ⟨mem,low,high⟩)
  · exact .inl (.inl old)
  by_cases before : b < blk + first
  · exact .inl (.inr ⟨mem,low,before⟩)
  · exact .inr ⟨mem,by omega,by omega⟩

theorem leafCopy_spec (depth : Nat) : CopySpec m blocks free size top 0 fun scan blk count dest =>
    blstCopy (depth + 1) m scan blk (radixAt 0) (skipAt 0) count dest := by
  intro scan blk count dest taken shape tree some le within inside high apart into
  have le : count ≤ 32 := le
  dsimp only
  rw [blstCopy,fetch_leaf shape,ok_bind,if_pos (show radixAt 0 = blistBmapRadix from rfl)]
  have bits := tree.1
  by_cases ones : (m.node scan).bmuBitmap = BitVec.allOnes 32
  · have all (b : Nat) (low : blk ≤ b) (high : b < blk + count) : b ∈ free := by
      have bit := bits (b - blk) (by omega)
      rw [ones,BitVec.getLsbD_allOnes,Nat.add_sub_cancel' low] at bit
      exact bit.mp (by simp; omega)
    obtain ⟨next,ran,held⟩ := into.free some inside apart
    rw [if_pos ones]
    exact ⟨next,ran,held.same fun b => copied_all all⟩
  rw [if_neg ones]
  by_cases zero : (m.node scan).bmuBitmap = 0
  · rw [if_neg (not_not.mpr zero)]
    refine ⟨dest,rfl,into.same fun b => copied_none fun c low high mem => ?_⟩
    have bit := (bits (c - blk) (by omega)).mpr (by rwa [Nat.add_sub_cancel' low])
    rw [zero] at bit
    simp at bit
  rw [if_pos zero]
  refine copyBits_spec bits inside (by have := into.sound.covers; have := into.sound.high; omega) le apart 32 0 rfl (into.same fun b => ?_)
  exact copied_none fun c low high => by omega

structure Copying (free : Finset Nat) (size top level blk count : Nat) (taken : Finset Nat) (j : Nat) (s : Blist × Nat × Nat) : Prop where
  left : s.2.1 = count - j * radixAt level
  at_ : s.2.2 = childBlk level blk j
  into : Into size top s.1 (copied taken free blk (min count (j * radixAt level)))

theorem copyRound_spec (spec : CopySpec m blocks free size top level copy) (shape : Shape m blocks (level + 1) scan blk)
    (kids : Kids False m blocks (fun _ => free) level scan blk) (le : count ≤ radixAt (level + 1)) (within : blk + count ≤ blocks) (inside : blk + count ≤ size)
    (high : blk + radixAt (level + 1) < blistNone) (apart : ∀ b ∈ Finset.Ico blk (blk + count), b ∉ taken) (lt : j < 16)
    (held : Copying free size top level blk count taken j s) :
    Carries (copyRound copy m scan (radixAt level)) (skipAt level + 1) (Copying free size top level blk count taken)
      (fun j s => Copying free size top level blk count taken j s ∧ s.2.1 = 0) j s := by
  obtain ⟨dest,left,b⟩ := s
  obtain rfl : b = childBlk level blk j := held.at_
  have rest := held.left
  have into := held.into
  dsimp only at rest into
  have last := childBlk_end level blk lt
  have next : (j + 1) * radixAt level = j * radixAt level + radixAt level := succ_mul _ _
  have place : childBlk level blk j = blk + j * radixAt level := rfl
  unfold Carries copyRound
  dsimp only
  by_cases done : left = 0
  · rw [if_pos done]
    exact .inr ⟨_,rfl,held,done⟩
  have real : childBlk level blk j < blocks := by omega
  have child := shape.child lt real
  have read : fetch m (scan + (1 + j * (skipAt level + 1))) = .ok (m.node (childAt level scan j)) := fetch_ok child.root.1
  rw [min_eq_right (by omega)] at into
  -- The part below this child is not in the new list yet.
  have new (part : Nat) (le : part ≤ left) : ∀ b ∈ Finset.Ico (childBlk level blk j) (childBlk level blk j + part),
      b ∉ copied taken free blk (j * radixAt level) := by
    intro b mem
    have bounds := mem_Ico.mp mem
    rw [mem_copied]
    rintro (old | ⟨_,_,before⟩)
    · exact apart b (mem_Ico.mpr (by omega)) old
    · omega
  have advance : word (childBlk level blk j + radixAt level) = childBlk level blk (j + 1) := by
    rw [childBlk_succ]
    exact word_of_lt (by unfold blistNone at high; omega)
  rw [if_neg done,read,ok_bind,if_neg child.root.2,advance]
  by_cases whole : left ≥ radixAt level
  · obtain ⟨after,ran,held'⟩ := spec _ _ (radixAt level) dest _ child (kids j lt real) (radixAt_pos level) le_rfl (by omega) (by omega) (by omega)
      (new (radixAt level) whole) into
    change copy (scan + (1 + j * (skipAt level + 1))) _ _ _ = _ at ran
    rw [if_pos whole,ran,ok_bind]
    refine .inl ⟨_,rfl,?_,rfl,held'.same fun b => ?_⟩
    · dsimp only
      rw [less_of_le whole (by unfold blistNone at high; omega)]
      omega
    · rw [place,copied_copied,min_eq_right (by omega),next]
  obtain ⟨after,ran,held'⟩ := spec _ _ left dest _ child (kids j lt real) (by omega) (by omega) (by omega) (by omega) (by omega)
    (new left le_rfl) into
  change copy (scan + (1 + j * (skipAt level + 1))) _ _ _ = _ at ran
  rw [if_neg whole,ran,ok_bind]
  refine .inl ⟨_,rfl,?_,rfl,held'.same fun b => ?_⟩
  · dsimp only
    omega
  rw [place,copied_copied,min_eq_left (by omega)]
  have sum : j * radixAt level + left = count := by omega
  rw [sum]

theorem metaCopy_spec (depth : Nat) (spec : CopySpec m blocks free size top level fun scan blk count dest =>
      blstCopy depth m scan blk (radixAt level) (skipAt level) count dest) :
    CopySpec m blocks free size top (level + 1) fun scan blk count dest =>
      blstCopy (depth + 1) m scan blk (radixAt (level + 1)) (skipAt (level + 1)) count dest := by
  intro scan blk count dest taken shape tree some le within inside high apart into
  obtain ⟨avail,-,children⟩ := tree
  have bound := card_inter_le free (level + 1) blk
  have inner : radixAt (level + 1) ≠ blistBmapRadix := fun same => absurd ((radixAt_leaf _).mp same) (Nat.succ_ne_zero level)
  dsimp only
  rw [blstCopy,fetch_leaf shape,ok_bind,if_neg inner]
  split
  · next zero =>
    refine ⟨dest,rfl,into.same fun b => copied_none fun c low high => ?_⟩
    exact of_card_zero (avail.symm.trans zero) low (by omega)
  by_cases whole : (m.node scan).u = radixAt (level + 1)
  · obtain ⟨next,ran,held⟩ := into.free some inside apart
    have all (b : Nat) (low : blk ≤ b) (high : b < blk + count) : b ∈ free := of_card_full (avail.symm.trans whole) low (by omega)
    refine ⟨next,?_,held.same fun b => copied_all all⟩
    split_ifs with less
    · exact ran
    rw [← Nat.le_antisymm le (Nat.le_of_not_lt less)]
    exact ran
  rw [if_neg whole,radixAt_div,skipAt_div]
  dsimp only
  rw [Nat.add_sub_cancel]
  have start : Copying free size top level blk count taken 0 (dest,count,blk) :=
    ⟨by simp,by simp [childBlk],into.same fun b => copied_none fun c low high => by omega⟩
  obtain ⟨j,⟨next,left,b⟩,ran,_,ends⟩ := children_loop _ _
    (fun j s lt held => copyRound_spec spec shape (children (by omega) (by omega)) le within inside high apart lt held) 0 (by omega) start
  rw [Nat.zero_mul] at ran
  rw [ran,ok_bind]
  obtain ⟨held,all⟩ : Copying free size top level blk count taken j (next,left,b) ∧ count ≤ j * radixAt level := by
    rcases ends with ⟨rfl,held⟩ | ⟨_,held,done⟩
    · rw [radixAt_succ] at le
      exact ⟨held,le⟩
    have := held.left
    exact ⟨held,by omega⟩
  have into := held.into
  rw [Nat.min_eq_left all] at into
  exact ⟨next,rfl,into⟩

theorem copy_spec (level depth : Nat) (deep : level < depth) : CopySpec m blocks free size top level fun scan blk count dest =>
    blstCopy depth m scan blk (radixAt level) (skipAt level) count dest := by
  induction level generalizing depth with
  | zero =>
    obtain ⟨depth,rfl⟩ : ∃ d, depth = d + 1 := ⟨depth - 1,by omega⟩
    exact leafCopy_spec depth
  | succ level ih =>
    obtain ⟨depth,rfl⟩ : ∃ d, depth = d + 1 := ⟨depth - 1,by omega⟩
    exact metaCopy_spec depth (ih depth (by omega))

variable {raw fresh : Nat → BlMeta} {blocks count level top : Nat} {bl next : Blist} {free : Finset Nat}

def resized (blocks count : Nat) (freenew : Bool) (free : Finset Nat) : Finset Nat :=
  (free ∩ Finset.range (min blocks count)) ∪ if freenew = true ∧ blocks < count then Finset.Ico blocks count else ∅

theorem created_into (raw : Nat → BlMeta) (positive : 0 < blocks) (small : blocks ≤ 2 ^ 29) :
    ∃ top next, blistCreate raw blocks = .ok next ∧ Into blocks top next ∅ := by
  obtain ⟨top,le,m,ran,covers,shape,zero⟩ := create_spec raw positive small
  exact ⟨top,_,ran,⟨le,rfl,rfl,covers,shape,tree_empty zero (by simp),rfl,by simp⟩,rfl⟩

theorem resize_spec (fresh : Nat → BlMeta) (freenew : Bool) (old : Into blocks level bl free) (positive : 0 < blocks) (some : 0 < count)
    (small : count ≤ 2 ^ 29) : ∃ top next, blistResize fresh bl count freenew = .ok next ∧ Into count top next (resized blocks count freenew free) := by
  obtain ⟨top,newbl,created,empty⟩ := created_into fresh some small
  have sound := old.sound
  have covers := sound.covers
  have high := sound.high
  have clip : (if count > bl.blBlocks then bl.blBlocks else count) = min blocks count := by
    rw [old.size]
    split_ifs <;> omega
  obtain ⟨next,ran,into⟩ := copy_spec level maxDepth (by have := sound.deep; unfold maxDepth; omega) 0 0 (min blocks count) newbl ∅ sound.shape sound.tree
    (by omega) (by omega) (by omega) (by omega) (by unfold blistNone; omega) (fun _ _ => notMem_empty _) empty
  dsimp only at ran
  rw [← sound.radix,← sound.skip] at ran
  unfold blistResize
  rw [created,ok_bind,clip]
  dsimp only
  rw [ran,ok_bind,into.size]
  by_cases more : freenew = true ∧ min blocks count < count
  · have grows : min blocks count = blocks ∧ blocks < count := by
      omega
    obtain ⟨last,freed,held⟩ := into.free (show 0 < count - min blocks count by omega) (show min blocks count + (count - min blocks count) ≤ count by omega) fun b mem => by
      have bounds := mem_Ico.mp mem
      rw [mem_copied]
      rintro (none | ⟨_,_,before⟩)
      · exact notMem_empty b none
      · omega
    rw [if_pos more,less_of_le (by omega) (by omega)]
    refine ⟨top,last,freed,held.same fun b => ?_⟩
    unfold resized copied
    rw [if_pos ⟨more.1,grows.2⟩,grows.1]
    simp only [mem_union,mem_inter,mem_Ico,mem_range,notMem_empty,false_or,zero_le,true_and,zero_add,
      Nat.add_sub_cancel' (Nat.le_of_lt grows.2)]
  rw [if_neg more]
  refine ⟨top,next,rfl,into.same fun b => ?_⟩
  unfold resized copied
  rw [if_neg fun both => more ⟨both.1,by have := both.2; omega⟩]
  simp only [mem_union,mem_inter,mem_Ico,mem_range,notMem_empty,false_or,Nat.zero_le,true_and,Nat.zero_add,or_false]

theorem created_blocks (created : blistCreate raw blocks = .ok bl) : bl.blBlocks = blocks := by
  obtain ⟨⟨radix,skip⟩,-,created⟩ := bind_ok created
  obtain ⟨⟨used,_⟩,-,created⟩ := bind_ok created
  obtain ⟨⟨_,m⟩,-,created⟩ := bind_ok created
  cases created
  rfl

theorem step_blocks {reply : Nat} (ran : step bl op = .ok (reply,next)) : next.blBlocks = bl.blBlocks := by
  cases op with
  | alloc count =>
    obtain ⟨⟨blk,m⟩,-,ran⟩ := bind_ok (show (_ >>= _) = _ from ran)
    dsimp only at ran
    split_ifs at ran <;> cases ran <;> rfl
  | free blkno count =>
    obtain ⟨after,freed,ran⟩ := bind_ok (show (blistFree bl blkno count >>= _) = _ from ran)
    obtain ⟨m,-,freed⟩ := bind_ok (show (_ >>= _) = _ from freed)
    cases ran
    cases freed
    rfl
  | fill blkno count =>
    obtain ⟨⟨filled,m⟩,-,ran⟩ := bind_ok (show (_ >>= _) = _ from ran)
    cases ran
    rfl

theorem Reached.into (reached : Reached raw blocks bl free) (positive : 0 < blocks) : ∃ level, Into blocks level bl free := by
  have both : blocks ≤ 2 ^ 29 ∧ bl.blBlocks = blocks := by
    induction reached with
    | created created => exact ⟨created_small created,created_blocks created⟩
    | step prior legal ran ih => exact ⟨ih.1,(step_blocks ran).trans ih.2⟩
  obtain ⟨level,sound⟩ := reached_sound positive both.1 reached
  exact ⟨level,sound,both.2⟩

structure Presents (blocks : Nat) (bl : Blist) (free : Finset Nat) : Prop where
  size : bl.blBlocks = blocks
  count : bl.blFree = free.card
  within : ∀ b ∈ free, b < blocks
  bits : ∃ level, bl.blRadix = radixAt level ∧ ∀ b < blocks, isFree bl.blRoot level 0 0 b = true ↔ b ∈ free
  calls : ∀ op, Legal blocks free op → ∃ reply next, step bl op = .ok (reply,next) ∧ Answers free reply op

theorem Into.presents (into : Into blocks level bl free) : Presents blocks bl free where
  size := into.size
  count := into.sound.count
  within := into.sound.within
  bits := ⟨level,into.sound.radix,fun b lt => into.sound.tree.isFree_iff (zero_le b) (by have := into.sound.covers; omega) lt⟩
  calls := fun op legal => by
    obtain ⟨reply,next,ran,answers,_⟩ := step_spec into.sound legal False.elim
    exact ⟨reply,next,ran,answers⟩

theorem resize_exact (fresh : Nat → BlMeta) (freenew : Bool) (positive : 0 < blocks) (reached : Reached raw blocks bl free) (some : 0 < count)
    (small : count ≤ 2 ^ 29) : ∃ next, blistResize fresh bl count freenew = .ok next ∧ Presents count next (resized blocks count freenew free) := by
  obtain ⟨level,into⟩ := reached.into positive
  obtain ⟨top,next,ran,held⟩ := resize_spec fresh freenew into positive some small
  exact ⟨next,ran,held.presents⟩

theorem resize_exact_forty : ∃ bl next, blistCreate (fun _ => ⟨0,0⟩) 40 = .ok bl ∧ blistResize (fun _ => ⟨0,0⟩) bl 48 true = .ok next ∧
    Presents 48 next (resized 40 48 true ∅) := by
  obtain ⟨_,bl,created,_⟩ := created_into (fun _ => ⟨0,0⟩) (show 0 < 40 by decide) (by decide)
  obtain ⟨next,ran,presents⟩ := resize_exact (fun _ => ⟨0,0⟩) true (show 0 < 40 by decide) (.created created) (show 0 < 48 by decide) (by decide)
  exact ⟨bl,next,created,ran,presents⟩
end NetbsdAvr32.Blist
