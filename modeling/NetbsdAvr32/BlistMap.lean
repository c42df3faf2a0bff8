import NetbsdAvr32.Sweep

-- sys/kern/subr_blist.c: a bitmap of blocks in a radix tree with hints.
namespace NetbsdAvr32.Blist
open Sweep

def word (n : Nat) : Nat := n % 2 ^ 32
def less (n m : Nat) : Nat := word (n + (2 ^ 32 - m))

def blistNone : Nat := 2 ^ 32 - 1
def blistBmapRadix : Nat := 32
def blistMetaRadix : Nat := 16

-- `u` is the union: bmu_avail in a meta node, bmu_bitmap in a leaf.
structure BlMeta where
  u : Nat
  bmBighint : Nat
  deriving DecidableEq, Repr

def BlMeta.bmuBitmap (node : BlMeta) : BitVec 32 := BitVec.ofNat 32 node.u
def BlMeta.withBitmap (node : BlMeta) (bitmap : BitVec 32) : BlMeta := {node with u := bitmap.toNat}

structure Mem where
  size : Nat
  node : Nat → BlMeta

def Mem.set (m : Mem) (i : Nat) (node : BlMeta) : Mem := {m with node := Function.update m.node i node}

def fetch (m : Mem) (i : Nat) : Except Halt BlMeta :=
  if i < m.size then .ok (m.node i) else .error (.fault "read past bl_root")

def store (m : Mem) (i : Nat) (node : BlMeta) : Except Halt Mem :=
  if i < m.size then .ok (m.set i node) else .error (.fault "write past bl_root")

-- The while loop over `j` for a single block: the index of a set bit.
def findOne : Nat → Nat → Nat → BitVec 32 → BitVec 32 → Except Halt Nat
  | 0, _, _, _, _ => .error .fuel
  | rounds + 1, j, r, orig, mask =>
    if j = 0 then .ok r
    else
      let zero := orig &&& mask == 0
      findOne rounds (j / 2) (bif zero then r + j else r) (bif zero then orig >>> j else orig) (mask >>> (j / 2))

def findRun (orig : BitVec 32) : Nat → Nat → BitVec 32 → Option (Nat × BitVec 32)
  | 0, _, _ => none
  | rounds + 1, j, mask => if orig &&& mask = mask then some (j,mask) else findRun orig rounds (j + 1) (mask <<< 1)

def blstLeafAlloc (m : Mem) (scan blk count : Nat) : Except Halt (Nat × Mem) := do
  let node ← fetch m scan
  let orig := node.bmuBitmap
  let failed (hint : Nat) : Except Halt (Nat × Mem) := do
    let m ← store m scan {node with bmBighint := hint}
    .ok (blistNone,m)
  if orig = 0 then failed 0
  else if count = 1 then
    let r ← findOne 6 (blistBmapRadix / 2) 0 orig (BitVec.allOnes 32 >>> (blistBmapRadix / 2))
    let m ← store m scan (node.withBitmap (orig &&& ~~~(1#32 <<< r)))
    .ok (word (blk + r),m)
  else if count ≤ blistBmapRadix then
    let n := blistBmapRadix - count
    if n = blistBmapRadix then .error (.fault "shift by the width of blist_bitmap_t")
    else match findRun orig (n + 1) 0 (BitVec.allOnes 32 >>> n) with
      | some (j,mask) =>
        let m ← store m scan (node.withBitmap (orig &&& ~~~mask))
        .ok (word (blk + j),m)
      | none => failed (less count 1)
  else failed (less count 1)

-- The loops that initialise the children of a collapsed node.
def sublevelRound (leaf inner : BlMeta) (scan nextSkip i : Nat) (m : Mem) : Except Halt (Round Mem) := do
  let child ← fetch m (scan + i)
  if child.bmBighint = blistNone then .ok (.stop m)
  else
    let m ← store m (scan + i) (if nextSkip = 1 then leaf else inner)
    .ok (.next m)

def initSublevel (leaf inner : BlMeta) (m : Mem) (scan skip nextSkip : Nat) : Except Halt Mem := do
  let (_,m) ← forLoop skip nextSkip (sublevelRound leaf inner scan nextSkip) (blistMetaRadix + 1) 1 m
  .ok m

def allFree (m : Mem) (scan radix skip nextSkip : Nat) : Except Halt Mem :=
  initSublevel ⟨2 ^ 32 - 1,blistBmapRadix⟩ ⟨radix,radix⟩ m scan skip nextSkip

def allAllocated (m : Mem) (scan skip nextSkip : Nat) : Except Halt Mem :=
  initSublevel ⟨0,0⟩ ⟨0,0⟩ m scan skip nextSkip

-- One round of the search of blst_meta_alloc; `alloc` is the call on a child.
-- The state is the array, `blk` and the block found.
def allocRound (alloc : Mem → Nat → Nat → Except Halt (Nat × Mem)) (scan count radix i : Nat) :
    Mem × Nat × Nat → Except Halt (Round (Mem × Nat × Nat))
  | (m,blk,_) => do
    let child ← fetch m (scan + i)
    if child.bmBighint = blistNone then .ok (.stop (m,blk,blistNone))
    else if count ≤ child.bmBighint then
      let (r,m) ← alloc m (scan + i) blk
      if r ≠ blistNone then .ok (.stop (m,blk,r)) else .ok (.next (m,word (blk + radix),blistNone))
    else if count > radix then .error (.panic "blist_meta_alloc: allocation too large")
    else .ok (.next (m,word (blk + radix),blistNone))

-- `depth` bounds the recursion.
def blstMetaAlloc : Nat → Mem → Nat → Nat → Nat → Nat → Nat → Except Halt (Nat × Mem)
  | 0, _, _, _, _, _, _ => .error .fuel
  | depth + 1, m, scan, blk, count, radix, skip => do
    let nextSkip := skip / blistMetaRadix
    let node ← fetch m scan
    if node.u = 0 then
      let m ← store m scan {node with bmBighint := count}
      .ok (blistNone,m)
    else
      let m ← (if node.u = radix then allFree m scan (radix / blistMetaRadix) skip nextSkip else .ok m)
      let radix := radix / blistMetaRadix
      let (_,m,_,r) ← forLoop skip nextSkip
        (allocRound
          (fun m scan blk =>
            if nextSkip = 1 then blstLeafAlloc m scan blk count
            else blstMetaAlloc depth m scan blk count radix (nextSkip - 1))
          scan count radix)
        (blistMetaRadix + 1) 1 (m,blk,blistNone)
      let node ← fetch m scan
      if r ≠ blistNone then
        let avail := less node.u count
        let m ← store m scan ⟨avail,if node.bmBighint > avail then avail else node.bmBighint⟩
        .ok (r,m)
      else
        let m ← store m scan {node with bmBighint := if node.bmBighint ≥ count then less count 1 else node.bmBighint}
        .ok (blistNone,m)

-- The mask of blst_leaf_free and blst_leaf_fill.
def leafMask (blk count : Nat) : Except Halt (BitVec 32) :=
  let n := blk % blistBmapRadix
  if 0 < count + n ∧ count + n ≤ blistBmapRadix then
    .ok ((BitVec.allOnes 32 <<< n) &&& (BitVec.allOnes 32 >>> (blistBmapRadix - count - n)))
  else .error (.fault "shift by the width of blist_bitmap_t or more")

def blstLeafFree (m : Mem) (scan blk count : Nat) : Except Halt Mem := do
  let mask ← leafMask blk count
  let node ← fetch m scan
  if node.bmuBitmap &&& mask ≠ 0 then .error (.panic "blst_radix_free: freeing free block")
  else store m scan {node.withBitmap (node.bmuBitmap ||| mask) with bmBighint := blistBmapRadix}

-- The while loop that breaks a range down into its parts below each child.
-- `visit` is the body between the computation of `v` and the updates.
def piecesRound (visit : Nat → Nat → Nat → Nat → α → Except Halt α) (radix i : Nat) :
    α × Nat × Nat × Nat → Except Halt (Round (α × Nat × Nat × Nat))
  | (a,freeBlk,count,blk) =>
    if blk < word (freeBlk + count) then do
      let v := less (word (blk + radix)) freeBlk
      let v := if v > count then count else v
      let a ← visit i freeBlk v blk a
      .ok (.next (a,word (freeBlk + v),less count v,word (blk + radix)))
    else .ok (.stop (a,freeBlk,count,blk))

def pieces (visit : Nat → Nat → Nat → Nat → α → Except Halt α) (radix skip nextSkip i freeBlk count blk : Nat) (a : α) :
    Except Halt α := do
  let (_,a,_) ← forLoop skip nextSkip (piecesRound visit radix) (blistMetaRadix + 1) i (a,freeBlk,count,blk)
  .ok a

-- The body of that loop in blst_meta_free; `free` is the call on a child.
def freePiece (free : Mem → Nat → Nat → Nat → Nat → Except Halt Mem) (scan i freeBlk v blk : Nat) (m : Mem) :
    Except Halt Mem := do
  let node ← fetch m scan
  if node.bmBighint = blistNone then .error (.panic "blst_meta_free: freeing unexpected range")
  else
    let m ← free m (scan + i) freeBlk v blk
    let node ← fetch m scan
    let child ← fetch m (scan + i)
    if node.bmBighint < child.bmBighint then store m scan {node with bmBighint := child.bmBighint} else .ok m

def blstMetaFree : Nat → Mem → Nat → Nat → Nat → Nat → Nat → Nat → Except Halt Mem
  | 0, _, _, _, _, _, _, _ => .error .fuel
  | depth + 1, m, scan, freeBlk, count, radix, skip, blk => do
    let nextSkip := skip / blistMetaRadix
    let node ← fetch m scan
    let m ←
      (if node.u = 0 then do
        let m ← store m scan ⟨count,count⟩
        if count ≠ radix then allAllocated m scan skip nextSkip else .ok m
      else store m scan {node with u := word (node.u + count)})
    let node ← fetch m scan
    if node.u = radix then .ok m
    else if node.u > radix then
      .error (.panic ("blst_meta_free: freeing already free blocks (" ++ toString count ++ ") " ++
        toString node.u ++ "/" ++ toString radix))
    else
      let radix := radix / blistMetaRadix
      let i := less freeBlk blk / radix
      pieces
        (freePiece
          (fun m scan freeBlk v blk =>
            if nextSkip = 1 then blstLeafFree m scan freeBlk v
            else blstMetaFree depth m scan freeBlk v radix (nextSkip - 1) blk)
          scan)
        radix skip nextSkip (i * nextSkip + 1) freeBlk count (word (blk + i * radix)) m

def countBits : Nat → Nat → BitVec 32 → Except Halt Nat
  | 0, _, _ => .error .fuel
  | rounds + 1, nblks, bitmap =>
    if bitmap = 0 then .ok nblks else countBits rounds (nblks + 1) (bitmap &&& (bitmap - 1))

def blstLeafFill (m : Mem) (scan blk count : Nat) : Except Halt (Nat × Mem) := do
  let mask ← leafMask blk count
  let node ← fetch m scan
  let nblks ← countBits (blistBmapRadix + 1) 0 (node.bmuBitmap &&& mask)
  let m ← store m scan (node.withBitmap (node.bmuBitmap &&& ~~~mask))
  .ok (nblks,m)

-- The body of the while loop of blst_meta_fill; `fill` is the call on a child.
def fillPiece (fill : Mem → Nat → Nat → Nat → Nat → Except Halt (Nat × Mem)) (scan i allocBlk v blk : Nat) :
    Nat × Mem → Except Halt (Nat × Mem)
  | (nblks,m) => do
    let node ← fetch m scan
    if node.bmBighint = blistNone then .error (.panic "blst_meta_fill: filling unexpected range")
    else
      let (filled,m) ← fill m (scan + i) allocBlk v blk
      .ok (word (nblks + filled),m)

def blstMetaFill : Nat → Mem → Nat → Nat → Nat → Nat → Nat → Nat → Except Halt (Nat × Mem)
  | 0, _, _, _, _, _, _, _ => .error .fuel
  | depth + 1, m, scan, allocBlk, count, radix, skip, blk => do
    let nextSkip := skip / blistMetaRadix
    let node ← fetch m scan
    if count = radix ∨ node.u = 0 then
      let m ← store m scan ⟨0,count⟩
      .ok (node.u,m)
    else if count > radix then .error (.panic "blist_meta_fill: allocation too large")
    else
      let m ← (if node.u = radix then allFree m scan (radix / blistMetaRadix) skip nextSkip else .ok m)
      let radix := radix / blistMetaRadix
      let i := less allocBlk blk / radix
      let (nblks,m) ← pieces
        (fillPiece
          (fun m scan allocBlk v blk =>
            if nextSkip = 1 then blstLeafFill m scan allocBlk v
            else blstMetaFill depth m scan allocBlk v radix (nextSkip - 1) blk)
          scan)
        radix skip nextSkip (i * nextSkip + 1) allocBlk count (word (blk + i * radix)) (0,m)
      let node ← fetch m scan
      let m ← store m scan {node with u := less node.u nblks}
      .ok (nblks,m)

-- `scan` is NULL in the dry run that only computes the size.
def storeAt (m : Mem) (scan : Option Nat) (node : BlMeta) : Except Halt Mem :=
  match scan with
  | some scan => store m scan node
  | none => .ok m

-- One round of blst_radix_init; `init` is the call on a child. The state is the
-- array, memindex and the blocks left.
def initRound (init : Mem → Option Nat → Nat → Except Halt (Nat × Mem)) (scan : Option Nat) (radix i : Nat) :
    Mem × Nat × Nat → Except Halt (Round (Mem × Nat × Nat))
  | (m,memindex,count) =>
    if count ≥ radix then do
      let (used,m) ← init m (scan.map (· + i)) radix
      .ok (.next (m,i + used,less count radix))
    else if count > 0 then do
      let (used,m) ← init m (scan.map (· + i)) count
      .ok (.next (m,i + used,0))
    else match scan with
      | none => .ok (.stop (m,memindex,count))
      | some scan => do
        let child ← fetch m (scan + i)
        let m ← store m (scan + i) {child with bmBighint := blistNone}
        .ok (.stop (m,memindex,count))

def blstRadixInit : Nat → Mem → Option Nat → Nat → Nat → Nat → Except Halt (Nat × Mem)
  | 0, _, _, _, _, _ => .error .fuel
  | depth + 1, m, scan, radix, skip, count => do
    let m ← storeAt m scan ⟨0,0⟩
    if radix = blistBmapRadix then .ok (0,m)
    else
      let radix := radix / blistMetaRadix
      let nextSkip := skip / blistMetaRadix
      let (i,m,memindex,_) ← forLoop skip nextSkip
        (initRound (fun m scan count => blstRadixInit depth m scan radix (nextSkip - 1) count) scan radix)
        (blistMetaRadix + 1) 1 (m,0,count)
      .ok (if memindex < i then i else memindex,m)

-- struct blist; bl_rootblks is the size of the array.
structure Blist where
  blBlocks : Nat
  blRadix : Nat
  blSkip : Nat
  blFree : Nat
  blRoot : Mem

def coverRadix (blocks : Nat) : Nat → Nat → Nat → Except Halt (Nat × Nat)
  | 0, _, _ => .error .fuel
  | rounds + 1, radix, skip =>
    if radix < blocks then
      coverRadix blocks rounds (word (radix * blistMetaRadix)) (word ((skip + 1) * blistMetaRadix))
    else .ok (radix,skip)

-- A radix fits in 32 bits, so no path from the root is longer.
def maxDepth : Nat := 8

-- `raw` is what malloc left in the array.
def blistCreate (raw : Nat → BlMeta) (blocks : Nat) : Except Halt Blist := do
  let (radix,skip) ← coverRadix blocks maxDepth blistBmapRadix 0
  let (used,_) ← blstRadixInit maxDepth ⟨0,raw⟩ none radix skip blocks
  let (_,m) ← blstRadixInit maxDepth ⟨1 + used,raw⟩ (some 0) radix skip blocks
  .ok ⟨blocks,radix,skip,0,m⟩

def blistAlloc (bl : Blist) (count : Nat) : Except Halt (Nat × Blist) := do
  let (blk,m) ←
    (if bl.blRadix = blistBmapRadix then blstLeafAlloc bl.blRoot 0 0 count
    else blstMetaAlloc maxDepth bl.blRoot 0 0 count bl.blRadix bl.blSkip)
  if blk ≠ blistNone then .ok (blk,{bl with blRoot := m,blFree := less bl.blFree count})
  else .ok (blk,{bl with blRoot := m})

def blistFree (bl : Blist) (blkno count : Nat) : Except Halt Blist := do
  let m ←
    (if bl.blRadix = blistBmapRadix then blstLeafFree bl.blRoot 0 blkno count
    else blstMetaFree maxDepth bl.blRoot 0 blkno count bl.blRadix bl.blSkip 0)
  .ok {bl with blRoot := m,blFree := word (bl.blFree + count)}

def blistFill (bl : Blist) (blkno count : Nat) : Except Halt (Nat × Blist) := do
  let (filled,m) ←
    (if bl.blRadix = blistBmapRadix then blstLeafFill bl.blRoot 0 blkno count
    else blstMetaFill maxDepth bl.blRoot 0 blkno count bl.blRadix bl.blSkip 0)
  .ok (filled,{bl with blRoot := m,blFree := less bl.blFree filled})

inductive Op where
  | alloc (count : Nat)
  | free (blkno count : Nat)
  | fill (blkno count : Nat)
  deriving DecidableEq, Repr

-- The value a call returns; blist_free returns none.
def step (bl : Blist) : Op → Except Halt (Nat × Blist)
  | .alloc count => blistAlloc bl count
  | .free blkno count => do
    let bl ← blistFree bl blkno count
    .ok (0,bl)
  | .fill blkno count => blistFill bl blkno count
end NetbsdAvr32.Blist
