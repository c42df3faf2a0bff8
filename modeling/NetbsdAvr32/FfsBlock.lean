import NetbsdAvr32.ByteMap
import NetbsdAvr32.BoolRuns

-- The fragments of one cylinder group: ffs_alloccg, ffs_fragextend, ffs_blkalloc and ffs_blkfree of ffs_alloc.c,
-- for file systems that do not keep the rotational tables.
namespace NetbsdAvr32.FfsBlock
open ByteMap BitVec List

-- contigsumsize is 0 where the file system has no cluster maps.
structure Fs where
  fragshift : Fin 4
  fsize : Nat
  bsize : Nat
  fpg : Nat
  size : Nat
  contigsumsize : Nat

def Fs.frag (fs : Fs) : Nat := 2 ^ fs.fragshift.val

structure Csum where
  nbfree : Int
  nffree : Int

structure Cg where
  cgx : Nat
  ndblk : Nat
  nclusterblks : Nat
  rotor : Nat
  frotor : Nat
  cs : Csum
  frsum : Nat → Int
  blksfree : Nat → Byte
  clustersfree : Nat → Byte
  clustersum : Nat → Int

-- The buffer of the group, fs_cs and fs_maxcluster of it, and fs_cstotal.
structure Group where
  cg : Cg
  cs : Csum
  cstotal : Csum
  maxcluster : Nat

variable (fs : Fs)

def numfrags (loc : Nat) : Nat := loc / fs.fsize
def fragoff (loc : Nat) : Nat := loc % fs.fsize
def fragnum (fsb : Nat) : Nat := fsb % fs.frag
def blknum (fsb : Nat) : Nat := fsb - fsb % fs.frag
def fragstoblks (frags : Nat) : Nat := frags / fs.frag
def dtog (d : Nat) : Nat := d / fs.fpg
def dtogd (d : Nat) : Nat := d % fs.fpg
def cgbase (c : Nat) : Nat := fs.fpg * c
def howmany (x y : Nat) : Nat := (x + (y - 1)) / y
def blkmap (map : Nat → Byte) (loc : Nat) : Nat := (map (loc / NBBY)).toNat >>> (loc % NBBY) &&& 0xff >>> (NBBY - fs.frag)

def around (siz : Nat) : Nat := [0x3,0x7,0xf,0x1f,0x3f,0x7f,0xff,0x1ff,0x3ff].getD siz 0
def inside (siz : Nat) : Nat := [0x0,0x2,0x6,0xe,0x1e,0x3e,0x7e,0xfe,0x1fe].getD siz 0

def fragtbl124 : List Nat := [
  0x00,0x16,0x16,0x2a,0x16,0x16,0x26,0x4e,0x16,0x16,0x16,0x3e,0x2a,0x3e,0x4e,0x8a,
  0x16,0x16,0x16,0x3e,0x16,0x16,0x36,0x5e,0x16,0x16,0x16,0x3e,0x3e,0x3e,0x5e,0x9e,
  0x16,0x16,0x16,0x3e,0x16,0x16,0x36,0x5e,0x16,0x16,0x16,0x3e,0x3e,0x3e,0x5e,0x9e,
  0x2a,0x3e,0x3e,0x2a,0x3e,0x3e,0x2e,0x6e,0x3e,0x3e,0x3e,0x3e,0x2a,0x3e,0x6e,0xaa,
  0x16,0x16,0x16,0x3e,0x16,0x16,0x36,0x5e,0x16,0x16,0x16,0x3e,0x3e,0x3e,0x5e,0x9e,
  0x16,0x16,0x16,0x3e,0x16,0x16,0x36,0x5e,0x16,0x16,0x16,0x3e,0x3e,0x3e,0x5e,0x9e,
  0x26,0x36,0x36,0x2e,0x36,0x36,0x26,0x6e,0x36,0x36,0x36,0x3e,0x2e,0x3e,0x6e,0xae,
  0x4e,0x5e,0x5e,0x6e,0x5e,0x5e,0x6e,0x4e,0x5e,0x5e,0x5e,0x7e,0x6e,0x7e,0x4e,0xce,
  0x16,0x16,0x16,0x3e,0x16,0x16,0x36,0x5e,0x16,0x16,0x16,0x3e,0x3e,0x3e,0x5e,0x9e,
  0x16,0x16,0x16,0x3e,0x16,0x16,0x36,0x5e,0x16,0x16,0x16,0x3e,0x3e,0x3e,0x5e,0x9e,
  0x16,0x16,0x16,0x3e,0x16,0x16,0x36,0x5e,0x16,0x16,0x16,0x3e,0x3e,0x3e,0x5e,0x9e,
  0x3e,0x3e,0x3e,0x3e,0x3e,0x3e,0x3e,0x7e,0x3e,0x3e,0x3e,0x3e,0x3e,0x3e,0x7e,0xbe,
  0x2a,0x3e,0x3e,0x2a,0x3e,0x3e,0x2e,0x6e,0x3e,0x3e,0x3e,0x3e,0x2a,0x3e,0x6e,0xaa,
  0x3e,0x3e,0x3e,0x3e,0x3e,0x3e,0x3e,0x7e,0x3e,0x3e,0x3e,0x3e,0x3e,0x3e,0x7e,0xbe,
  0x4e,0x5e,0x5e,0x6e,0x5e,0x5e,0x6e,0x4e,0x5e,0x5e,0x5e,0x7e,0x6e,0x7e,0x4e,0xce,
  0x8a,0x9e,0x9e,0xaa,0x9e,0x9e,0xae,0xce,0x9e,0x9e,0x9e,0xbe,0xaa,0xbe,0xce,0x8a]

def fragtbl8 : List Nat := [
  0x00,0x01,0x01,0x02,0x01,0x01,0x02,0x04,0x01,0x01,0x01,0x03,0x02,0x03,0x04,0x08,
  0x01,0x01,0x01,0x03,0x01,0x01,0x03,0x05,0x02,0x03,0x03,0x02,0x04,0x05,0x08,0x10,
  0x01,0x01,0x01,0x03,0x01,0x01,0x03,0x05,0x01,0x01,0x01,0x03,0x03,0x03,0x05,0x09,
  0x02,0x03,0x03,0x02,0x03,0x03,0x02,0x06,0x04,0x05,0x05,0x06,0x08,0x09,0x10,0x20,
  0x01,0x01,0x01,0x03,0x01,0x01,0x03,0x05,0x01,0x01,0x01,0x03,0x03,0x03,0x05,0x09,
  0x01,0x01,0x01,0x03,0x01,0x01,0x03,0x05,0x03,0x03,0x03,0x03,0x05,0x05,0x09,0x11,
  0x02,0x03,0x03,0x02,0x03,0x03,0x02,0x06,0x03,0x03,0x03,0x03,0x02,0x03,0x06,0x0a,
  0x04,0x05,0x05,0x06,0x05,0x05,0x06,0x04,0x08,0x09,0x09,0x0a,0x10,0x11,0x20,0x40,
  0x01,0x01,0x01,0x03,0x01,0x01,0x03,0x05,0x01,0x01,0x01,0x03,0x03,0x03,0x05,0x09,
  0x01,0x01,0x01,0x03,0x01,0x01,0x03,0x05,0x03,0x03,0x03,0x03,0x05,0x05,0x09,0x11,
  0x01,0x01,0x01,0x03,0x01,0x01,0x03,0x05,0x01,0x01,0x01,0x03,0x03,0x03,0x05,0x09,
  0x03,0x03,0x03,0x03,0x03,0x03,0x03,0x07,0x05,0x05,0x05,0x07,0x09,0x09,0x11,0x21,
  0x02,0x03,0x03,0x02,0x03,0x03,0x02,0x06,0x03,0x03,0x03,0x03,0x02,0x03,0x06,0x0a,
  0x03,0x03,0x03,0x03,0x03,0x03,0x03,0x07,0x02,0x03,0x03,0x02,0x06,0x07,0x0a,0x12,
  0x04,0x05,0x05,0x06,0x05,0x05,0x06,0x04,0x05,0x05,0x05,0x07,0x06,0x07,0x04,0x0c,
  0x08,0x09,0x09,0x0a,0x09,0x09,0x0a,0x0c,0x10,0x11,0x11,0x12,0x20,0x21,0x40,0x80]

def fragtbl (map : Nat) : Nat := (if fs.fragshift = 3 then fragtbl8 else fragtbl124).getD map 0

def blockByte (h : Nat) : Nat :=
  match fs.fragshift with
  | 3 => h
  | 2 => h / 2
  | 1 => h / 4
  | 0 => h / 8

def blockMask (h : Nat) : Byte :=
  match fs.fragshift with
  | 3 => 0xff
  | 2 => 0x0f#8 <<< (h % 2 * 4)
  | 1 => 0x03#8 <<< (h % 4 * 2)
  | 0 => 0x01#8 <<< (h % 8)

def isblock (cp : Nat → Byte) (h : Nat) : Bool := cp (blockByte fs h) &&& blockMask fs h == blockMask fs h
def isfreeblock (cp : Nat → Byte) (h : Nat) : Bool := cp (blockByte fs h) &&& blockMask fs h == 0
def clrblock (cp : Nat → Byte) (h : Nat) : Nat → Byte := Function.update cp (blockByte fs h) (cp (blockByte fs h) &&& ~~~blockMask fs h)
def setblock (cp : Nat → Byte) (h : Nat) : Nat → Byte := Function.update cp (blockByte fs h) (cp (blockByte fs h) ||| blockMask fs h)

def setbits (a : Nat → Byte) (start n : Nat) : Nat → Byte := (List.range n).foldl (fun a i => setbit a (start + i)) a
def clrbits (a : Nat → Byte) (start n : Nat) : Nat → Byte := (List.range n).foldl (fun a i => clrbit a (start + i)) a
def addTo (f : Nat → Int) (i : Nat) (n : Int) : Nat → Int := Function.update f i (f i + n)

def hits (frag fragmap siz : Nat) : Nat → Nat → Nat → Nat → Nat
  | 0,_,_,_ => 0
  | fuel + 1,pos,field,subfield =>
    if frag < pos then 0
    else if fragmap &&& field = subfield then hits frag fragmap siz fuel (pos + siz + 1) (field <<< siz <<< 1) (subfield <<< siz <<< 1) + 1
    else hits frag fragmap siz fuel (pos + 1) (field <<< 1) (subfield <<< 1)

def fragHits (fragmap siz : Nat) : Nat :=
  if fragtbl fs fragmap <<< 1 &&& 1 <<< (siz + fs.frag % NBBY) = 0 then 0
  else hits fs.frag (fragmap <<< 1) siz (fs.frag + 1) siz (around siz) (inside siz)

def fragacct (fragmap : Nat) (fraglist : Nat → Int) (cnt : Int) : Nat → Int := fun siz =>
  if 1 ≤ siz ∧ siz < fs.frag then fraglist siz + cnt * fragHits fs fragmap siz else fraglist siz

def scanc (size : Nat) (cp : Nat → Byte) (table : Nat → Nat) (mask : Nat) : Nat := skip (fun b => table b.toNat &&& mask == 0) size cp

-- The fragments of one block map, then the blocks of one byte, where ffs_mapsearch finds a run of allocsiz.
def siftBlock (blk allocsiz : Nat) : Option Nat :=
  (List.range (fs.frag - allocsiz + 1)).find? fun pos => blk <<< 1 &&& around allocsiz <<< pos == inside allocsiz <<< pos

def siftByte (blksfree : Nat → Byte) (bno allocsiz : Nat) : Option Nat :=
  (List.range (NBBY / fs.frag)).findSome? fun j =>
    (siftBlock fs (blkmap fs blksfree (bno + j * fs.frag)) allocsiz).map fun pos => bno + j * fs.frag + pos

-- The byte at which the scan stops, from start to the end and then from the beginning; without one the kernel panics.
def scanMap (blksfree : Nat → Byte) (start allocsiz : Nat) : Option Nat :=
  let mask := 1 <<< (allocsiz - 1 + fs.frag % NBBY)
  let len := howmany fs.fpg NBBY - start
  let loc := scanc len (fun i => blksfree (start + i)) (fragtbl fs) mask
  if loc = 0 then
    let loc := scanc (start + 1) blksfree (fragtbl fs) mask
    if loc = 0 then none else some (start + 1 - loc)
  else some (start + len - loc)

def mapsearch (cg : Cg) (bpref allocsiz : Nat) : Option (Nat × Cg) :=
  match scanMap fs cg.blksfree ((if bpref ≠ 0 then dtogd fs bpref else cg.frotor) / NBBY) allocsiz with
  | none => none
  | some byte => (siftByte fs cg.blksfree (byte * NBBY) allocsiz).map fun bno => (bno,{ cg with frotor := byte * NBBY })

-- How many blocks are free from i on, and from i back; map and bit move along the cluster map with i.
def forward (freemap : Nat → Byte) : Nat → Nat → Byte → Byte → Nat
  | 0,_,_,_ => 0
  | left + 1,i,map,bit =>
    if map &&& bit = 0 then 0
    else if i % NBBY ≠ NBBY - 1 then forward freemap left (i + 1) map (bit <<< 1) + 1
    else forward freemap left (i + 1) (freemap ((i + 1) / NBBY)) 1 + 1

def backward (freemap : Nat → Byte) : Nat → Nat → Byte → Byte → Nat
  | 0,_,_,_ => 0
  | left + 1,i,map,bit =>
    if map &&& bit = 0 then 0
    else if i % NBBY ≠ 0 then backward freemap left (i - 1) map (bit >>> 1) + 1
    else backward freemap left (i - 1) (freemap ((i - 1) / NBBY)) (1#8 <<< (NBBY - 1)) + 1

-- At most fs_contigsumsize blocks each way, and none outside the map.
def forw (freemap : Nat → Byte) (nclusterblks blkno : Nat) : Nat :=
  forward freemap (min (blkno + 1 + fs.contigsumsize) nclusterblks - (blkno + 1)) (blkno + 1)
    (freemap ((blkno + 1) / NBBY)) (1#8 <<< ((blkno + 1) % NBBY))

def back (freemap : Nat → Byte) (blkno : Nat) : Nat :=
  backward freemap (min fs.contigsumsize blkno) (blkno - 1) (freemap ((blkno - 1) / NBBY)) (1#8 <<< ((blkno - 1) % NBBY))

def moveSum (sump : Nat → Int) (back forw : Nat) (cnt : Int) : Nat → Int :=
  let sump := addTo sump (min (back + forw + 1) fs.contigsumsize) cnt
  let sump := if 0 < back then addTo sump back (-cnt) else sump
  if 0 < forw then addTo sump forw (-cnt) else sump

def clusteracct (g : Group) (blkno : Nat) (cnt : Int) : Group :=
  if fs.contigsumsize = 0 then g
  else
    let freemap := if 0 < cnt then setbit g.cg.clustersfree blkno else clrbit g.cg.clustersfree blkno
    let sump := moveSum fs g.cg.clustersum (back fs freemap blkno) (forw fs freemap g.cg.nclusterblks blkno) cnt
    { g with
      cg := { g.cg with clustersfree := freemap, clustersum := sump }
      maxcluster := Nat.findGreatest (fun i => 0 < sump i) fs.contigsumsize }

def Csum.add (cs : Csum) (nbfree nffree : Int) : Csum := ⟨cs.nbfree + nbfree,cs.nffree + nffree⟩

def Group.count (g : Group) (nbfree nffree : Int) : Group :=
  { g with
    cg := { g.cg with cs := g.cg.cs.add nbfree nffree }
    cs := g.cs.add nbfree nffree
    cstotal := g.cstotal.add nbfree nffree }

def Group.map (g : Group) (blksfree : Nat → Byte) : Group := { g with cg := { g.cg with blksfree := blksfree } }
def Group.sums (g : Group) (frsum : Nat → Int) : Group := { g with cg := { g.cg with frsum := frsum } }

def takeBlock (g : Group) (bno : Nat) : Nat × Group :=
  (g.cg.cgx * fs.fpg + bno,(clusteracct fs (g.map (clrblock fs g.cg.blksfree (fragstoblks fs bno))) (fragstoblks fs bno) (-1)).count (-1) 0)

def searchBlock (g : Group) (bpref : Nat) : Option (Nat × Group) :=
  (mapsearch fs g.cg bpref fs.frag).map fun (bno,cg) => takeBlock fs { g with cg := { cg with rotor := bno } } bno

-- none: the kernel panics. contig: (flags & (B_CONTIG | B_METAONLY)) == B_CONTIG
def alloccgblk (g : Group) (bpref : Nat) (contig : Bool) : Option (Nat × Group) :=
  if bpref = 0 ∨ dtog fs bpref ≠ g.cg.cgx then searchBlock fs g g.cg.rotor
  else if isblock fs g.cg.blksfree (fragstoblks fs (dtogd fs (blknum fs bpref))) then some (takeBlock fs g (dtogd fs (blknum fs bpref)))
  else if contig then some (0,g)
  else searchBlock fs g (blknum fs bpref)

-- A new block of which the first frags fragments are taken.
def hackBlock (frags : Nat) (r : Nat × Group) : Nat × Group :=
  (r.1,((r.2.map (setbits r.2.cg.blksfree (dtogd fs r.1 + frags) (fs.frag - frags))).count 0 (fs.frag - frags : Nat)).sums
    (addTo r.2.cg.frsum (fs.frag - frags) 1))

def takeFrags (g : Group) (bno frags allocsiz : Nat) : Nat × Group :=
  let frsum := addTo g.cg.frsum allocsiz (-1)
  (cgbase fs g.cg.cgx + bno,((g.map (clrbits g.cg.blksfree bno frags)).count 0 (-frags)).sums
    (if frags ≠ allocsiz then addTo frsum (allocsiz - frags) 1 else frsum))

def alloccg (g : Group) (bpref size : Nat) (contig : Bool) : Option (Nat × Group) :=
  if g.cs.nbfree = 0 ∧ size = fs.bsize then some (0,g)
  else if g.cg.cs.nbfree = 0 ∧ size = fs.bsize then some (0,g)
  else if size = fs.bsize then alloccgblk fs g bpref contig
  else
    match (List.range' (numfrags fs size) (fs.frag - numfrags fs size)).find? fun allocsiz => g.cg.frsum allocsiz ≠ 0 with
    | none =>
      if g.cg.cs.nbfree = 0 then some (0,g)
      else (alloccgblk fs g bpref contig).map (hackBlock fs (numfrags fs size))
    | some allocsiz =>
      (mapsearch fs g.cg bpref allocsiz).map fun (bno,cg) => takeFrags fs { g with cg := cg } bno (numfrags fs size) allocsiz

-- The fragments from frags on that are free, up to the end of the block.
def freeEnd (g : Group) (bno frags bbase : Nat) : Nat :=
  ((List.range' frags (fs.frag - bbase - frags)).find? fun i => isclr g.cg.blksfree (bno + i)).getD (max frags (fs.frag - bbase))

def extendFrags (g : Group) (bno old frags i : Nat) : Group :=
  let frsum := addTo g.cg.frsum (i - old) (-1)
  ((g.map (clrbits g.cg.blksfree (bno + old) (frags - old))).count 0 (-(frags - old : Nat))).sums
    (if i ≠ frags then addTo frsum (i - frags) 1 else frsum)

def fragextend (g : Group) (bprev osize nsize : Nat) : Nat × Group :=
  if g.cs.nffree < numfrags fs (nsize - osize) then (0,g)
  else if fragnum fs (bprev + numfrags fs nsize - 1) < fragnum fs bprev then (0,g)
  else if (List.range' (numfrags fs osize) (numfrags fs nsize - numfrags fs osize)).any fun i => isclr g.cg.blksfree (dtogd fs bprev + i) then (0,g)
  else
    let i := freeEnd fs g (dtogd fs bprev) (numfrags fs nsize) (fragnum fs bprev)
    (bprev,extendFrags g (dtogd fs bprev) (numfrags fs osize) (numfrags fs nsize) i)

inductive Errno where
  | EINVAL
  | EBUSY
deriving DecidableEq

-- frags fragments of a block change: their sums are taken out before and put in after.
def changeFrags (g : Group) (cgbno : Nat) (blksfree : Nat → Byte) (nffree : Int) : Group :=
  let bbase := cgbno - fragnum fs cgbno
  let frsum := fragacct fs (blkmap fs g.cg.blksfree bbase) g.cg.frsum (-1)
  ((g.map blksfree).count 0 nffree).sums (fragacct fs (blkmap fs blksfree bbase) frsum 1)

-- A complete block is split, or put together again.
def splitBlock (g : Group) (fragno : Nat) : Group := (clusteracct fs (g.count 0 fs.frag) fragno (-1)).count (-1) 0
def joinBlock (g : Group) (fragno : Nat) : Group := (clusteracct fs (g.count 0 (-fs.frag)) fragno 1).count 1 0
def badSize (bno size : Nat) : Bool := fs.bsize < size || fragoff fs size ≠ 0 || fs.frag < fragnum fs bno + numfrags fs size

def blkalloc (g : Group) (bno size : Nat) : Option (Except Errno Group) :=
  if badSize fs bno size then none
  else if fs.size ≤ bno then some (.error .EINVAL)
  else if size = fs.bsize then
    if isblock fs g.cg.blksfree (fragstoblks fs (dtogd fs bno)) then some (.ok (takeBlock fs g (dtogd fs bno)).2) else some (.error .EBUSY)
  else if (List.range (numfrags fs size)).any fun i => isclr g.cg.blksfree (dtogd fs bno + i) then some (.error .EBUSY)
  else
    let fragno := fragstoblks fs (dtogd fs bno - fragnum fs (dtogd fs bno))
    let g := if isblock fs g.cg.blksfree fragno then splitBlock fs g fragno else g
    some (.ok (changeFrags fs g (dtogd fs bno) (clrbits g.cg.blksfree (dtogd fs bno) (numfrags fs size)) (-(numfrags fs size))))

-- claimed: ffs_snapblkfree takes the block for a snapshot.
def blkfree (g : Group) (bno size : Nat) (claimed : Bool) : Option Group :=
  if claimed then some g
  else if badSize fs bno size then none
  else if fs.size ≤ bno then some g
  else if size = fs.bsize then
    let fragno := fragstoblks fs (dtogd fs bno)
    if isfreeblock fs g.cg.blksfree fragno then some ((clusteracct fs (g.map (setblock fs g.cg.blksfree fragno)) fragno 1).count 1 0) else none
  else if (List.range (numfrags fs size)).any fun i => isset g.cg.blksfree (dtogd fs bno + i) then none
  else
    let fragno := fragstoblks fs (dtogd fs bno - fragnum fs (dtogd fs bno))
    let g := changeFrags fs g (dtogd fs bno) (setbits g.cg.blksfree (dtogd fs bno) (numfrags fs size)) (numfrags fs size)
    some (if isblock fs g.cg.blksfree fragno then joinBlock fs g fragno else g)

open ByteMap RingBuffer BoolRuns
variable {fs : Fs} {a : Nat → Byte} {h i j k n x siz start : Nat}

def bits (fs : Fs) (a : Nat → Byte) (h : Nat) : List Bool := slice (isset a) (h * fs.frag) fs.frag
def bitsOf (n x : Nat) : List Bool := (List.range n).map x.testBit
def InBlock (fs : Fs) (h j : Nat) : Prop := h * fs.frag ≤ j ∧ j < h * fs.frag + fs.frag
instance (fs : Fs) (h j : Nat) : Decidable (InBlock fs h j) := inferInstanceAs (Decidable (_ ∧ _))
theorem frag_pos (fs : Fs) : 0 < fs.frag := Nat.two_pow_pos _

theorem frag_cases (fs : Fs) : fs.fragshift = 0 ∧ fs.frag = 1 ∨ fs.fragshift = 1 ∧ fs.frag = 2 ∨ fs.fragshift = 2 ∧ fs.frag = 4 ∨ fs.fragshift = 3 ∧ fs.frag = 8 := by
  cases fs with
  | mk s _ _ _ _ _ =>
    match s with
    | 0 => exact .inl ⟨rfl,rfl⟩
    | 1 => exact .inr (.inl ⟨rfl,rfl⟩)
    | 2 => exact .inr (.inr (.inl ⟨rfl,rfl⟩))
    | 3 => exact .inr (.inr (.inr ⟨rfl,rfl⟩))

theorem inBlock_byte (here : InBlock fs h j) : j / NBBY = blockByte fs h := by
  obtain ⟨low,high⟩ := here
  unfold blockByte NBBY
  rcases frag_cases fs with ⟨shift,frag⟩ | ⟨shift,frag⟩ | ⟨shift,frag⟩ | ⟨shift,frag⟩
  all_goals
    rw [shift]
    rw [frag] at low high
    dsimp only
    omega

theorem mask_bit : (∀ r < 2,∀ k < 8,(0x0f#8 <<< (r * 4)).getLsbD k = decide (r * 4 ≤ k ∧ k < r * 4 + 4)) ∧
    (∀ r < 4,∀ k < 8,(0x03#8 <<< (r * 2)).getLsbD k = decide (r * 2 ≤ k ∧ k < r * 2 + 2)) ∧
    (∀ r < 8,∀ k < 8,(0x01#8 <<< r).getLsbD k = decide (r ≤ k ∧ k < r + 1)) ∧ ∀ k < 8,(0xff#8).getLsbD k = true := by
  decide

theorem blockMask_bit (fs : Fs) (h : Nat) (low : k < NBBY) :
    (blockMask fs h).getLsbD k = decide (InBlock fs h (blockByte fs h * NBBY + k)) := by
  unfold NBBY at low
  obtain ⟨four,two,single,eight⟩ := mask_bit
  rcases frag_cases fs with ⟨shift,frag⟩ | ⟨shift,frag⟩ | ⟨shift,frag⟩ | ⟨shift,frag⟩
  · rw [show blockMask fs h = 0x01#8 <<< (h % 8) by unfold blockMask; rw [shift],show blockByte fs h = h / 8 by unfold blockByte; rw [shift]]
    refine (single (h % 8) (Nat.mod_lt _ (by decide)) k low).trans (decide_eq_decide.mpr ?_)
    unfold InBlock NBBY
    rw [frag]
    omega
  · rw [show blockMask fs h = 0x03#8 <<< (h % 4 * 2) by unfold blockMask; rw [shift],show blockByte fs h = h / 4 by unfold blockByte; rw [shift]]
    refine (two (h % 4) (Nat.mod_lt _ (by decide)) k low).trans (decide_eq_decide.mpr ?_)
    unfold InBlock NBBY
    rw [frag]
    omega
  · rw [show blockMask fs h = 0x0f#8 <<< (h % 2 * 4) by unfold blockMask; rw [shift],show blockByte fs h = h / 2 by unfold blockByte; rw [shift]]
    refine (four (h % 2) (Nat.mod_lt _ (by decide)) k low).trans (decide_eq_decide.mpr ?_)
    unfold InBlock NBBY
    rw [frag]
    omega
  rw [show blockMask fs h = 0xff by unfold blockMask; rw [shift],show blockByte fs h = h by unfold blockByte; rw [shift]]
  refine (eight k low).trans (Eq.symm (decide_eq_true ?_))
  unfold InBlock NBBY
  rw [frag]
  omega

theorem inBlock_at (fs : Fs) (h : Nat) (low : i < fs.frag) : InBlock fs h (h * fs.frag + i) := ⟨Nat.le_add_right ..,Nat.add_lt_add_left low _⟩

theorem isset_block (a : Nat → Byte) (here : InBlock fs h j) : isset a j = (a (blockByte fs h)).getLsbD (j % NBBY) := by
  rw [isset_eq,inBlock_byte here]

theorem mask_of_inBlock (here : InBlock fs h j) : (blockMask fs h).getLsbD (j % NBBY) = true := by
  rw [blockMask_bit fs h (Nat.mod_lt _ (by decide)),← inBlock_byte here,Nat.mul_comm,Nat.div_add_mod,decide_eq_true_iff]
  exact here

theorem isblock_iff : isblock fs a h = true ↔ ∀ i < fs.frag,isset a (h * fs.frag + i) = true := by
  unfold isblock
  rw [beq_iff_eq]
  constructor
  · intro same i low
    have here := inBlock_at fs h low
    have bit := congrArg (fun x : Byte => x.getLsbD ((h * fs.frag + i) % NBBY)) same
    rw [getLsbD_and,mask_of_inBlock here,Bool.and_true] at bit
    rw [isset_block a here]
    exact bit
  intro set
  apply eq_of_getLsbD_eq
  intro k (low : k < NBBY)
  rw [getLsbD_and]
  cases mask : (blockMask fs h).getLsbD k with
  | false => rw [Bool.and_false]
  | true =>
    rw [blockMask_bit fs h low,decide_eq_true_iff] at mask
    have index : (blockByte fs h * NBBY + k) % NBBY = k := by
      rw [Nat.mul_comm,Nat.mul_add_mod,Nat.mod_eq_of_lt low]
    have here := set (blockByte fs h * NBBY + k - h * fs.frag) (by have low := mask.1; have high := mask.2; omega)
    rw [Nat.add_sub_cancel' mask.1,isset_block a mask,index] at here
    rw [here,Bool.and_true]

theorem isfreeblock_iff : isfreeblock fs a h = true ↔ ∀ i < fs.frag,isset a (h * fs.frag + i) = false := by
  unfold isfreeblock
  rw [beq_iff_eq]
  constructor
  · intro same i low
    have here := inBlock_at fs h low
    have bit := congrArg (fun x : Byte => x.getLsbD ((h * fs.frag + i) % NBBY)) same
    rw [getLsbD_and,mask_of_inBlock here,Bool.and_true] at bit
    rw [isset_block a here,bit]
    exact getLsbD_zero
  intro clear
  apply eq_of_getLsbD_eq
  intro k (low : k < NBBY)
  rw [getLsbD_and]
  cases mask : (blockMask fs h).getLsbD k with
  | false => rw [Bool.and_false]; exact getLsbD_zero.symm
  | true =>
    rw [blockMask_bit fs h low,decide_eq_true_iff] at mask
    have index : (blockByte fs h * NBBY + k) % NBBY = k := by
      rw [Nat.mul_comm,Nat.mul_add_mod,Nat.mod_eq_of_lt low]
    have here := clear (blockByte fs h * NBBY + k - h * fs.frag) (by have low := mask.1; have high := mask.2; omega)
    rw [Nat.add_sub_cancel' mask.1,isset_block a mask,index] at here
    rw [here,Bool.false_and]
    exact getLsbD_zero.symm

theorem isset_clrblock (fs : Fs) (a : Nat → Byte) (h j : Nat) : isset (clrblock fs a h) j = (isset a j && !decide (InBlock fs h j)) := by
  have low : j % NBBY < NBBY := Nat.mod_lt _ (by decide)
  unfold clrblock
  rw [isset_eq,isset_eq]
  by_cases byte : j / NBBY = blockByte fs h
  · rw [byte,Function.update_self,getLsbD_and,getLsbD_not,blockMask_bit fs h low,← byte,Nat.mul_comm,Nat.div_add_mod]
    rw [show decide (j % NBBY < 8) = true from decide_eq_true low,Bool.true_and]
  rw [Function.update_of_ne byte,show decide (InBlock fs h j) = false from decide_eq_false fun here => byte (inBlock_byte here)]
  exact (Bool.and_true _).symm

theorem isset_setblock (fs : Fs) (a : Nat → Byte) (h j : Nat) : isset (setblock fs a h) j = (isset a j || decide (InBlock fs h j)) := by
  have low : j % NBBY < NBBY := Nat.mod_lt _ (by decide)
  unfold setblock
  rw [isset_eq,isset_eq]
  by_cases byte : j / NBBY = blockByte fs h
  · rw [byte,Function.update_self,getLsbD_or,blockMask_bit fs h low,← byte,Nat.mul_comm,Nat.div_add_mod]
  rw [Function.update_of_ne byte,show decide (InBlock fs h j) = false from decide_eq_false fun here => byte (inBlock_byte here)]
  exact (Bool.or_false _).symm

theorem isset_setbits (a : Nat → Byte) (start n j : Nat) : isset (setbits a start n) j = (isset a j || decide (start ≤ j ∧ j < start + n)) := by
  unfold setbits
  induction n with
  | zero =>
    rw [show decide (start ≤ j ∧ j < start + 0) = false from decide_eq_false (by omega)]
    exact (Bool.or_false _).symm
  | succ n ih =>
    rw [range_succ,foldl_append,foldl_cons,foldl_nil,isset_setbit,ih,Bool.or_assoc,← Bool.decide_or]
    congr 2
    apply propext
    omega

theorem isset_clrbits (a : Nat → Byte) (start n j : Nat) : isset (clrbits a start n) j = (isset a j && !decide (start ≤ j ∧ j < start + n)) := by
  unfold clrbits
  induction n with
  | zero =>
    rw [show decide (start ≤ j ∧ j < start + 0) = false from decide_eq_false (by omega)]
    exact (Bool.and_true _).symm
  | succ n ih =>
    rw [range_succ,foldl_append,foldl_cons,foldl_nil,isset_clrbit,ih,Bool.and_assoc,← decide_not,← Bool.decide_and,← decide_not]
    congr 2
    apply propext
    omega

theorem blkmap_testBit (fs : Fs) (a : Nat → Byte) (h i : Nat) :
    (blkmap fs a (h * fs.frag)).testBit i = (decide (i < fs.frag) && isset a (h * fs.frag + i)) := by
  have mask : (0xff >>> (NBBY - fs.frag) : Nat) = 2 ^ fs.frag - 1 := by
    rcases frag_cases fs with ⟨-,frag⟩ | ⟨-,frag⟩ | ⟨-,frag⟩ | ⟨-,frag⟩ <;> rw [frag] <;> rfl
  unfold blkmap
  rw [Nat.testBit_and,Nat.testBit_shiftRight,mask,Nat.testBit_two_pow_sub_one,Bool.and_comm]
  by_cases low : i < fs.frag
  · have same : (h * fs.frag + i) / NBBY = h * fs.frag / NBBY ∧ (h * fs.frag + i) % NBBY = h * fs.frag % NBBY + i := by
      unfold NBBY
      rcases frag_cases fs with ⟨-,frag⟩ | ⟨-,frag⟩ | ⟨-,frag⟩ | ⟨-,frag⟩ <;> rw [frag] at low ⊢ <;> omega
    rw [isset_eq,same.1,same.2]
    rfl
  · rw [decide_eq_false low,Bool.false_and,Bool.false_and]

theorem blkmap_lt (fs : Fs) (a : Nat → Byte) (h : Nat) : blkmap fs a (h * fs.frag) < 2 ^ fs.frag := by
  refine Nat.lt_pow_two_of_testBit _ fun i high => ?_
  rw [blkmap_testBit,decide_eq_false (Nat.not_lt_of_le high),Bool.false_and]

theorem blkmap_bits (fs : Fs) (a : Nat → Byte) (h : Nat) : bitsOf fs.frag (blkmap fs a (h * fs.frag)) = bits fs a h := by
  refine map_congr_left fun i mem => ?_
  rw [blkmap_testBit,decide_eq_true (mem_range.mp mem),Bool.true_and]
end NetbsdAvr32.FfsBlock
