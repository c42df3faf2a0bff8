import NetbsdAvr32.ByteMap

-- The inodes of one cylinder group: ffs_nodealloccg and ffs_freefile of ffs_alloc.c, a step for each stretch with the group's buffer.
namespace NetbsdAvr32.FfsInode
open ByteMap Nat Finset

-- ufs2: fs_magic is FS_UFS2_MAGIC. inopb: INOPB.
structure Fs where
  ufs2 : Bool
  ronly : Bool
  ncg : Nat
  ipg : Nat
  inopb : Nat

structure Csum where
  ndir : Nat
  nifree : Nat

structure Cg where
  cgx : Nat
  cs : Csum
  irotor : Nat
  niblk : Nat
  initediblk : Nat
  inosused : Nat → Byte

-- The buffer of the group, fs_cs of it, fs_cstotal, and which of its inode blocks have been initialised on disk.
structure Group where
  cg : Cg
  cs : Csum
  cstotal : Csum
  inited : Nat → Bool

variable (fs : Fs) (g : Group)

def howmany (x y : Nat) : Nat := (x + (y - 1)) / y
def inodeBlock (x : Nat) : Nat := x % fs.ipg / fs.inopb
def skpc (mask : Byte) (size : Nat) (cp : Nat → Byte) : Nat := skip (· == mask) size cp

-- The first clear bit of the byte at i; without one the kernel panics.
def siftByte (inosused : Nat → Byte) (i : Nat) : Option Nat :=
  ((List.range NBBY).find? fun k => inosused i &&& 1#8 <<< k = 0).map fun k => i * NBBY + k

-- From the byte of the rotor to the end, then from the beginning.
def nextInode (cg : Cg) : Option Nat :=
  let start := cg.irotor / NBBY
  let len := howmany (fs.ipg - cg.irotor) NBBY
  let loc := skpc 0xff len fun i => cg.inosused (start + i)
  if loc = 0 then
    let loc := skpc 0xff (start + 1) cg.inosused
    if loc = 0 then none else siftByte cg.inosused (start + 1 - loc)
  else siftByte cg.inosused (start + len - loc)

def Csum.alloc (cs : Csum) (dir : Bool) : Csum := ⟨if dir then cs.ndir + 1 else cs.ndir,cs.nifree - 1⟩
def Csum.free (cs : Csum) (dir : Bool) : Csum := ⟨if dir then cs.ndir - 1 else cs.ndir,cs.nifree + 1⟩

-- A fetched inode block is zeroed and becomes the last initialised one.
def extend (fetched : Bool) : Group :=
  if fetched then
    { g with
      cg := { g.cg with initediblk := g.cg.initediblk + fs.inopb }
      inited := Function.update g.inited (inodeBlock fs (g.cg.cgx * fs.ipg + g.cg.initediblk)) true }
  else g

-- gotit. dir: (mode & IFMT) == IFDIR
def take (i : Nat) (dir : Bool) : Group :=
  { g with
    cg := { g.cg with inosused := setbit g.cg.inosused i, cs := g.cg.cs.alloc dir }
    cs := g.cs.alloc dir
    cstotal := g.cstotal.alloc dir }

inductive Attempt where
  | fail
  | getblk (initediblk : Nat)
  | got (i : Nat) (g : Group)
  | panic

-- The buffer of an inode block is dropped when another thread has moved on.
def keptBlock (cg : Cg) (ibp : Option Nat) : Bool := ibp == some cg.initediblk

-- From retry until the buffer of the group is released. ibp: the local initediblk of a fetched inode block.
def attempt (ipref : Nat) (dir : Bool) (ibp : Option Nat) : Attempt :=
  if g.cg.cs.nifree = 0 then .fail
  else if fs.ufs2 = true ∧ keptBlock g.cg ibp = false ∧ g.cg.initediblk < fs.ipg - g.cg.cs.nifree + fs.inopb ∧ g.cg.initediblk < g.cg.niblk then
    .getblk g.cg.initediblk
  else if ipref ≠ 0 ∧ isclr g.cg.inosused (ipref % fs.ipg) then
    .got (ipref % fs.ipg) (take (extend fs g (keptBlock g.cg ibp)) (ipref % fs.ipg) dir)
  else
    match nextInode fs g.cg with
    | none => .panic
    | some i => .got i (take (extend fs { g with cg := { g.cg with irotor := i } } (keptBlock g.cg ibp)) i dir)

-- none: the kernel panics.
def freefile (ino : Nat) (dir : Bool) : Option Group :=
  if fs.ipg * fs.ncg ≤ ino then none
  else if isclr g.cg.inosused (ino % fs.ipg) ∧ fs.ronly = false then none
  else some
    { g with
      cg := { g.cg with
        inosused := clrbit g.cg.inosused (ino % fs.ipg)
        irotor := if ino % fs.ipg < g.cg.irotor then ino % fs.ipg else g.cg.irotor
        cs := g.cg.cs.free dir }
      cs := g.cs.free dir
      cstotal := g.cstotal.free dir }

inductive Pc where
  | idle
  | reading (ipref : Nat) (dir : Bool) (ibp : Option Nat)
  | panicked

structure Sys (T : Type) where
  group : Group
  pc : T → Pc

inductive Label where
  | quiet
  | alloc (ino : Nat)
  | free (ino : Nat)

variable {T : Type} [DecidableEq T]

def Sys.goto (s : Sys T) (t : T) (p : Pc) : Sys T := { s with pc := Function.update s.pc t p }
def InUse (ino : Nat) : Prop := ino / fs.ipg = g.cg.cgx ∧ isset g.cg.inosused (ino % fs.ipg) = true
def Preferred (ipref : Nat) : Prop := fs.ipg ∣ ipref ∨ InUse fs g ipref

inductive Step (s : Sys T) (t : T) : Label → Sys T → Prop where
  | call (ipref : Nat) (dir : Bool) : s.pc t = .idle → Preferred fs s.group ipref → s.group.cs.nifree ≠ 0 →
      Step s t .quiet (s.goto t (.reading ipref dir none))
  -- bread or ffs_getblk fails
  | error {ipref : Nat} {dir : Bool} {ibp : Option Nat} : s.pc t = .reading ipref dir ibp → Step s t .quiet (s.goto t .idle)
  | fail {ipref : Nat} {dir : Bool} {ibp : Option Nat} : s.pc t = .reading ipref dir ibp → attempt fs s.group ipref dir ibp = .fail →
      Step s t .quiet (s.goto t .idle)
  | getblk {ipref : Nat} {dir : Bool} {ibp : Option Nat} {b : Nat} : s.pc t = .reading ipref dir ibp →
      attempt fs s.group ipref dir ibp = .getblk b → Step s t .quiet (s.goto t (.reading ipref dir (some b)))
  | got {ipref : Nat} {dir : Bool} {ibp : Option Nat} {i : Nat} {g : Group} : s.pc t = .reading ipref dir ibp →
      attempt fs s.group ipref dir ibp = .got i g → Step s t (.alloc (g.cg.cgx * fs.ipg + i)) ({ s with group := g }.goto t .idle)
  | panic {ipref : Nat} {dir : Bool} {ibp : Option Nat} : s.pc t = .reading ipref dir ibp → attempt fs s.group ipref dir ibp = .panic →
      Step s t .quiet (s.goto t .panicked)
  | free {ino : Nat} (dir : Bool) {g : Group} : s.pc t = .idle → InUse fs s.group ino → freefile fs s.group ino dir = some g →
      Step s t (.free ino) { s with group := g }
  | freePanic {ino : Nat} (dir : Bool) : s.pc t = .idle → InUse fs s.group ino → freefile fs s.group ino dir = none →
      Step s t .quiet (s.goto t .panicked)

inductive Runs (s : Sys T) : Sys T → Prop where
  | refl : Runs s s
  | step {s' s'' : Sys T} {t : T} {l : Label} : Runs s s' → Step fs s' t l s'' → Runs s s''

open ByteMap
variable {T : Type} [DecidableEq T] {fs : Fs} {g g' : Group} {s s' : Sys T} {t : T} {l : Label} {i m ipref : Nat} {dir : Bool} {ibp : Option Nat}

structure Ufs2 (fs : Fs) : Prop where
  ufs2 : fs.ufs2 = true
  some_ : 0 < fs.ipg
  pos : 0 < fs.inopb
  blocks : fs.inopb ∣ fs.ipg
  bytes : NBBY ∣ fs.ipg

structure Empty (fs : Fs) (g : Group) : Prop where
  clear : ∀ i < fs.ipg,isset g.cg.inosused i = false
  nifree : g.cg.cs.nifree = fs.ipg
  same : g.cs.nifree = fs.ipg
  rotor : g.cg.irotor = 0
  niblk : g.cg.niblk = fs.ipg
  aligned : fs.inopb ∣ g.cg.initediblk
  within : g.cg.initediblk ≤ fs.ipg
  inited : ∀ b < g.cg.initediblk / fs.inopb,g.inited b = true
  group : g.cg.cgx < fs.ncg

structure Kept (fs : Fs) (g : Group) : Prop where
  count : g.cg.cs.nifree = (free g.cg.inosused fs.ipg).card
  same : g.cs.nifree = g.cg.cs.nifree
  below : ∀ i < fs.ipg,isset g.cg.inosused i = true → i < g.cg.initediblk
  rotor : ∀ i < fs.ipg,isset g.cg.inosused i = false → g.cg.irotor ≤ i
  niblk : g.cg.niblk = fs.ipg
  aligned : fs.inopb ∣ g.cg.initediblk
  within : g.cg.initediblk ≤ fs.ipg
  inited : ∀ b < g.cg.initediblk / fs.inopb,g.inited b = true
  group : g.cg.cgx < fs.ncg

def Pending (fs : Fs) (g : Group) : Pc → Prop
  | .idle => True
  | .reading ipref _ ibp => (ipref % fs.ipg = 0 ∨ ipref % fs.ipg < g.cg.initediblk) ∧ ∀ b,ibp = some b → b < fs.ipg
  | .panicked => False

structure Inv (fs : Fs) (s : Sys T) : Prop where
  kept : Kept fs s.group
  pending : ∀ t,Pending fs s.group (s.pc t)

theorem siftByte_eq {a : Nat → Byte} {q : Nat} (byte : m / NBBY = q) (clear : isset a m = false) (lowest : ∀ i < m,isset a i = true) :
    siftByte a q = some m := by
  have rest : m % NBBY < NBBY := mod_lt _ (by decide)
  have place : q * NBBY + m % NBBY = m := by
    rw [← byte,mul_comm]
    exact div_add_mod m NBBY
  have found : (List.range NBBY).find? (fun k => a q &&& 1#8 <<< k = 0) = some (m % NBBY) := by
    rw [List.find?_range_eq_some]
    refine ⟨?_,List.mem_range.mpr rest,fun j low => ?_⟩
    · rw [decide_eq_true_iff,byte_and a q rest,place]
      exact clear
    rw [Bool.not_eq_true',decide_eq_false_iff_not,byte_and a q (lt_trans low rest),lowest _ (by omega)]
    exact Bool.true_eq_false.mp
  rw [siftByte,found,Option.map_some,place]

theorem howmany_bytes {n r : Nat} (bytes : NBBY ∣ n) : howmany (n - r) NBBY = n / NBBY - r / NBBY := by
  obtain ⟨k,rfl⟩ := bytes
  unfold howmany NBBY
  omega

theorem nextInode_eq (shape : Ufs2 fs) (kept : Kept fs g) (low : m < fs.ipg) (clear : isset g.cg.inosused m = false)
    (lowest : ∀ i < m,isset g.cg.inosused i = true) : nextInode fs g.cg = some m := by
  have rotor := kept.rotor m low clear
  have start : g.cg.irotor / NBBY ≤ m / NBBY := Nat.div_le_div_right rotor
  obtain ⟨k,whole⟩ := shape.bytes
  have inside : m / NBBY < fs.ipg / NBBY := by
    unfold NBBY at *
    omega
  have stop : (g.cg.inosused (m / NBBY) == 0xff) = false := by
    rw [beq_eq_false_iff_ne]
    intro full
    have set := (byte_full g.cg.inosused (m / NBBY)).mp full (m % NBBY) (mod_lt _ (by decide))
    rw [mul_comm,div_add_mod,clear] at set
    cases set
  have before : ∀ q < m / NBBY,(g.cg.inosused q == 0xff) = true := by
    intro q earlier
    rw [beq_iff_eq,byte_full]
    intro k small
    refine lowest _ ?_
    unfold NBBY at *
    omega
  have len : howmany (fs.ipg - g.cg.irotor) NBBY = fs.ipg / NBBY - g.cg.irotor / NBBY := howmany_bytes shape.bytes
  have loc : skpc 0xff (howmany (fs.ipg - g.cg.irotor) NBBY) (fun i => g.cg.inosused (g.cg.irotor / NBBY + i)) =
      howmany (fs.ipg - g.cg.irotor) NBBY - (m / NBBY - g.cg.irotor / NBBY) := by
    refine skip_eq (i := m / NBBY - g.cg.irotor / NBBY) (by rw [len]; omega) (fun j low => before _ (by omega)) ?_
    rw [Nat.add_sub_cancel' start]
    exact stop
  unfold nextInode
  rw [if_neg (by rw [loc,len]; omega),loc,len]
  have back : ∀ q r n : Nat,r ≤ q → q < n → q = r + (n - r) - (n - r - (q - r)) := by omega
  exact siftByte_eq (back _ _ _ start inside) clear lowest

theorem Kept.lowest (kept : Kept fs g) (some_ : g.cg.cs.nifree ≠ 0) :
    ∃ m < fs.ipg,isset g.cg.inosused m = false ∧ ∀ i < m,isset g.cg.inosused i = true := by
  have exists_ : ∃ m,m < fs.ipg ∧ isset g.cg.inosused m = false := by
    have nonempty : (free g.cg.inosused fs.ipg).Nonempty := by
      rw [← card_pos,← kept.count]
      omega
    obtain ⟨m,mem⟩ := nonempty
    exact ⟨m,mem_free.mp mem⟩
  obtain ⟨low,clear⟩ := Nat.find_spec exists_
  refine ⟨Nat.find exists_,low,clear,fun i below => ?_⟩
  rw [← Bool.not_eq_false]
  exact fun clear => Nat.find_min exists_ below ⟨by omega,clear⟩

theorem Kept.used (kept : Kept fs g) : fs.ipg - g.cg.cs.nifree ≤ g.cg.initediblk := by
  rw [kept.count]
  exact used_below kept.below

theorem Kept.extended (shape : Ufs2 fs) (kept : Kept fs g) (fetched : Bool) (more : fetched = true → g.cg.initediblk < fs.ipg) :
    Kept fs (extend fs g fetched) := by
  cases fetched with
  | false => exact kept
  | true =>
    have room := more rfl
    have whole : (g.cg.initediblk + fs.inopb) / fs.inopb = g.cg.initediblk / fs.inopb + 1 := add_div_right _ shape.pos
    have block : inodeBlock fs (g.cg.cgx * fs.ipg + g.cg.initediblk) = g.cg.initediblk / fs.inopb := by
      unfold inodeBlock
      rw [mul_comm,mul_add_mod,mod_eq_of_lt room]
    refine ⟨kept.count,kept.same,fun i low set => ?_,kept.rotor,kept.niblk,?_,?_,fun b low => ?_,kept.group⟩
    · exact Nat.lt_add_right _ (kept.below i low set)
    · exact Nat.dvd_add kept.aligned (Nat.dvd_refl _)
    · obtain ⟨j,aligned⟩ := kept.aligned
      obtain ⟨k,whole⟩ := shape.blocks
      show g.cg.initediblk + fs.inopb ≤ fs.ipg
      rw [aligned,whole] at room
      have := Nat.lt_of_mul_lt_mul_left room
      rw [aligned,whole,← mul_succ]
      exact mul_le_mul_left _ this
    show Function.update g.inited _ true b = true
    rw [block]
    by_cases here : b = g.cg.initediblk / fs.inopb
    · rw [here,Function.update_self]
    rw [Function.update_of_ne here]
    have low : b < (g.cg.initediblk + fs.inopb) / fs.inopb := low
    exact kept.inited b (by omega)

theorem Kept.taken (kept : Kept fs g) (low : i < fs.ipg) (clear : isset g.cg.inosused i = false) (below : i < g.cg.initediblk) (dir : Bool) :
    Kept fs (take g i dir) where
  count := by
    show g.cg.cs.nifree - 1 = (free (setbit g.cg.inosused i) fs.ipg).card
    rw [free_setbit,card_erase_of_mem (mem_free.mpr ⟨low,clear⟩),kept.count]
  same := by
    show g.cs.nifree - 1 = g.cg.cs.nifree - 1
    rw [kept.same]
  below j here set := by
    have set : isset (setbit g.cg.inosused i) j = true := set
    rw [isset_setbit,Bool.or_eq_true,decide_eq_true_iff] at set
    rcases set with old | rfl
    · exact kept.below j here old
    · exact below
  rotor j here free_ := by
    have free_ : isset (setbit g.cg.inosused i) j = false := free_
    rw [isset_setbit,Bool.or_eq_false_iff] at free_
    exact kept.rotor j here free_.1
  niblk := kept.niblk
  aligned := kept.aligned
  within := kept.within
  inited := kept.inited
  group := kept.group

theorem Kept.rotor_up (kept : Kept fs g) (lowest : ∀ i < m,isset g.cg.inosused i = true) :
    Kept fs { g with cg := { g.cg with irotor := m } } where
  count := kept.count
  same := kept.same
  below := kept.below
  rotor i _ clear := by
    refine Nat.le_of_not_lt fun low => ?_
    have used : isset g.cg.inosused i = true := lowest i low
    rw [show isset g.cg.inosused i = false from clear] at used
    cases used
  niblk := kept.niblk
  aligned := kept.aligned
  within := kept.within
  inited := kept.inited
  group := kept.group

@[simp] theorem extend_inosused (fetched : Bool) : (extend fs g fetched).cg.inosused = g.cg.inosused := by
  cases fetched <;> rfl

@[simp] theorem extend_cgx (fetched : Bool) : (extend fs g fetched).cg.cgx = g.cg.cgx := by
  cases fetched <;> rfl

theorem extend_grows (fetched : Bool) : g.cg.initediblk ≤ (extend fs g fetched).cg.initediblk := by
  cases fetched
  · exact le_refl _
  · exact Nat.le_add_right ..

theorem keptBlock_iff {cg : Cg} : keptBlock cg ibp = true ↔ ibp = some cg.initediblk := beq_iff_eq

theorem Kept.room (shape : Ufs2 fs) (kept : Kept fs g)
    (checked : ¬(fs.ufs2 = true ∧ keptBlock g.cg ibp = false ∧ g.cg.initediblk < fs.ipg - g.cg.cs.nifree + fs.inopb ∧ g.cg.initediblk < g.cg.niblk))
    (few : i ≤ fs.ipg - g.cg.cs.nifree) (low : i < fs.ipg) : i < (extend fs g (keptBlock g.cg ibp)).cg.initediblk := by
  have pos := shape.pos
  have used := kept.used
  cases fetched : keptBlock g.cg ibp with
  | true =>
    show i < g.cg.initediblk + fs.inopb
    omega
  | false =>
    show i < g.cg.initediblk
    by_cases soon : g.cg.initediblk < fs.ipg - g.cg.cs.nifree + fs.inopb
    · have all : ¬g.cg.initediblk < g.cg.niblk := fun more => checked ⟨shape.ufs2,fetched,soon,more⟩
      rw [kept.niblk] at all
      omega
    · omega

structure Got (fs : Fs) (g : Group) (i : Nat) (g' : Group) : Prop where
  kept : Kept fs g'
  low : i < fs.ipg
  clear : isset g.cg.inosused i = false
  set : ∀ j,isset g'.cg.inosused j = (isset g.cg.inosused j || decide (j = i))
  cgx : g'.cg.cgx = g.cg.cgx
  grows : g.cg.initediblk ≤ g'.cg.initediblk

theorem Kept.got (kept : Kept fs (extend fs g' (keptBlock g.cg ibp))) (same : g'.cg.inosused = g.cg.inosused) (cgx : g'.cg.cgx = g.cg.cgx)
    (blocks : g'.cg.initediblk = g.cg.initediblk) (low : i < fs.ipg) (clear : isset g.cg.inosused i = false)
    (below : i < (extend fs g' (keptBlock g.cg ibp)).cg.initediblk) (dir : Bool) : Got fs g i (take (extend fs g' (keptBlock g.cg ibp)) i dir) where
  kept := kept.taken low (by rw [extend_inosused,same]; exact clear) below dir
  low := low
  clear := clear
  set j := by
    show isset (setbit (extend fs g' (keptBlock g.cg ibp)).cg.inosused i) j = _
    rw [isset_setbit,extend_inosused,same]
  cgx := by
    show (extend fs g' (keptBlock g.cg ibp)).cg.cgx = _
    rw [extend_cgx,cgx]
  grows := by
    rw [← blocks]
    exact extend_grows _

theorem attempt_spec (shape : Ufs2 fs) (kept : Kept fs g) (pending : Pending fs g (.reading ipref dir ibp)) :
    (∀ i g',attempt fs g ipref dir ibp = .got i g' → Got fs g i g') ∧ (∀ b,attempt fs g ipref dir ibp = .getblk b → b < fs.ipg) ∧
      attempt fs g ipref dir ibp ≠ .panic := by
  unfold attempt
  split
  · exact ⟨nofun,nofun,nofun⟩
  rename_i some_
  split
  · rename_i more
    refine ⟨nofun,fun b same => ?_,nofun⟩
    cases same
    rw [← kept.niblk]
    exact more.2.2.2
  rename_i checked
  obtain ⟨m,low,clear,lowest⟩ := kept.lowest some_
  have few : m ≤ fs.ipg - g.cg.cs.nifree := by
    rw [kept.count]
    exact used_from_bottom lowest (le_of_lt low)
  have fetched : keptBlock g.cg ibp = true → g.cg.initediblk < fs.ipg := fun same => pending.2 _ (keptBlock_iff.mp same)
  split
  · rename_i preferred
    refine ⟨fun i g' same => ?_,nofun,nofun⟩
    cases same
    have inside : ipref % fs.ipg < fs.ipg := mod_lt _ (zero_lt_of_lt low)
    have unused : isset g.cg.inosused (ipref % fs.ipg) = false := by
      have clear := preferred.2
      rw [isclr_eq,Bool.not_eq_true'] at clear
      exact clear
    refine (kept.extended shape _ fetched).got rfl rfl rfl inside unused ?_ dir
    rcases pending.1 with first | old
    · rw [first]
      exact kept.room shape checked (zero_le _) (zero_lt_of_lt low)
    · exact lt_of_lt_of_le old (extend_grows _)
  rw [nextInode_eq shape kept low clear lowest]
  refine ⟨fun i g' same => ?_,nofun,nofun⟩
  cases same
  have up := kept.rotor_up lowest
  exact (up.extended shape (keptBlock g.cg ibp) fetched).got rfl rfl rfl low clear (up.room shape checked few low) dir

theorem freefile_spec (kept : Kept fs g) {ino : Nat} (mine : InUse fs g ino) (some_ : 0 < fs.ipg) (dir : Bool) :
    ∃ g',freefile fs g ino dir = some g' ∧ Kept fs g' ∧ (∀ j,isset g'.cg.inosused j = (isset g.cg.inosused j && decide (j ≠ ino % fs.ipg))) ∧
      g'.cg.initediblk = g.cg.initediblk ∧ g'.cg.cgx = g.cg.cgx := by
  obtain ⟨group,used⟩ := mine
  have low : ino % fs.ipg < fs.ipg := mod_lt _ some_
  have range : ¬fs.ipg * fs.ncg ≤ ino := by
    have := kept.group
    rw [← group,div_lt_iff_lt_mul some_,mul_comm] at this
    omega
  unfold freefile
  rw [if_neg range,if_neg (by rw [isclr_eq,used]; exact fun free => nomatch free.1)]
  refine ⟨_,rfl,?_,fun j => isset_clrbit ..,rfl,rfl⟩
  constructor
  · show g.cg.cs.nifree + 1 = (free (clrbit g.cg.inosused (ino % fs.ipg)) fs.ipg).card
    have fresh : ino % fs.ipg ∉ free g.cg.inosused fs.ipg := fun mem => by
      rw [(mem_free.mp mem).2] at used
      cases used
    rw [free_clrbit _ low,card_insert_of_notMem fresh,kept.count]
  · show g.cs.nifree + 1 = g.cg.cs.nifree + 1
    rw [kept.same]
  · intro i here set
    rw [isset_clrbit,Bool.and_eq_true] at set
    exact kept.below i here set.1
  · intro i here clear
    rw [isset_clrbit,Bool.and_eq_false_iff,decide_eq_false_iff_not,not_not] at clear
    show (if ino % fs.ipg < g.cg.irotor then ino % fs.ipg else g.cg.irotor) ≤ i
    rcases clear with old | rfl
    · have := kept.rotor i here old
      split <;> omega
    · split <;> omega
  · exact kept.niblk
  · exact kept.aligned
  · exact kept.within
  · exact kept.inited
  · exact kept.group

theorem Pending.later {p : Pc} (pending : Pending fs g p) (grows : g.cg.initediblk ≤ g'.cg.initediblk) : Pending fs g' p := by
  cases p with
  | idle => trivial
  | reading ipref dir ibp => exact ⟨pending.1.imp_right fun low => lt_of_lt_of_le low grows,pending.2⟩
  | panicked => exact pending

def Effect (fs : Fs) (g : Group) : Label → Group → Prop
  | .quiet,g' => g' = g
  | .alloc ino,g' => ino / fs.ipg = g.cg.cgx ∧ isset g.cg.inosused (ino % fs.ipg) = false ∧
      ∀ j,isset g'.cg.inosused j = (isset g.cg.inosused j || decide (j = ino % fs.ipg))
  | .free ino,g' => ∀ j,isset g'.cg.inosused j = (isset g.cg.inosused j && decide (j ≠ ino % fs.ipg))

theorem Inv.goto {p : Pc} (inv : Inv fs s) (pending : Pending fs s.group p) : Inv fs (s.goto t p) where
  kept := inv.kept
  pending u := by
    by_cases same : u = t
    · rw [same,show (s.goto t p).pc t = p from Function.update_self ..]
      exact pending
    rw [show (s.goto t p).pc u = s.pc u from Function.update_of_ne same ..]
    exact inv.pending u

theorem Inv.at_ {p : Pc} (inv : Inv fs s) (here : s.pc t = p) : Pending fs s.group p := here ▸ inv.pending t

theorem inv_step (shape : Ufs2 fs) (inv : Inv fs s) (step : Step fs s t l s') : Inv fs s' ∧ Effect fs s.group l s'.group := by
  cases step with
  | @call ipref dir at_ preferred some_ =>
    refine ⟨inv.goto ⟨?_,nofun⟩,rfl⟩
    rcases preferred with whole | ⟨-,used⟩
    · exact .inl (mod_eq_zero_of_dvd whole)
    · exact .inr (inv.kept.below _ (mod_lt _ shape.some_) used)
  | error at_ | fail at_ _ => exact ⟨inv.goto trivial,rfl⟩
  | @getblk ipref dir ibp b at_ result =>
    obtain ⟨-,blocks,-⟩ := attempt_spec shape inv.kept (inv.at_ at_)
    refine ⟨inv.goto ⟨(inv.at_ at_).1,fun c same => ?_⟩,rfl⟩
    cases same
    exact blocks b result
  | @got ipref dir ibp i g at_ result =>
    obtain ⟨gets,-,-⟩ := attempt_spec shape inv.kept (inv.at_ at_)
    have got := gets i g result
    have next : Inv fs { s with group := g } := ⟨got.kept,fun u => (inv.pending u).later got.grows⟩
    have quotient : (g.cg.cgx * fs.ipg + i) / fs.ipg = g.cg.cgx := by
      rw [mul_comm,mul_add_div shape.some_,div_eq_of_lt got.low,add_zero]
    have rest : (g.cg.cgx * fs.ipg + i) % fs.ipg = i := by
      rw [mul_comm,mul_add_mod,mod_eq_of_lt got.low]
    refine ⟨next.goto trivial,quotient.trans got.cgx,?_,?_⟩
    · rw [rest]
      exact got.clear
    rw [rest]
    exact got.set
  | panic at_ result =>
    obtain ⟨-,-,fine⟩ := attempt_spec shape inv.kept (inv.at_ at_)
    exact absurd result fine
  | @free ino dir g at_ mine result =>
    obtain ⟨g',same,kept,cleared,blocks,-⟩ := freefile_spec inv.kept mine shape.some_ dir
    cases same.symm.trans result
    exact ⟨⟨kept,fun u => (inv.pending u).later (le_of_eq blocks.symm)⟩,cleared⟩
  | freePanic dir at_ mine result =>
    obtain ⟨g',same,-⟩ := freefile_spec inv.kept mine shape.some_ dir
    rw [result] at same
    cases same

theorem inv_start (empty : Empty fs s.group) (idle : ∀ t,s.pc t = .idle) : Inv fs s where
  kept := by
    refine ⟨?_,?_,fun i low set => ?_,fun i _ _ => ?_,empty.niblk,empty.aligned,empty.within,empty.inited,empty.group⟩
    · have all : free s.group.cg.inosused fs.ipg = range fs.ipg := filter_true_of_mem fun i mem => empty.clear i (mem_range.mp mem)
      rw [all,card_range]
      exact empty.nifree
    · rw [empty.same,empty.nifree]
    · rw [empty.clear i low] at set
      cases set
    rw [empty.rotor]
    exact zero_le i
  pending t := by
    rw [idle t]
    trivial

theorem inv_run (shape : Ufs2 fs) (inv : Inv fs s) (run : Runs fs s s') : Inv fs s' := by
  induction run with
  | refl => exact inv
  | step _ step ih => exact (inv_step shape ih step).1

structure Sound (fs : Fs) (s : Sys T) : Prop where
  count : s.group.cg.cs.nifree = (free s.group.cg.inosused fs.ipg).card
  same : s.group.cs.nifree = s.group.cg.cs.nifree
  below : ∀ i < fs.ipg,isset s.group.cg.inosused i = true → i < s.group.cg.initediblk
  inited : ∀ i < fs.ipg,isset s.group.cg.inosused i = true → s.group.inited (i / fs.inopb) = true
  rotor : ∀ i < fs.ipg,isset s.group.cg.inosused i = false → s.group.cg.irotor ≤ i
  fine : ∀ t,s.pc t ≠ .panicked

theorem Inv.sound (shape : Ufs2 fs) (inv : Inv fs s) : Sound fs s where
  count := inv.kept.count
  same := inv.kept.same
  below := inv.kept.below
  inited i low set := by
    refine inv.kept.inited _ ?_
    have below := inv.kept.below i low set
    obtain ⟨k,aligned⟩ := inv.kept.aligned
    rw [aligned] at below ⊢
    rw [Nat.mul_div_cancel_left _ shape.pos]
    exact Nat.div_lt_of_lt_mul below
  rotor := inv.kept.rotor
  fine t here := by
    have pending := inv.pending t
    rw [here] at pending
    exact pending

theorem inodes_kept (shape : Ufs2 fs) (empty : Empty fs s.group) (idle : ∀ t,s.pc t = .idle) (run : Runs fs s s') :
    Sound fs s' ∧ ∀ t l s'',Step fs s' t l s'' → Effect fs s'.group l s''.group := by
  have inv := inv_run shape (inv_start empty idle) run
  exact ⟨inv.sound shape,fun t l s'' step => (inv_step shape inv step).2⟩

def smallFs : Fs := ⟨true,false,1,16,8⟩
def smallGroup : Sys Unit := ⟨⟨⟨0,⟨0,16⟩,0,16,8,fun _ => 0⟩,⟨0,16⟩,⟨0,16⟩,fun b => b == 0⟩,fun _ => .idle⟩

theorem small_run : ∃ s,Runs smallFs smallGroup s ∧ isset s.group.cg.inosused 0 = true := by
  have calls : Runs smallFs smallGroup _ := Runs.refl.step (.call (t := ()) 0 false rfl (.inl (Nat.dvd_zero _)) (by decide))
  exact ⟨_,calls.step (.got (t := ()) rfl rfl),rfl⟩

theorem inodes_kept_small : ∃ s : Sys Unit,isset s.group.cg.inosused 0 = true ∧ Sound smallFs s := by
  obtain ⟨s,run,used⟩ := small_run
  have shape : Ufs2 smallFs := ⟨rfl,by decide,by decide,⟨2,rfl⟩,⟨2,rfl⟩⟩
  have empty : Empty smallFs smallGroup.group :=
    ⟨fun i _ => (isset_eq _ i).trans BitVec.getLsbD_zero,rfl,rfl,rfl,rfl,⟨1,rfl⟩,by decide,by decide,by decide⟩
  exact ⟨s,used,(inodes_kept shape empty (fun _ => rfl) run).1⟩
end NetbsdAvr32.FfsInode
