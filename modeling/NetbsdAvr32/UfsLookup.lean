import Mathlib.Order.Monotone.Basic
import NetbsdAvr32.Outcome

-- ufs_lookup of ufs_lookup.c for a name to be created or renamed, and the hash of ufs_dirhash.c.
namespace NetbsdAvr32.UfsDir
open Nat Option

def FFS_MAXNAMLEN : Nat := 255
def DT_WHT : Nat := 14
def DIRALIGN : Nat := 4

structure Direct where
  dIno : Nat
  dReclen : Nat
  dType : Nat
  dNamlen : Nat
  dName : List Nat

-- dirblksiz and iosize are powers of two.
structure Mount where
  dirblksiz : Nat
  iosize : Nat
  fsfmt : Bool
  needswap : Bool
  dirchk : Bool

def roundup (x y : Nat) : Nat := (x + (y - 1)) / y * y
def howmany (x y : Nat) : Nat := (x + (y - 1)) / y
def directsiz (namlen : Nat) : Nat := 8 + (namlen + 4) / 4 * 4
def DH_NFSTATS : Nat := directsiz (FFS_MAXNAMLEN + 1) / DIRALIGN

-- The byte order is BIG_ENDIAN.
def Mount.namlen (m : Mount) (ep : Direct) : Nat := if m.fsfmt && m.needswap then ep.dType else ep.dNamlen
def Mount.dirsiz (m : Mount) (ep : Direct) : Nat := directsiz (m.namlen ep)

def dirbadentry (m : Mount) (ep : Direct) (off : Nat) : Bool :=
  ep.dReclen % 4 ≠ 0 || m.dirblksiz - off % m.dirblksiz < ep.dReclen || ep.dReclen < m.dirsiz ep || FFS_MAXNAMLEN < m.namlen ep ||
    ep.dIno ≠ 0 && ((ep.dName.take (m.namlen ep)).contains 0 || ep.dName.getD (m.namlen ep) 0 ≠ 0)

def named (namlen : Nat) (name : List Nat) (ep : Direct) : Bool := namlen = name.length && ep.dName.take namlen == name

inductive SlotStatus
  | NONE
  | COMPACT
  | FOUND
  deriving DecidableEq

-- slotstatus, slotoffset, slotsize and slotfreespace
structure Slot where
  status : SlotStatus
  offset : Int
  size : Int
  free : Int

def Slot.look (s : Slot) (m : Mount) (needed o : Nat) (ep : Direct) : Slot :=
  let size : Int := if ep.dIno ≠ 0 then ep.dReclen - m.dirsiz ep else ep.dReclen
  if s.status = .FOUND ∨ size ≤ 0 then s
  else if needed ≤ size then {s with status := .FOUND, offset := o, size := ep.dReclen}
  else if s.status = .NONE then
    let offset := if s.offset = -1 then (o : Int) else s.offset
    if needed ≤ s.free + size then ⟨.COMPACT,offset,o + ep.dReclen - offset,s.free + size⟩ else ⟨.NONE,offset,s.size,s.free + size⟩
  else s

inductive Stop
  | error
  | found (o : Nat)
  | notfound (slot : Slot) (enduseful : Nat)

section Search
-- dir: the entry at an offset. readable: the block of the directory, of f_iosize bytes, can be read.
variable (m : Mount) (dir : Nat → Direct) (readable : Nat → Bool) (name : List Nat)

-- searchloop; every round moves on, so endsearch rounds are enough.
def search (needed endsearch : Nat) : Nat → Nat → Slot → Nat → Stop
  | 0, _, slot, enduseful => .notfound slot enduseful
  | left + 1, o, slot, enduseful =>
    if endsearch ≤ o then .notfound slot enduseful
    else if o % m.iosize = 0 ∧ readable (o / m.iosize) = false then .error
    else
      let slot := if slot.status = .NONE ∧ o % m.dirblksiz = 0 then {slot with offset := -1, free := 0} else slot
      if (dir o).dReclen = 0 ∨ m.dirchk = true ∧ dirbadentry m (dir o) o = true then
        search needed endsearch left (o + (m.dirblksiz - o % m.dirblksiz)) slot enduseful
      else if (dir o).dIno ≠ 0 ∧ named (m.namlen (dir o)) name (dir o) = true then .found o
      else
        search needed endsearch left (o + (dir o).dReclen) (slot.look m needed o (dir o))
          (if (dir o).dIno ≠ 0 then o + (dir o).dReclen else enduseful)

-- The blocks of the hash table are one list; -1 is DIRHASH_EMPTY, -2 is DIRHASH_DEL.
structure Dirhash where
  hash : List Int
  blkfree : Nat → Nat
  nblk : Nat
  dirblks : Nat
  firstfree : Nat → Int
  seqopt : Bool
  seqoff : Int

variable (dh : Dirhash)

-- The first entry with free space, and the range of entries that has enough of it. none: an entry of no length.
def freeStart (pos : Nat) : Nat → Nat → Option Nat
  | 0, i => some i
  | left + 1, i =>
    if m.dirblksiz ≤ i then some i
    else if (dir (pos + i)).dReclen = 0 then none
    else if (dir (pos + i)).dIno = 0 ∨ directsiz (dir (pos + i)).dNamlen < (dir (pos + i)).dReclen then some i
    else freeStart pos left (i + (dir (pos + i)).dReclen)

def freeEnd (pos needed : Nat) : Nat → Nat → Int → Option (Nat × Int)
  | 0, i, free => some (i,free)
  | left + 1, i, free =>
    if m.dirblksiz ≤ i ∨ needed ≤ free then some (i,free)
    else if (dir (pos + i)).dReclen = 0 then none
    else freeEnd pos needed left (i + (dir (pos + i)).dReclen)
      (free + (dir (pos + i)).dReclen - if (dir (pos + i)).dIno ≠ 0 then (directsiz (dir (pos + i)).dNamlen : Int) else 0)

-- some none: -1. none: the kernel panics.
def dirhashFindfree (needed : Nat) : Option (Option (Nat × Nat)) :=
  match ((List.range' (howmany needed DIRALIGN) (DH_NFSTATS + 1 - howmany needed DIRALIGN)).map dh.firstfree).find? (· ≠ -1) with
  | none => some none
  | some block =>
    let dirblock := block.toNat
    let pos := dirblock * m.dirblksiz
    if dh.nblk ≤ dirblock ∨ dh.blkfree dirblock < howmany needed DIRALIGN then none
    else if readable (pos / m.iosize) = false then some none
    else
      match freeStart m dir pos m.dirblksiz 0 with
      | none => some none
      | some start =>
        if m.dirblksiz < start then some none
        else
          match freeEnd m dir pos needed m.dirblksiz start 0 with
          | none => some none
          | some (i,free) =>
            if m.dirblksiz < i then some none
            else if free < needed then none
            else some (some (pos + start,i - start))

-- How many blocks there are up to the last one that is not all free.
def usefulBlocks : Nat → Nat
  | 0 => 0
  | i + 1 => if dh.blkfree i ≠ m.dirblksiz / DIRALIGN then i + 1 else usefulBlocks i

-- none: -1
def dirhashEnduseful : Option Nat :=
  if dh.blkfree (dh.dirblks - 1) ≠ m.dirblksiz / DIRALIGN then none else some (usefulBlocks m dh dh.dirblks * m.dirblksiz)

inductive Probe
  | found (offset : Nat)
  | enoent
  -- EJUSTRETURN
  | again

def wrapincr (slot hlen : Nat) : Nat := if slot + 1 = hlen then 0 else slot + 1

def seqSlot : Nat → Nat → Option Nat
  | 0, _ => none
  | left + 1, slot =>
    if dh.hash.getD slot (-1) = -1 then none
    else if dh.hash.getD slot (-1) = dh.seqoff then some slot
    else seqSlot left (wrapincr slot dh.hash.length)

-- lost: the table is recycled while the entry of a slot is read. none: the kernel panics, or no slot is empty.
def probe (size : Nat) (lost : Nat → Bool) (start : Nat) : Nat → Bool → Nat → Option Probe
  | 0, _, _ => none
  | left + 1, seqopt, slot =>
    let offset := dh.hash.getD slot (-1)
    let next := wrapincr slot dh.hash.length
    if offset = -1 then some .enoent
    else if offset = -2 then probe size lost start left seqopt next
    else if offset < 0 ∨ (size : Int) ≤ offset then none
    else
      let o := offset.toNat
      if readable (o / m.iosize) = false ∨ (dir o).dReclen = 0 ∨ m.dirblksiz - o % m.dirblksiz < (dir o).dReclen then some .again
      else if named (dir o).dNamlen name (dir o) then some (.found o)
      else if lost slot then some .again
      else if seqopt then probe size lost start left false start
      else probe size lost start left false next

-- start: ufsdirhash_hash of the name
def dirhashLookup (size : Nat) (lost : Nat → Bool) (start : Nat) : Option Probe :=
  let rounds := 2 * dh.hash.length + 2
  match if dh.seqopt then seqSlot dh dh.hash.length start else none with
  | some slot => probe m dir readable name dh size lost start rounds true slot
  | none => probe m dir readable name dh size lost start rounds false start
end Search

-- hash: of ufsdirhash_build, where it answers 0. held: the first, second and third call finds the table there.
structure Request where
  name : List Nat
  lastcn : Bool
  effnlink : Nat
  access : Option Nat
  readable : Nat → Bool
  hash : Option Dirhash
  held : Nat → Bool
  lost : Nat → Bool
  start : Nat

-- justReturn: EJUSTRETURN, with ISWHITEOUT, i_offset, i_count and i_endoff
inductive Answer
  | error
  | found (offset reclen : Nat)
  | justReturn (whiteout : Bool) (offset count : Int) (endoff : Nat)

variable (m : Mount) (dir : Nat → Direct) (size : Nat) (a : Request)

def notfound (whiteout : Bool) (slot : Slot) (enduseful : Nat) : Answer :=
  if a.lastcn = false ∨ a.effnlink = 0 ∨ a.access ≠ none then .error
  else if slot.status = .NONE then .justReturn whiteout (roundup size m.dirblksiz) 0 (roundup (roundup size m.dirblksiz) m.dirblksiz)
  else .justReturn whiteout slot.offset slot.size (roundup (max enduseful (slot.offset + slot.size).toNat) m.dirblksiz)

def foundentry (endsearch o : Nat) : Answer :=
  if m.fsfmt = false ∧ (dir o).dType = DT_WHT then notfound m size a true ⟨.FOUND,o,(dir o).dReclen,0⟩ endsearch
  else .found o (dir o).dReclen

def Request.needed (a : Request) : Nat := if a.lastcn then directsiz a.name.length else 0
def Request.slot (a : Request) : Slot := ⟨if a.lastcn then .NONE else .FOUND,-1,0,0⟩

def linear (slot : Slot) : Answer :=
  let endsearch := roundup size m.dirblksiz
  match search m dir a.readable a.name a.needed endsearch endsearch 0 slot 0 with
  | .error => .error
  | .found o => foundentry m dir size a endsearch o
  | .notfound slot enduseful => notfound m size a false slot enduseful

def hashSlot (dh : Dirhash) : Option (Slot × Nat) :=
  if a.lastcn = false ∨ a.held 0 = false then some (a.slot,size)
  else (dirhashFindfree m dir a.readable dh a.needed).map fun
    | none => (a.slot,size)
    | some (offset,slotsize) => (⟨.COMPACT,offset,slotsize,0⟩,if a.held 1 then (dirhashEnduseful m dh).getD size else size)

def hashProbe (dh : Dirhash) : Option Probe :=
  if a.held 2 then dirhashLookup m dir a.readable a.name dh size a.lost a.start else some .again

-- endsearch is still 0 where the hash finds the entry. none: the kernel panics.
def ufsLookup : Option Answer :=
  match a.hash with
  | none => some (linear m dir size a a.slot)
  | some dh => do
    let (slot,enduseful) ← hashSlot m dir size a dh
    match ← hashProbe m dir size a dh with
    | .found o => some (foundentry m dir size a 0 o)
    | .enoent => some (notfound m size a false slot enduseful)
    | .again => some (linear m dir size a slot)

def entryAt (dir : Nat → Direct) : Nat → Nat
  | 0 => 0
  | n + 1 => entryAt dir n + (dir (entryAt dir n)).dReclen

structure WellFormed (m : Mount) (dir : Nat → Direct) (size : Nat) : Prop where
  pos : 0 < m.dirblksiz
  aligned : DIRALIGN ∣ m.dirblksiz
  entries : ∀ n,entryAt dir n < roundup size m.dirblksiz → dirbadentry m (dir (entryAt dir n)) (entryAt dir n) = false

-- The bytes that are free from o to the end of a block, as ufsdirhash_checkblock counts them.
def nfree (dir : Nat → Direct) (stop : Nat) : Nat → Nat → Int
  | 0, _ => 0
  | left + 1, o =>
    if stop ≤ o then 0
    else nfree dir stop left (o + (dir o).dReclen) + (dir o).dReclen - if (dir o).dIno ≠ 0 then (directsiz (dir o).dNamlen : Int) else 0

-- Hashed directories are of the new format and in the byte order of the machine. dh_blkfree is one byte for each block.
structure Summary (m : Mount) (dir : Nat → Direct) (size : Nat) (dh : Dirhash) : Prop where
  format : m.fsfmt = false ∧ m.needswap = false
  some_ : 0 < dh.dirblks
  blocks : dh.dirblks * m.dirblksiz = roundup size m.dirblksiz
  blkfree : ∀ b,b < dh.dirblks → (dh.blkfree b : Int) = nfree dir (b * m.dirblksiz + m.dirblksiz) m.dirblksiz (b * m.dirblksiz) / DIRALIGN % 256

def Below (m : Mount) (dir : Nat → Direct) (size endoff : Nat) : Prop :=
  ∀ n,entryAt dir n < roundup size m.dirblksiz → (dir (entryAt dir n)).dIno ≠ 0 → entryAt dir (n + 1) ≤ endoff

variable {m dir size a} {dh : Dirhash} {n o stop left enduseful : Nat} {slot : Slot}

theorem sound_entry (sound : dirbadentry m (dir o) o = false) :
    0 < (dir o).dReclen ∧ (dir o).dReclen ≤ m.dirblksiz - o % m.dirblksiz ∧ m.dirsiz (dir o) ≤ (dir o).dReclen := by
  simp only [dirbadentry,Bool.or_eq_false_iff,decide_eq_false_iff_not,not_lt] at sound
  obtain ⟨⟨⟨⟨_,inside⟩,long⟩,_⟩,_⟩ := sound
  refine ⟨?_,inside,long⟩
  unfold Mount.dirsiz directsiz at long
  omega

theorem le_roundup (pos : 0 < o) : n ≤ roundup n o := by
  have := div_add_mod (n + (o - 1)) o
  have := mod_lt (n + (o - 1)) pos
  rw [roundup,mul_comm]
  omega

theorem entryAt_mono : Monotone (entryAt dir) := monotone_nat_of_le_succ fun _ => le_add_right _ _

namespace WellFormed
variable (wf : WellFormed m dir size)
include wf

section
variable (inside : entryAt dir n < roundup size m.dirblksiz)
include inside

theorem next : entryAt dir n < entryAt dir (n + 1) :=
  Nat.lt_add_of_pos_right (sound_entry (wf.entries n inside)).1

theorem block {b : Nat} (low : entryAt dir n < b * m.dirblksiz) :
    entryAt dir (n + 1) ≤ b * m.dirblksiz := by
  have ends := (sound_entry (wf.entries n inside)).2.1
  have split := div_add_mod (entryAt dir n) m.dirblksiz
  have before := Nat.div_lt_of_lt_mul (Nat.mul_comm _ _ ▸ low)
  have room := mul_le_mul_left m.dirblksiz before
  rw [mul_succ,mul_comm m.dirblksiz b] at room
  rw [entryAt]
  omega

theorem ends : entryAt dir (n + 1) ≤ roundup size m.dirblksiz := wf.block inside inside
end

theorem below_all : Below m dir size (roundup size m.dirblksiz) := fun _ inside _ => wf.ends inside

theorem starts (b : Nat) (inside : b * m.dirblksiz < roundup size m.dirblksiz) : ∃ n,entryAt dir n = b * m.dirblksiz := by
  by_contra none_
  have stays (n : Nat) : n ≤ entryAt dir n ∧ entryAt dir n < b * m.dirblksiz := by
    induction n with
    | zero => exact ⟨Nat.le_refl _,Nat.pos_of_ne_zero fun zero => none_ ⟨0,zero.symm⟩⟩
    | succ n ih =>
      have more := wf.next (lt_trans ih.2 inside)
      exact ⟨by omega,lt_of_le_of_ne (wf.block (lt_trans ih.2 inside) ih.2) fun same => none_ ⟨_,same⟩⟩
  obtain ⟨above,low⟩ := stays (b * m.dirblksiz)
  omega
end WellFormed

-- Entries before n end at or before enduseful, so a search from n leaves all of them there.
theorem search_below (wf : WellFormed m dir size) {readable : Nat → Bool} {name : List Nat} {needed : Nat} {s s' : Slot} {e e' : Nat}
    (before : ∀ k,k < n → (dir (entryAt dir k)).dIno ≠ 0 → entryAt dir (k + 1) ≤ e) (enough : roundup size m.dirblksiz ≤ entryAt dir n + left)
    (ran : search m dir readable name needed (roundup size m.dirblksiz) left (entryAt dir n) s e = .notfound s' e') : Below m dir size e' := by
  have over_ (high : roundup size m.dirblksiz ≤ entryAt dir n) : Below m dir size e := fun k inside used =>
    before k (Nat.lt_of_not_le fun le => Nat.not_lt_of_le (Nat.le_trans high (entryAt_mono le)) inside) used
  induction left generalizing n s e with
  | zero =>
    cases ran
    exact over_ enough
  | succ left ih =>
    rw [search] at ran
    split at ran
    · next high =>
      cases ran
      exact over_ high
    next inside =>
    have inside := Nat.lt_of_not_le inside
    have sound := wf.entries n inside
    have pos := (sound_entry sound).1
    split at ran
    · cases ran
    rw [if_neg fun bad => bad.elim (ne_of_gt pos) fun bad => Bool.false_ne_true (sound ▸ bad.2)] at ran
    split at ran
    · cases ran
    have after : ∀ k,k < n + 1 → (dir (entryAt dir k)).dIno ≠ 0 →
        entryAt dir (k + 1) ≤ if (dir (entryAt dir n)).dIno ≠ 0 then entryAt dir (n + 1) else e := by
      intro k low used
      by_cases here : k = n
      · rw [here] at used ⊢
        rw [if_pos used]
      have old := before k (by omega) used
      split
      · exact entryAt_mono (by omega)
      · exact old
    refine ih after ?_ ran fun high k inside used => after k ?_ used
    · rw [entryAt]
      omega
    · exact Nat.lt_of_not_le fun le => Nat.not_lt_of_le (Nat.le_trans high (entryAt_mono le)) inside

-- A whole block is free exactly where no entry of it is in use.
theorem nfree_block (wf : WellFormed m dir size) (format : m.fsfmt = false) {b : Nat} (inside : b * m.dirblksiz ≤ roundup size m.dirblksiz)
    (low : entryAt dir n ≤ b * m.dirblksiz) (enough : b * m.dirblksiz ≤ entryAt dir n + left) :
    0 ≤ nfree dir (b * m.dirblksiz) left (entryAt dir n) ∧
    ((∀ k,n ≤ k → entryAt dir k < b * m.dirblksiz → (dir (entryAt dir k)).dIno = 0) ∧
        nfree dir (b * m.dirblksiz) left (entryAt dir n) = (b * m.dirblksiz : Nat) - entryAt dir n ∨
      (∃ k,n ≤ k ∧ entryAt dir k < b * m.dirblksiz ∧ (dir (entryAt dir k)).dIno ≠ 0) ∧
        nfree dir (b * m.dirblksiz) left (entryAt dir n) + 8 ≤ (b * m.dirblksiz : Nat) - entryAt dir n) := by
  have over_ (high : b * m.dirblksiz ≤ entryAt dir n) (k : Nat) (le : n ≤ k) : ¬entryAt dir k < b * m.dirblksiz :=
    Nat.not_lt_of_le (Nat.le_trans high (entryAt_mono le))
  induction left generalizing n with
  | zero =>
    rw [nfree]
    exact ⟨Int.le_refl _,.inl ⟨fun k le inside => absurd inside (over_ enough k le),by omega⟩⟩
  | succ left ih =>
    rw [nfree]
    split
    · next high => exact ⟨Int.le_refl _,.inl ⟨fun k le inside => absurd inside (over_ high k le),by omega⟩⟩
    next here =>
    have here := Nat.lt_of_not_le here
    have sound := sound_entry (wf.entries n (lt_of_lt_of_le here inside))
    have long : directsiz (dir (entryAt dir n)).dNamlen ≤ (dir (entryAt dir n)).dReclen := by simpa [Mount.dirsiz,Mount.namlen,format] using sound.2.2
    have eight : 8 ≤ directsiz (dir (entryAt dir n)).dNamlen := le_add_right _ _
    have step : entryAt dir (n + 1) = entryAt dir n + (dir (entryAt dir n)).dReclen := rfl
    obtain ⟨nonneg,parts⟩ := ih (wf.block (lt_of_lt_of_le here inside) here) (by omega)
      fun high k le => Nat.not_lt_of_le (Nat.le_trans high (entryAt_mono le))
    rw [step] at nonneg parts
    by_cases used : (dir (entryAt dir n)).dIno = 0
    · refine ⟨by omega,parts.imp (fun ⟨none_,all⟩ => ⟨fun k le low => ?_,by omega⟩) fun ⟨⟨k,le,some_⟩,less⟩ => ⟨⟨k,by omega,some_⟩,by omega⟩⟩
      rcases eq_or_lt_of_le le with rfl | later
      · exact used
      · exact none_ k later low
    · exact ⟨by omega,.inr ⟨⟨n,le_refl _,here,used⟩,by omega⟩⟩

def Unused (m : Mount) (dir : Nat → Direct) (b : Nat) : Prop :=
  ∀ n,b * m.dirblksiz ≤ entryAt dir n → entryAt dir n < b * m.dirblksiz + m.dirblksiz → (dir (entryAt dir n)).dIno = 0

theorem summary_unused (wf : WellFormed m dir size) (sound : Summary m dir size dh) {b : Nat} (low : b < dh.dirblks)
    (full : dh.blkfree b = m.dirblksiz / DIRALIGN) : Unused m dir b := by
  obtain ⟨words,aligned⟩ := wf.aligned
  have pos := wf.pos
  have last := mul_le_mul_right m.dirblksiz (succ_le_of_lt low)
  rw [sound.blocks,succ_mul] at last
  obtain ⟨n,start⟩ := wf.starts b (by omega)
  have free := sound.blkfree b low
  have parts := @nfree_block m dir size n m.dirblksiz wf sound.format.1 (b + 1)
  rw [succ_mul,start] at parts
  obtain ⟨nonneg,⟨unused,_⟩ | ⟨_,less⟩⟩ := parts (by omega) (by omega) (le_refl _)
  · intro k above inside
    refine unused k (Nat.le_of_not_lt fun before => ?_) inside
    have more := wf.next (n := k) (by omega)
    have later : entryAt dir (k + 1) ≤ entryAt dir n := entryAt_mono before
    omega
  -- The count, of one byte, is short of a whole block.
  rw [full,aligned,Nat.mul_div_cancel_left _ (by decide)] at free
  rw [aligned] at less nonneg
  unfold DIRALIGN at *
  omega

theorem useful_last {b i : Nat} (low : b < i) (busy : dh.blkfree b ≠ m.dirblksiz / DIRALIGN) : b < usefulBlocks m dh i := by
  induction i with
  | zero => exact absurd low (not_lt_zero _)
  | succ i ih =>
    rw [usefulBlocks]
    split
    · exact low
    next full =>
    refine ih (lt_of_le_of_ne (le_of_lt_succ low) fun same => ?_)
    rw [same] at busy
    exact full busy

theorem enduseful_below (wf : WellFormed m dir size) (sound : Summary m dir size dh) (ran : dirhashEnduseful m dh = some enduseful) :
    Below m dir size enduseful := by
  unfold dirhashEnduseful at ran
  split at ran
  · cases ran
  intro n inside used
  rw [← some.inj ran]
  have pos := wf.pos
  have split_ := div_add_mod (entryAt dir n) m.dirblksiz
  have rest := mod_lt (entryAt dir n) pos
  rw [mul_comm] at split_
  have low : entryAt dir n / m.dirblksiz < dh.dirblks := Nat.div_lt_of_lt_mul (by rw [Nat.mul_comm,sound.blocks]; exact inside)
  have busy : dh.blkfree (entryAt dir n / m.dirblksiz) ≠ m.dirblksiz / DIRALIGN := fun full =>
    used (summary_unused wf sound low full n (by omega) (by omega))
  have ends := wf.block (b := entryAt dir n / m.dirblksiz + 1) inside (by rw [succ_mul]; omega)
  exact le_trans ends (mul_le_mul_right _ (useful_last low busy))

theorem roundup_mono {x y : Nat} (le : x ≤ y) (d : Nat) : roundup x d ≤ roundup y d :=
  Nat.mul_le_mul_right _ (Nat.div_le_div_right (Nat.add_le_add_right le _))

theorem Below.mono {e e' : Nat} (below : Below m dir size e) (le : e ≤ e') : Below m dir size e' := fun n inside used => le_trans (below n inside used) le

variable {w whiteout : Bool} {offset count : Int} {endoff : Nat}

theorem notfound_below (wf : WellFormed m dir size) (useful : Below m dir size (roundup enduseful m.dirblksiz))
    (ran : notfound m size a w slot enduseful = .justReturn whiteout offset count endoff) : Below m dir size endoff := by
  unfold notfound at ran
  split at ran
  · cases ran
  split at ran
  · cases ran
    exact wf.below_all.mono (le_roundup wf.pos)
  cases ran
  exact useful.mono (roundup_mono (le_max_left _ _) _)

theorem linear_below (wf : WellFormed m dir size) (ran : linear m dir size a slot = .justReturn whiteout offset count endoff) :
    Below m dir size endoff := by
  have all := wf.below_all.mono (le_roundup wf.pos)
  unfold linear at ran
  dsimp only at ran
  split at ran
  · cases ran
  · unfold foundentry at ran
    split at ran
    · exact notfound_below wf all ran
    · cases ran
  next scan =>
  have useful := search_below (n := 0) wf (fun k low => absurd low (not_lt_zero k)) (le_add_left _ _) scan
  exact notfound_below wf (useful.mono (le_roundup wf.pos)) ran

theorem hashSlot_below (wf : WellFormed m dir size) (sound : Summary m dir size dh) (ran : hashSlot m dir size a dh = some (slot,enduseful)) :
    Below m dir size (roundup enduseful m.dirblksiz) := by
  have all : Below m dir size (roundup size m.dirblksiz) := wf.below_all
  unfold hashSlot at ran
  split at ran
  · cases ran
    exact all
  obtain ⟨found,-,same⟩ := map_eq_some_iff.mp ran
  cases found with
  | none =>
    cases same
    exact all
  | some range =>
    cases same
    split
    · cases last : dirhashEnduseful m dh with
      | none => exact all
      | some e => exact (enduseful_below wf sound last).mono (le_roundup wf.pos)
    · exact all

-- The hash finds a whiteout, and an entry in use ends past the block where the record of the whiteout ends.
def Cut (m : Mount) (dir : Nat → Direct) (size : Nat) (a : Request) : Prop :=
  ∃ dh o,a.hash = some dh ∧ hashProbe m dir size a dh = some (.found o) ∧ m.fsfmt = false ∧ (dir o).dType = DT_WHT ∧
    ¬Below m dir size (roundup (o + (dir o).dReclen) m.dirblksiz)

theorem endoff_exact (wf : WellFormed m dir size) (sound : ∀ dh,a.hash = some dh → Summary m dir size dh)
    (ran : ufsLookup m dir size a = some (.justReturn whiteout offset count endoff)) :
    (Below m dir size endoff ↔ ¬Cut m dir size a) ∧
      (Below m dir size endoff → ∀ b,endoff ≤ b * m.dirblksiz → b * m.dirblksiz < roundup size m.dirblksiz → Unused m dir b) := by
  constructor
  · unfold ufsLookup at ran
    split at ran
    · next bare =>
      refine iff_of_true (linear_below wf (some.inj ran)) ?_
      rintro ⟨_,_,hashed,_⟩
      rw [bare] at hashed
      cases hashed
    next dh hashed =>
    obtain ⟨⟨slot,enduseful⟩,found,ran⟩ := Outcome.bind_some ran
    obtain ⟨hit,probed,ran⟩ := Outcome.bind_some ran
    have cut : Cut m dir size a ↔ ∃ o,hit = .found o ∧ m.fsfmt = false ∧ (dir o).dType = DT_WHT ∧
        ¬Below m dir size (roundup (o + (dir o).dReclen) m.dirblksiz) := by
      constructor
      · rintro ⟨_,o,hashed',probed',rest⟩
        cases hashed.symm.trans hashed'
        exact ⟨o,some.inj (probed.symm.trans probed'),rest⟩
      · rintro ⟨o,rfl,rest⟩
        exact ⟨dh,o,hashed,probed,rest⟩
    rw [cut]
    cases hit with
    | found o =>
      have ran := some.inj ran
      unfold foundentry at ran
      split at ran
      · next white =>
        unfold notfound at ran
        split at ran
        · cases ran
        cases ran
        constructor
        · rintro below ⟨_,same,_,_,above⟩
          cases same
          exact above below
        · intro fine
          by_contra above
          exact fine ⟨o,rfl,white.1,white.2,above⟩
      · cases ran
    | enoent => exact iff_of_true (notfound_below wf (hashSlot_below wf (sound dh hashed) found) (some.inj ran)) nofun
    | again => exact iff_of_true (linear_below wf (some.inj ran)) nofun
  · intro below b high inside n above low
    by_contra used
    have room := Nat.mul_le_mul_right m.dirblksiz (Nat.succ_le_of_lt (Nat.lt_of_mul_lt_mul_right inside))
    rw [succ_mul] at room
    have here : entryAt dir n < roundup size m.dirblksiz := lt_of_lt_of_le low room
    have ends := below n here used
    have more := wf.next here
    omega

-- Five blocks, of one entry each; the first one is a whiteout.
def fiveMount : Mount := ⟨512,8192,false,false,true⟩
def fiveDir (o : Nat) : Direct := ⟨if o = 0 then 1 else 2 + o / 512,512,if o = 0 then DT_WHT else 8,1,[97 + o / 512,0]⟩
def fiveHash : Dirhash := ⟨[0,512,1024,1536,2048,-1],fun _ => 125,7,5,fun i => if i = 67 then 0 else -1,false,0⟩

-- The name at an offset, to be created.
def fiveRequest (o : Nat) : Request := ⟨[97 + o / 512],true,2,none,fun _ => true,some fiveHash,fun _ => true,fun _ => false,0⟩

theorem five_starts (n : Nat) : entryAt fiveDir n = 512 * n := by
  induction n with
  | zero => rfl
  | succ n ih =>
    rw [entryAt,ih]
    rfl

theorem five_sound : WellFormed fiveMount fiveDir 2560 ∧ Summary fiveMount fiveDir 2560 fiveHash := by
  have few (n : Nat) (inside : 512 * n < 2560) : n = 0 ∨ n = 1 ∨ n = 2 ∨ n = 3 ∨ n = 4 := by omega
  refine ⟨⟨by decide,⟨128,rfl⟩,fun n inside => ?_⟩,⟨⟨rfl,rfl⟩,by decide,rfl,fun b low => ?_⟩⟩
  · rw [five_starts] at inside ⊢
    obtain rfl | rfl | rfl | rfl | rfl := few n inside
    all_goals rfl
  obtain rfl | rfl | rfl | rfl | rfl := few b (Nat.mul_lt_mul_of_pos_left low (by decide))
  all_goals rfl

theorem endoff_exact_five : ufsLookup fiveMount fiveDir 2560 (fiveRequest 2560) = some (.justReturn false 0 512 2560) ∧
    Below fiveMount fiveDir 2560 2560 := by
  have ran : ufsLookup fiveMount fiveDir 2560 (fiveRequest 2560) = some (.justReturn false 0 512 2560) := rfl
  refine ⟨ran,(endoff_exact five_sound.1 (fun dh hashed => ?_) ran).1.mpr ?_⟩
  · cases hashed
    exact five_sound.2
  · rintro ⟨dh,o,hashed,probed,_⟩
    cases hashed
    cases probed

theorem endoff_whiteout : ufsLookup fiveMount fiveDir 2560 (fiveRequest 0) = some (.justReturn true 0 512 512) ∧
    ¬Below fiveMount fiveDir 2560 512 := by
  refine ⟨rfl,fun below => ?_⟩
  have last := below 4 (by rw [five_starts]; decide) (by rw [five_starts]; decide)
  exact absurd last (by decide)
end NetbsdAvr32.UfsDir
