import NetbsdAvr32.Outcome
import NetbsdAvr32.Linked

namespace NetbsdAvr32.Avr32

abbrev Word := BitVec 32

-- C's `w & bits` as a condition.
def has (w bits : Word) : Bool := w &&& bits != 0#32

-- include/pte.h
def avr32PgFrame : Word := 0x3ffff000
def avr32PgVpn : Word := 0xfffff000
def avr32PgValid : Word := 0x00000200
def avr32PgAsid : Word := 0x000000ff
def avr32PteInvalid : Word := 0x00000000
def avr32PteValid : Word := 0x80000000
def avr32PteWired : Word := 0x40000000
def avr32PgCached : Word := 0x00000200
def avr32PgGlobal : Word := 0x00000100
def avr32PgAccess : Word := 0x00000070
def avr32PgDirty : Word := 0x00000002
def avr32PgAccessRo : Word := 0x00000000
def avr32PgAccessRx : Word := 0x00000010
def avr32PgAccessRw : Word := 0x00000020
def avr32PgAccessRwx : Word := 0x00000030
def avr32PgAccessUro : Word := 0x00000040
def avr32PgAccessUrx : Word := 0x00000050
def avr32PgAccessUrw : Word := 0x00000060
def avr32PgAccessUrwx : Word := 0x00000070
def avr32PgSize4K : Word := 0x00000004

def avr32VaddrToTlbvpn (x : Word) : Word := x &&& avr32PgVpn
def avr32PaddrToTlbpfn (x : Word) : Word := x &&& avr32PgFrame
def avr32TlbpfnToPaddr (x : Word) : Word := x &&& avr32PgFrame

-- include/avr32_param.h, include/vmparam.h, include/pmap.h, include/cpuregs.h
def nbpg : Nat := 4096
def nptepg : Nat := 1024
def nbseg : Nat := 0x400000
def pmapSegtabsize : Nat := 512
def vmMaxuserAddress : Nat := 0x80000000
def vmMinKernelAddress : Nat := 0xC0000000
def avr32P1Start : Nat := 0x80000000
def avr32P2Start : Nat := 0xa0000000
def avr32PhysMask : Nat := 0x1fffffff
def avr32TlbNumPids : Nat := 256
def pvUncached : Word := 1
def pvModified : Word := 2
def pvReferenced : Word := 4
def pmapAsidReserved : Nat := 0
def avr32TruncSeg (va : Nat) : Nat := va / nbseg * nbseg

-- uvm/uvm_prot.h, uvm/uvm_pmap.h, sys/errno.h
def vmProtNone : Word := 0#32
def vmProtRead : Word := 1
def vmProtWrite : Word := 2
def vmProtExecute : Word := 4
def vmProtAll : Word := 7
def pmapWired : Word := 0x10
def pmapCanfail : Word := 0x20
def enomem : Int := 12

def protectionCodes : List (List Word) :=
  [[avr32PgAccessRo,avr32PgAccessRo,avr32PgAccessRw,avr32PgAccessRw,
    avr32PgAccessRx,avr32PgAccessRx,avr32PgAccessRwx,avr32PgAccessRwx],
   [avr32PgAccessUro,avr32PgAccessUro,avr32PgAccessUrw,avr32PgAccessUrw,
    avr32PgAccessUrx,avr32PgAccessUrx,avr32PgAccessUrwx,avr32PgAccessUrwx]]

-- A `pmap_t`: the static kernel_pmap_store, or a block of pmap_pmap_pool.
inductive PmapRef where
  | kernel
  | user (n : Nat)
  deriving DecidableEq, Repr

-- Reading past the end of the table is undefined.
def pteProt (pmap : PmapRef) (prot : Word) : Except Halt Word :=
  match (protectionCodes[if pmap = .kernel then 0 else 1]?).bind (·[prot.toNat]?) with
  | some code => .ok code
  | none => .error (.fault "protection_codes index")

-- What the boot code fixes: the cache geometry, the frames vm_physseg_find
-- knows, and the size of the kernel PTE array. Physical memory is limited to
-- 512Mbytes (cpuregs.h), and virtual_end is a 32-bit address.
structure Machine where
  cacheAliasMask : Word
  managed : Nat → Bool
  sysmapsize : Nat
  managed_small : ∀ frame, managed frame = true → frame < 2 ^ 17
  sysmap_small : sysmapsize ≤ 2 ^ 18

def avr32CacheIndexof (m : Machine) (va : Nat) : Word := BitVec.ofNat 32 va &&& m.cacheAliasMask
def virtualEnd (m : Machine) : Nat := vmMinKernelAddress + m.sysmapsize * nbpg

-- A vm_page is named by its frame number.
def physToVmPage (m : Machine) (pa : Nat) : Option Nat :=
  if m.managed (pa / nbpg) then some (pa / nbpg) else none

structure Info where
  pmCount : Int
  residentCount : Int
  wiredCount : Int
  pmAsid : Nat
  pmAsidgen : Nat
  deriving DecidableEq, Repr

structure Pmap extends Info where
  pmSegtab : Option Nat
  deriving DecidableEq, Repr

-- One word of a segment table: NULL, a page of PTEs, or, in the first word of
-- a table on the free list, the next free table.
inductive SegEntry where
  | null
  | ptes (page : Nat)
  | link (segtab : Nat)
  deriving DecidableEq, Repr

structure PvEntry where
  pvNext : Option Nat
  pvPmap : Option PmapRef
  pvVa : Nat
  pvFlags : Word
  deriving DecidableEq, Repr

structure TlbEntry where
  vpn : Nat
  asid : Nat
  global : Bool
  pte : Word
  deriving DecidableEq, Repr

-- The ASID allocator's variables, the TLB and its ASID register, and the pmap
-- of the current process.
structure Mmu where
  maxAsid : Nat
  currAsid : Nat
  nextAsid : Nat
  asidGeneration : Nat
  tlb : List TlbEntry
  tlbAsid : Nat
  cur : PmapRef

-- Blocks handed out by the pools and by uvm_pagealloc are numbered; a number
-- is never handed out twice, so a stale pointer is never valid again.
structure State where
  pmaps : PmapRef → Option Pmap
  nextPmap : Nat
  sysmap : Nat → Word
  ptpage : Nat → Nat → Word
  nextPt : Nat
  segtab : Nat → Nat → SegEntry
  nextSeg : Nat
  freeSegtab : Option Nat
  segbase : Option Nat
  pvHead : Nat → PvEntry
  pvNode : Nat → Option PvEntry
  nextPv : Nat
  attrs : Nat → Word
  mmu : Mmu

-- What pmap_bootstrap and pmap_init leave: pv_table, Sysmap and the page
-- attributes are zero-filled, no user pmap exists.
def initial : State where
  pmaps := fun pmap => if pmap = .kernel then some ⟨⟨1,0,0,pmapAsidReserved,0⟩,none⟩ else none
  nextPmap := 0
  sysmap := fun _ => 0
  ptpage := fun _ _ => 0
  nextPt := 0
  segtab := fun _ _ => .null
  nextSeg := 0
  freeSegtab := none
  segbase := none
  pvHead := fun _ => ⟨none,none,0,0⟩
  pvNode := fun _ => none
  nextPv := 0
  attrs := fun _ => 0
  mmu := ⟨avr32TlbNumPids,0,1,0,[],0,.kernel⟩

-- The TLB primitives of avr32_subr.S.
def TlbEntry.matches (e : TlbEntry) (vpn asid : Nat) : Bool :=
  e.vpn == vpn && (e.global || e.asid == asid)

def Mmu.drop (u : Mmu) (vpn asid : Nat) : Mmu :=
  {u with tlb := u.tlb.filter (fun e => !e.matches vpn asid)}

def tlbVpn (tlbehi : Word) : Nat := (tlbehi >>> 12).toNat
def tlbAsidField (tlbehi : Word) : Nat := (tlbehi &&& avr32PgAsid).toNat

-- An entry written without the valid bit replaces the old one and matches nothing.
def machTlbUpdate (tlbehi tlbelo : Word) (u : Mmu) : Mmu :=
  let pte := tlbelo &&& ~~~(avr32PteWired ||| avr32PteValid)
  let rest := u.drop (tlbVpn tlbehi) (tlbAsidField tlbehi)
  if has tlbehi avr32PgValid = false then rest
  else {rest with
    tlb := ⟨tlbVpn tlbehi,tlbAsidField tlbehi,has pte avr32PgGlobal,pte⟩ :: rest.tlb}

def avr32Tbis (tlbehi tlbelo : Word) (u : Mmu) : Except Halt Mmu :=
  if has tlbehi avr32PgValid = false then .error (.panic "avr32_tbis: invalid entry")
  else if has tlbehi avr32PgAsid = false ∧ tlbelo &&& avr32PgGlobal ≠ avr32PgGlobal then
    .error (.panic "avr32_tbis: non-global PTE entry without ASID")
  else .ok (u.drop (tlbVpn tlbehi) (tlbAsidField tlbehi))

-- The ASID register comes back as pmap_curr_asid, which nothing updates.
def avr32Tbiap (u : Mmu) : Mmu :=
  {u with tlb := u.tlb.filter (·.global), tlbAsid := u.currAsid}

def machSetPid (asid : Nat) (u : Mmu) : Mmu :=
  {u with tlbAsid := tlbAsidField (BitVec.ofNat 32 asid)}

-- The macro AVR32_TBIS of pmap_remove.
def tbisGlobal (va asid : Nat) (u : Mmu) : Except Halt Mmu :=
  avr32Tbis (BitVec.ofNat 32 va ||| BitVec.ofNat 32 asid ||| avr32PgValid) (avr32PgGlobal ||| avr32PgSize4K) u

-- `avr32_vaddr_to_tlbvpn(va) | AVR32_PG_VALID | asid`
def tlbehiOf (va asid : Nat) : Word :=
  avr32VaddrToTlbvpn (BitVec.ofNat 32 va) ||| avr32PgValid ||| BitVec.ofNat 32 asid
end NetbsdAvr32.Avr32
