import NetbsdAvr32.PmapState

namespace NetbsdAvr32.Avr32
open Function

-- The functions of pmap.c as built without DIAGNOSTIC, DEBUG and PARANOIADIAG.
-- Cache maintenance calls change nothing that is modelled and are left out.

-- `Sysmap + ((va - VM_MIN_KERNEL_ADDRESS) >> PGSHIFT)` as an index: below the
-- kernel range the unsigned difference lies past the end of the array.
def kvtopte (va : Nat) : Nat :=
  if vmMinKernelAddress ≤ va then (va - vmMinKernelAddress) / nbpg
  else (va + 2 ^ 32 - vmMinKernelAddress) / nbpg

def State.getPmap (s : State) (pmap : PmapRef) : Except Halt Pmap :=
  match s.pmaps pmap with
  | some p => .ok p
  | none => .error (.fault "pmap freed")

def State.setMmu (s : State) (u : Mmu) : State := {s with mmu := u}

def State.setPmap (s : State) (pmap : PmapRef) (p : Pmap) : State :=
  {s with pmaps := update s.pmaps pmap (some p)}

def pmapSegmap (pmap : PmapRef) (va : Nat) (s : State) : Except Halt (Option Nat) := do
  let p ← s.getPmap pmap
  match p.pmSegtab with
  | none => .error (.fault "pm_segtab NULL")
  | some t =>
    if va / nbseg < pmapSegtabsize then
      match s.segtab t (va / nbseg) with
      | .null => .ok none
      | .ptes page => .ok (some page)
      | .link _ => .error (.fault "seg_tab link")
    else .error (.fault "seg_tab index")

-- A `pt_entry_t *`: a slot of Sysmap or of a page of PTEs.
inductive PteRef where
  | sys (i : Nat)
  | page (pt i : Nat)
  deriving DecidableEq, Repr

def PteRef.next : PteRef → PteRef
  | .sys i => .sys (i + 1)
  | .page pt i => .page pt (i + 1)

def getPte (m : Machine) (s : State) : PteRef → Except Halt Word
  | .sys i => if i < m.sysmapsize then .ok (s.sysmap i) else .error (.fault "Sysmap index")
  | .page pt i => if i < nptepg then .ok (s.ptpage pt i) else .error (.fault "PTE index")

def State.setPte (s : State) (w : Word) : PteRef → State
  | .sys i => {s with sysmap := update s.sysmap i w}
  | .page pt i => {s with ptpage := update s.ptpage pt (update (s.ptpage pt) i w)}

def sysPte (va : Nat) : PteRef := .sys (kvtopte va)
def userPte (page va : Nat) : PteRef := .page page (va / nbpg % nptepg)

-- pv_entry management. A cursor is the header of a page or a pool block.
inductive PvPtr where
  | header (pg : Nat)
  | node (n : Nat)
  deriving DecidableEq, Repr

def State.getPv (s : State) : PvPtr → Except Halt PvEntry
  | .header pg => .ok (s.pvHead pg)
  | .node n => match s.pvNode n with
    | some e => .ok e
    | none => .error (.fault "pv_entry freed")

def State.setPv (s : State) (e : PvEntry) : PvPtr → State
  | .header pg => {s with pvHead := update s.pvHead pg e}
  | .node n => {s with pvNode := update s.pvNode n (some e)}

def pmapPvFree (n : Nat) (s : State) : State := {s with pvNode := update s.pvNode n none}
def PvEntry.is (e : PvEntry) (pmap : PmapRef) (va : Nat) : Bool := e.pvPmap == some pmap && e.pvVa == va

-- `for (npv = pv->pv_next; npv; pv = npv, npv = npv->pv_next)` up to the match.
def pvSearch (s : State) (pmap : PmapRef) (va : Nat) : Nat → PvPtr → Option Nat → Except Halt (PvPtr × Option Nat)
  | 0, _, _ => .error .fuel
  | _ + 1, pv, none => .ok (pv,none)
  | k + 1, pv, some n => do
    let e ← s.getPv (.node n)
    if e.is pmap va then .ok (pv,some n) else pvSearch s pmap va k (.node n) e.pvNext

def pmapRemovePv (pmap : PmapRef) (va pg : Nat) (s : State) : Except Halt State :=
  let pv := s.pvHead pg
  if pv.is pmap va then
    match pv.pvNext with
    | some n => do
      let npv ← s.getPv (.node n)
      let npv := {npv with pvFlags := npv.pvFlags ||| (pv.pvFlags &&& (pvModified ||| pvReferenced))}
      .ok (pmapPvFree n (s.setPv npv (.header pg)))
    | none => .ok (s.setPv {pv with pvPmap := none} (.header pg))
  else do
    let (pv,npv) ← pvSearch s pmap va (s.nextPv + 1) (.header pg) pv.pvNext
    match npv with
    | none => .ok s
    | some n => do
      let e ← s.getPv (.node n)
      let prev ← s.getPv pv
      .ok (pmapPvFree n (s.setPv {prev with pvNext := e.pvNext} pv))

def wiredPart (entry : Word) : Int := if has entry avr32PteWired then 1 else 0

def Info.unmapped (i : Info) (entry : Word) : Info :=
  {i with wiredCount := i.wiredCount - wiredPart entry, residentCount := i.residentCount - 1}

-- The body of pmap_remove's loops: one PTE.
def pmapRemovePte (m : Machine) (pmap : PmapRef) (sva asid : Nat) (flush : Bool) (pte : PteRef)
    (s : State) : Except Halt State := do
  let entry ← getPte m s pte
  if has entry avr32PteValid = false then .ok s
  else
    let p ← s.getPmap pmap
    let s := s.setPmap pmap {p with toInfo := p.toInfo.unmapped entry}
    let s ← match physToVmPage m (avr32TlbpfnToPaddr entry).toNat with
      | some pg => pmapRemovePv pmap sva pg s
      | none => .ok s
    let s := s.setPte 0#32 pte
    if flush then do
      let u ← tbisGlobal sva asid s.mmu
      .ok (s.setMmu u)
    else .ok s

-- `for (; sva < eva; sva += NBPG, pte++)` around a body; the last sva comes back.
def eachPte (body : Nat → PteRef → State → Except Halt State) :
    Nat → Nat → Nat → PteRef → State → Except Halt (Nat × State)
  | 0, _, _, _, _ => .error .fuel
  | k + 1, sva, eva, pte, s =>
    if sva < eva then do
      let s ← body sva pte s
      eachPte body k (sva + nbpg) eva pte.next s
    else .ok (sva,s)

def pteRounds (sva eva : Nat) : Nat := (eva - sva + nbpg - 1) / nbpg + 1

def segmentEnd (sva eva : Nat) : Nat :=
  let nssva := (avr32TruncSeg sva + nbseg) % 2 ^ 32
  if nssva = 0 ∨ eva < nssva then eva else nssva

-- `while (sva < eva)` over the segments of a user pmap.
def eachSegment (body : Nat → PteRef → State → Except Halt State) (pmap : PmapRef) :
    Nat → Nat → Nat → State → Except Halt State
  | 0, _, _, _ => .error .fuel
  | k + 1, sva, eva, s =>
    if sva < eva then do
      let nssva := segmentEnd sva eva
      match ← pmapSegmap pmap sva s with
      | none => eachSegment body pmap k nssva eva s
      | some page => do
        let (sva,s) ← eachPte body (pteRounds sva nssva) sva nssva (userPte page sva) s
        eachSegment body pmap k sva eva s
    else .ok s

def segmentRounds (eva : Nat) : Nat := eva / nbseg + 2

def pmapRemove (m : Machine) (pmap : PmapRef) (sva eva : Nat) (s : State) : Except Halt State :=
  if pmap = .kernel then do
    let (_,s) ← eachPte (fun va pte s => pmapRemovePte m pmap va 0 true pte s) (pteRounds sva eva) sva eva (sysPte sva) s
    .ok s
  else do
    let p ← s.getPmap pmap
    let needflush := p.pmAsidgen == s.mmu.asidGeneration
    eachSegment (fun va pte s => pmapRemovePte m pmap va p.pmAsid needflush pte s) pmap (segmentRounds eva) sva eva s

def reprotected (code entry : Word) : Word := (entry &&& ~~~(avr32PgAccess ||| avr32PgDirty)) ||| code

-- The body of pmap_protect's loops. The kernel's tlbehi carries no valid bit.
def pmapProtectPte (m : Machine) (code : Word) (tlbehi : Nat → Word) (needupdate : Bool) (sva : Nat) (pte : PteRef)
    (s : State) : Except Halt State := do
  let entry ← getPte m s pte
  if has entry avr32PteValid = false then .ok s
  else
    let entry := reprotected code entry
    let s := s.setPte entry pte
    .ok (if needupdate then s.setMmu (machTlbUpdate (tlbehi sva) entry s.mmu) else s)

def pmapProtect (m : Machine) (pmap : PmapRef) (sva eva : Nat) (prot : Word) (s : State) : Except Halt State :=
  if 8 ≤ prot.toNat then .error (.panic "pmap_protect: impossible protection")
  else if has prot vmProtRead = false then pmapRemove m pmap sva eva s
  else do
    let code ← pteProt pmap prot
    let p ← s.getPmap pmap
    if pmap = .kernel then do
      let tlbehi := fun va => avr32VaddrToTlbvpn (BitVec.ofNat 32 va) ||| BitVec.ofNat 32 p.pmAsid
      let (_,s) ← eachPte (pmapProtectPte m code tlbehi true) (pteRounds sva eva) sva eva (sysPte sva) s
      .ok s
    else if vmMaxuserAddress < sva then .error (.panic "pmap_protect: sva not in range")
    else if vmMaxuserAddress < eva then .error (.panic "pmap_protect: eva not in range")
    else
      let needupdate := p.pmAsidgen == s.mmu.asidGeneration
      eachSegment (pmapProtectPte m code (fun va => tlbehiOf va p.pmAsid) needupdate) pmap (segmentRounds eva) sva eva s

-- `for (npv = pv; npv; npv = npv->pv_next)` up to the first entry that passes.
def pvFind (s : State) (test : PvEntry → Bool) : Nat → PvPtr → Except Halt (Option PvEntry)
  | 0, _ => .error .fuel
  | k + 1, pv => do
    let e ← s.getPv pv
    if test e then .ok (some e)
    else match e.pvNext with
      | none => .ok none
      | some n => pvFind s test k (.node n)

-- Each `goto again` spends one unit of fuel. pmap_pv_alloc always succeeds.
def pmapEnterPv (m : Machine) : Nat → PmapRef → Nat → Nat → State → Except Halt State
  | 0, _, _, _, _ => .error .fuel
  | k + 1, pmap, va, pg, s =>
    let pv := s.pvHead pg
    if pv.pvPmap = none then
      .ok (s.setPv ⟨none,some pmap,va,pv.pvFlags &&& ~~~pvUncached⟩ (.header pg))
    else do
      match ← pvFind s (fun e => avr32CacheIndexof m e.pvVa != avr32CacheIndexof m va) (s.nextPv + 2) (.header pg) with
      | some npv =>
        match npv.pvPmap with
        | none => .error (.fault "pv_pmap NULL")
        | some other => do
          let s ← pmapRemove m other npv.pvVa (npv.pvVa + nbpg) s
          pmapEnterPv m k pmap va pg s
      | none => do
        match ← pvFind s (fun e => e.is pmap va) (s.nextPv + 2) (.header pg) with
        | some _ => .ok s
        | none =>
          let n := s.nextPv
          let s := {s with nextPv := n + 1}.setPv ⟨pv.pvNext,some pmap,va,pv.pvFlags⟩ (.node n)
          .ok (s.setPv {pv with pvNext := some n} (.header pg))

-- The tail both halves of pmap_enter share: wiring, the old mapping, the PTE.
def pmapEnterPte (m : Machine) (pmap : PmapRef) (va : Nat) (pa : Word) (npte : Word) (wired : Bool) (pte : PteRef)
    (s : State) : Except Halt (Word × State) := do
  let p ← s.getPmap pmap
  let s := if wired then s.setPmap pmap {p with wiredCount := p.wiredCount + 1} else s
  let npte := if wired then npte ||| avr32PteWired else npte
  let entry ← getPte m s pte
  let s ← if has entry avr32PteValid ∧ avr32TlbpfnToPaddr entry ≠ pa then pmapRemove m pmap va (va + nbpg) s
    else .ok s
  let entry ← getPte m s pte
  let p ← s.getPmap pmap
  let s := if has entry avr32PteValid = false then s.setPmap pmap {p with residentCount := p.residentCount + 1} else s
  .ok (npte,s.setPte npte pte)

def enterAttrs (flags attrs : Word) : Word :=
  if has flags vmProtWrite then attrs ||| (pvModified ||| pvReferenced)
  else if has flags vmProtAll then attrs ||| pvReferenced
  else attrs

-- `mem` tells whether uvm_pagealloc finds a page for a new segment map.
def pmapEnter (m : Machine) (fuel : Nat) (pmap : PmapRef) (va pa : Nat) (prot flags : Word) (mem : Bool)
    (s : State) : Except Halt (Int × State) := do
  let wired := has flags pmapWired
  let pa' : Word := BitVec.ofNat 32 pa
  match physToVmPage m pa with
  | none => .error (.panic "pmap_enter: unmanaged page: notyet")
  | some pg => do
    let attrs := enterAttrs flags (s.attrs pg)
    let s := {s with attrs := update s.attrs pg attrs}
    let code ← pteProt pmap prot
    let npte := code ||| avr32PgCached
    let npte := if has prot vmProtWrite ∧ has attrs pvModified then npte ||| avr32PgDirty else npte
    if pmap = .kernel then do
      let s ← pmapEnterPv m fuel pmap va pg s
      let npte := npte ||| (avr32PaddrToTlbpfn pa' ||| avr32PgValid ||| avr32PgCached ||| avr32PgSize4K ||| avr32PgGlobal)
      let (npte,s) ← pmapEnterPte m pmap va pa' npte wired (sysPte va) s
      let p ← s.getPmap pmap
      .ok (0,s.setMmu (machTlbUpdate (tlbehiOf va p.pmAsid) npte s.mmu))
    else if vmMaxuserAddress ≤ va then .error (.panic "pmap_enter: uva not in range")
    else do
      let found ← pmapSegmap pmap va s
      if found = none ∧ mem = false then
        if has flags pmapCanfail then .ok (enomem,s)
        else .error (.panic "pmap_enter: cannot allocate segmap")
      else do
        let (page,s) ← match found with
          | some page => .ok (page,s)
          | none => do
            let p ← s.getPmap pmap
            match p.pmSegtab with
            | none => .error (.fault "pm_segtab NULL")
            | some t => .ok (s.nextPt,{s with
                nextPt := s.nextPt + 1
                ptpage := update s.ptpage s.nextPt (fun _ => 0#32)
                segtab := update s.segtab t (update (s.segtab t) (va / nbseg) (.ptes s.nextPt))})
        let s ← pmapEnterPv m fuel pmap va pg s
        let npte := npte ||| (avr32PaddrToTlbpfn pa' ||| avr32PteValid ||| avr32PgCached ||| avr32PgSize4K)
        let (npte,s) ← pmapEnterPte m pmap va pa' npte wired (userPte page va) s
        let p ← s.getPmap pmap
        .ok (0,if p.pmAsidgen = s.mmu.asidGeneration then
            s.setMmu (machTlbUpdate (tlbehiOf va p.pmAsid) npte s.mmu) else s)

def pmapExtract (m : Machine) (pmap : PmapRef) (va : Nat) (s : State) : Except Halt (Option Nat) := do
  if pmap = .kernel ∧ avr32P1Start ≤ va ∧ va < avr32P2Start then .ok (some (va &&& avr32PhysMask))
  else do
    let pte ← if pmap = .kernel then .ok (some (sysPte va))
      else do
        let found ← pmapSegmap pmap va s
        .ok (found.map (userPte · va))
    match pte with
    | none => .ok none
    | some pte => do
      let entry ← getPte m s pte
      if has entry avr32PteValid = false then .ok none
      else .ok (some ((avr32TlbpfnToPaddr entry ||| BitVec.ofNat 32 (va % nbpg)).toNat))

-- The word `free_segtab` as it is stored into a table.
def SegEntry.ofLink : Option Nat → SegEntry
  | none => .null
  | some t => .link t

def SegEntry.toLink : SegEntry → Except Halt (Option Nat)
  | .null => .ok none
  | .link t => .ok (some t)
  | .ptes _ => .error (.fault "free_segtab link")

-- `*(struct segtab **)stp = free_segtab; free_segtab = stp`
def putFreeSegtab (t : Nat) (s : State) : State :=
  {s with
    segtab := update s.segtab t (update (s.segtab t) 0 (.ofLink s.freeSegtab))
    freeSegtab := some t}

-- `while (--i != 0) { stp++; ... }` with i - 1 rounds left.
def carveSegtabs : Nat → Nat → State → State
  | 0, _, s => s
  | k + 1, stp, s => carveSegtabs k (stp + 1) (putFreeSegtab (stp + 1) s)

def segtabsPerPage : Nat := nbpg / (pmapSegtabsize * 4)

-- pmap_create's segment table: the first free one, or the first of a new page.
def takeSegtab (s : State) : Except Halt (Nat × State) :=
  match s.freeSegtab with
  | some t => do
    let link ← (s.segtab t 0).toLink
    .ok (t,{s with freeSegtab := link, segtab := update s.segtab t (update (s.segtab t) 0 .null)})
  | none =>
    let t := s.nextSeg
    let s := {s with
      nextSeg := t + segtabsPerPage
      segtab := fun i => if t ≤ i ∧ i < t + segtabsPerPage then fun _ => .null else s.segtab i}
    .ok (t,carveSegtabs (segtabsPerPage - 1) t s)

def pmapCreate (s : State) : Except Halt State := do
  let (t,s) ← takeSegtab s
  let p : Pmap := ⟨⟨1,0,0,pmapAsidReserved,s.mmu.asidGeneration⟩,some t⟩
  .ok {s.setPmap (.user s.nextPmap) p with nextPmap := s.nextPmap + 1}

def pmapReference (pmap : PmapRef) (s : State) : Except Halt State := do
  let p ← s.getPmap pmap
  .ok (s.setPmap pmap {p with pmCount := p.pmCount + 1})

-- `for (i = 0; i < PMAP_SEGTABSIZE; i++)`: give back every page of PTEs.
def freeSegmaps (t : Nat) : Nat → Nat → State → Except Halt State
  | 0, _, s => .ok s
  | k + 1, i, s => match s.segtab t i with
    | .null => freeSegmaps t k (i + 1) s
    | .ptes _ => freeSegmaps t k (i + 1) {s with segtab := update s.segtab t (update (s.segtab t) i .null)}
    | .link _ => .error (.fault "seg_tab link")

def pmapDestroy (pmap : PmapRef) (s : State) : Except Halt State := do
  let p ← s.getPmap pmap
  let count := p.pmCount - 1
  if 0 < count then .ok (s.setPmap pmap {p with pmCount := count})
  else do
    let s ← match p.pmSegtab with
      | none => .ok s
      | some t => do
        let s ← freeSegmaps t pmapSegtabsize 0 s
        .ok (putFreeSegtab t s)
    .ok {s with pmaps := update s.pmaps pmap none}

def pmapAsidAlloc (pmap : PmapRef) (s : State) : Except Halt State := do
  let p ← s.getPmap pmap
  if p.pmAsid = pmapAsidReserved ∨ p.pmAsidgen ≠ s.mmu.asidGeneration then
    let u := if s.mmu.nextAsid = s.mmu.maxAsid then
        {avr32Tbiap s.mmu with asidGeneration := (s.mmu.asidGeneration + 1) % 2 ^ 32, nextAsid := 1}
      else s.mmu
    let s := s.setPmap pmap {p with pmAsid := u.nextAsid, pmAsidgen := u.asidGeneration}
    .ok (s.setMmu {u with nextAsid := u.nextAsid + 1})
  else .ok s

-- Every caller passes curlwp, so the pmap becomes that of the current process.
def pmapActivate (pmap : PmapRef) (s : State) : Except Halt State := do
  let s ← pmapAsidAlloc pmap s
  let p ← s.getPmap pmap
  .ok {s with segbase := p.pmSegtab, mmu := {machSetPid p.pmAsid s.mmu with cur := pmap}}

-- usertlbmiss of avr32_xcpt.S. The processor has put the page and its ASID
-- register into TLBEHI; `none` is the way to avr32_slow_fault.
def usertlbmiss (va : Nat) (s : State) : Except Halt (Option State) :=
  match s.segbase with
  | none => .error (.fault "segbase NULL")
  | some t =>
    if va / nbseg < pmapSegtabsize then
      match s.segtab t (va / nbseg) with
      | .null => .ok none
      | .link _ => .error (.fault "seg_tab link")
      | .ptes page =>
        let entry := s.ptpage page (va / nbpg % nptepg)
        if entry = 0#32 then .ok none
        else .ok (some (s.setMmu (machTlbUpdate (tlbehiOf va s.mmu.tlbAsid) entry s.mmu)))
    else .error (.fault "seg_tab index")

def pmapSetModified (m : Machine) (pa : Nat) (s : State) : Except Halt State :=
  match physToVmPage m pa with
  | none => .error (.panic "pmap_set_modified: pg is NULL")
  | some pg => .ok {s with attrs := update s.attrs pg (s.attrs pg ||| (pvModified ||| pvReferenced))}

def avr32ReadOnlyPte (entry : Word) : Bool := !has entry avr32PgAccessRw

-- The T_TLB_MOD+T_USER arm of trap.
def trapTlbMod (m : Machine) (vaddr : Nat) (s : State) : Except Halt State := do
  let pmap := s.mmu.cur
  match ← pmapSegmap pmap vaddr s with
  | none => .error (.panic "utlbmod: invalid segmap")
  | some page => do
    let pte := userPte page vaddr
    let entry ← getPte m s pte
    if has entry avr32PteValid = false ∨ has entry avr32PgDirty then .error (.panic "utlbmod: invalid pte")
    else if avr32ReadOnlyPte entry then .error (.panic "utlbmod: TLB modified on read-only page")
    else
      let entry := entry ||| avr32PgDirty
      let s := s.setPte entry pte
      let p ← s.getPmap pmap
      let s := s.setMmu (machTlbUpdate (tlbehiOf vaddr p.pmAsid) entry s.mmu)
      let pa := (avr32TlbpfnToPaddr entry).toNat
      if m.managed (pa / nbpg) then pmapSetModified m pa s
      else .error (.panic "utlbmod: unmanaged page")

def pmapKenterPa (m : Machine) (va pa : Nat) (prot : Word) (s : State) : Except Halt State :=
  if m.managed (pa / nbpg) then do
    let code ← pteProt .kernel prot
    let npte := (avr32PaddrToTlbpfn (BitVec.ofNat 32 pa) ||| avr32PteValid ||| avr32PteWired ||| avr32PgSize4K
      ||| avr32PgGlobal ||| avr32PgCached) ||| code
    let npte := if has prot vmProtWrite then npte ||| avr32PgDirty else npte
    let _ ← getPte m s (sysPte va)
    let s := s.setPte npte (sysPte va)
    .ok (s.setMmu (machTlbUpdate (avr32VaddrToTlbvpn (BitVec.ofNat 32 va) ||| avr32PgValid) npte s.mmu))
  else .error (.panic "pmap_kenter_pa: page not managed")

def pmapKremovePte (m : Machine) (va : Nat) (pte : PteRef) (s : State) : Except Halt State := do
  let entry ← getPte m s pte
  if has entry avr32PteValid = false then .ok s
  else do
    let u ← avr32Tbis (BitVec.ofNat 32 va ||| avr32PgValid) entry s.mmu
    .ok ((s.setPte (avr32PteInvalid ||| avr32PgGlobal) pte).setMmu u)

def pmapKremove (m : Machine) (va len : Nat) (s : State) : Except Halt State := do
  let (_,s) ← eachPte (pmapKremovePte m) (pteRounds va (va + len)) va (va + len) (sysPte va) s
  .ok s

-- `for (npv = pv; npv; npv = npv->pv_next)`: the cursor is read again after
-- pmap_remove has edited the list.
def pageRemoveAll (m : Machine) : Nat → PvPtr → State → Except Halt State
  | 0, _, _ => .error .fuel
  | k + 1, npv, s => do
    let e ← s.getPv npv
    match e.pvPmap with
    | none => .error (.fault "pv_pmap NULL")
    | some pmap => do
      let s ← pmapRemove m pmap e.pvVa (e.pvVa + nbpg) s
      let e ← s.getPv npv
      match e.pvNext with
      | none => .ok s
      | some n => pageRemoveAll m k (.node n) s

def pmapPageProtect (m : Machine) (pg : Nat) (prot : Word) (s : State) : Except Halt State :=
  if prot = vmProtRead ||| vmProtWrite then .error (.panic "pmap_page_protect: VM_PROT_READ|VM_PROT_WRITE: notyet")
  else if prot = vmProtAll then .error (.panic "pmap_page_protect: VM_PROT_ALL: notyet")
  else if prot = vmProtRead then .error (.panic "pmap_page_protect: VM_PROT_READ: notyet")
  else if prot = vmProtRead ||| vmProtExecute then
    .error (.panic "pmap_page_protect: VM_PROT_READ|VM_PROT_EXECUTE: notyet")
  else if (s.pvHead pg).pvPmap = none then .ok s
  else pageRemoveAll m (s.nextPv + 2) (.header pg) s

-- `kvtopte(va)`, or the slot behind `pmap_segmap(pmap, va)` without a check for NULL.
def entryPte (pmap : PmapRef) (va : Nat) (s : State) : Except Halt PteRef :=
  if pmap = .kernel then .ok (sysPte va)
  else do
    match ← pmapSegmap pmap va s with
    | none => .error (.fault "segmap NULL")
    | some page => .ok (userPte page va)

def clearModifyPte (m : Machine) (pmap : PmapRef) (va : Nat) (s : State) : Except Halt State := do
  let p ← s.getPmap pmap
  let pte ← entryPte pmap va s
  let asid := if pmap = .kernel then 0 else p.pmAsid
  let entry ← getPte m s pte
  if has entry avr32PgDirty = false then .ok s
  else
    let entry := entry &&& ~~~avr32PgDirty
    let s := s.setPte entry pte
    if p.pmAsidgen = s.mmu.asidGeneration then do
      let u ← avr32Tbis (BitVec.ofNat 32 va ||| BitVec.ofNat 32 asid) entry s.mmu
      .ok (s.setMmu u)
    else .ok s

def clearModifyAll (m : Machine) : Nat → PvPtr → State → Except Halt State
  | 0, _, _ => .error .fuel
  | k + 1, pv, s => do
    let e ← s.getPv pv
    match e.pvPmap with
    | none => .error (.fault "pv_pmap NULL")
    | some pmap => do
      let s ← clearModifyPte m pmap e.pvVa s
      match e.pvNext with
      | none => .ok s
      | some n => clearModifyAll m k (.node n) s

def pmapClearModify (m : Machine) (pg : Nat) (s : State) : Except Halt (Bool × State) :=
  let rv := has (s.attrs pg) pvModified
  let s := {s with attrs := update s.attrs pg (s.attrs pg &&& ~~~pvModified)}
  if rv = false then .ok (false,s)
  else if (s.pvHead pg).pvPmap = none then .ok (true,s)
  else do
    let s ← clearModifyAll m (s.nextPv + 2) (.header pg) s
    .ok (true,s)

-- The calls and traps that change the pmap module's state.
inductive Op where
  | create
  | reference (pmap : PmapRef)
  | destroy (pmap : PmapRef)
  | enter (pmap : PmapRef) (va pa : Nat) (prot flags : Word) (mem : Bool)
  | remove (pmap : PmapRef) (sva eva : Nat)
  | protect (pmap : PmapRef) (sva eva : Nat) (prot : Word)
  | activate (pmap : PmapRef)
  | tlbMiss (va : Nat)
  | tlbMod (va : Nat)
  | kenterPa (va pa : Nat) (prot : Word)
  | kremove (va len : Nat)
  | pageProtect (pg : Nat) (prot : Word)
  | clearModify (pg : Nat)

def step (m : Machine) (fuel : Nat) (s : State) : Op → Except Halt State
  | .create => pmapCreate s
  | .reference pmap => pmapReference pmap s
  | .destroy pmap => pmapDestroy pmap s
  | .enter pmap va pa prot flags mem => do
    let (_,s) ← pmapEnter m fuel pmap va pa prot flags mem s
    .ok s
  | .remove pmap sva eva => pmapRemove m pmap sva eva s
  | .protect pmap sva eva prot => pmapProtect m pmap sva eva prot s
  | .activate pmap => pmapActivate pmap s
  | .tlbMiss va => do
    let loaded ← usertlbmiss va s
    .ok (loaded.getD s)
  | .tlbMod va => trapTlbMod m va s
  | .kenterPa va pa prot => pmapKenterPa m va pa prot s
  | .kremove va len => pmapKremove m va len s
  | .pageProtect pg prot => pmapPageProtect m pg prot s
  | .clearModify pg => do
    let (_,s) ← pmapClearModify m pg s
    .ok s
end NetbsdAvr32.Avr32
