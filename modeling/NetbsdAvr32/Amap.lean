import NetbsdAvr32.Cells
import NetbsdAvr32.Packed

-- sys/uvm/uvm_amap.c: anonymous maps, their slots and their partial references.
namespace NetbsdAvr32.Amap
open Cells Outcome

-- The anons in memory: an_ref, and those given to uvm_anfree.
structure Anons where
  anRef : Nat → Int
  freed : List Nat

-- am_ppref: NULL, PPREF_NONE or an array.
inductive Ppref where
  | absent
  | disabled
  | cells (pp : Nat → Int)

-- struct vm_amap. An anon is known by its address. The arrays have am_maxslot cells.
structure Amap where
  amRef : Int
  amShared : Bool
  amSwapoff : Bool
  amMaxslot : Nat
  amNslot : Nat
  amNused : Nat
  amSlots : Nat → Nat
  amBckptr : Nat → Nat
  amAnon : Nat → Option Nat
  amPpref : Ppref

def alignbytes : Nat := 7
def sizeofInt : Nat := 4
def kmemRoundupSize (size : Nat) : Nat := (size + alignbytes) / (alignbytes + 1) * (alignbytes + 1)
def amapRoundupSlots (slots : Nat) : Nat := kmemRoundupSize (slots * sizeofInt) / sizeofInt

-- What kmem_alloc and the pool answer, and what is in the memory they give.
structure Memory where
  amap : Bool
  slots : Option (Nat → Nat)
  bckptr : Option (Nat → Nat)
  anon : Option (Nat → Option Nat)
  ppref : Option (Nat → Int)

def amapAlloc1 (memory : Memory) (slots padslots : Nat) : Option Amap :=
  if memory.amap then
    let totalslots := amapRoundupSlots (slots + padslots)
    match memory.slots,memory.bckptr,memory.anon with
    | some amSlots,some amBckptr,some amAnon => some {
        amRef := 1,amShared := false,amSwapoff := false,amMaxslot := totalslots,amNslot := slots,amNused := 0
        amSlots := amSlots,amBckptr := amBckptr,amAnon := amAnon,amPpref := .absent}
    | _,_,_ => none
  else none

def amapAlloc (memory : Memory) (slots padslots : Nat) : Except Halt (Option Amap) := do
  match amapAlloc1 memory slots padslots with
  | none => .ok none
  | some amap => do
    let amAnon ← fill amap.amMaxslot amap.amAnon 0 amap.amMaxslot none
    .ok (some {amap with amAnon := amAnon})

def amapAdd (amap : Amap) (slot anon : Nat) (replace : Bool) : Except Halt Amap :=
  if slot ≥ amap.amNslot then .error (.panic "amap_add: offset out of range")
  else do
    let old ← read amap.amMaxslot amap.amAnon slot
    let amap ← (if replace then
        if old.isNone then .error (.panic "amap_add: replacing null anon") else .ok amap
      else if old.isSome then .error (.panic "amap_add: slot in use")
      else do
        let amBckptr ← write amap.amMaxslot amap.amBckptr slot amap.amNused
        let amSlots ← write amap.amMaxslot amap.amSlots amap.amNused slot
        .ok {amap with amBckptr := amBckptr,amSlots := amSlots,amNused := amap.amNused + 1})
    let amAnon ← write amap.amMaxslot amap.amAnon slot (some anon)
    .ok {amap with amAnon := amAnon}

-- The end of a removal: the last entry of am_slots goes to `ptr`.
def closeGap (amap : Amap) (ptr : Nat) : Except Halt Amap :=
  if amap.amNused = 0 then .error (.fault "am_slots[-1]")
  else if ptr ≠ amap.amNused - 1 then do
    let last ← read amap.amMaxslot amap.amSlots (amap.amNused - 1)
    let amSlots ← write amap.amMaxslot amap.amSlots ptr last
    let amBckptr ← write amap.amMaxslot amap.amBckptr last ptr
    .ok {amap with amSlots := amSlots,amBckptr := amBckptr,amNused := amap.amNused - 1}
  else .ok {amap with amNused := amap.amNused - 1}

def removeSlot (amap : Amap) (slot : Nat) : Except Halt Amap := do
  let amAnon ← write amap.amMaxslot amap.amAnon slot none
  let ptr ← read amap.amMaxslot amap.amBckptr slot
  closeGap {amap with amAnon := amAnon} ptr

def amapUnadd (amap : Amap) (slot : Nat) : Except Halt Amap :=
  if slot ≥ amap.amNslot then .error (.panic "amap_unadd: offset out of range")
  else do
    let old ← read amap.amMaxslot amap.amAnon slot
    if old.isNone then .error (.panic "amap_unadd: nothing there") else removeSlot amap slot

def dropAnon (anons : Anons) (anon : Nat) : Anons :=
  let refs := anons.anRef anon - 1
  {anRef := Function.update anons.anRef anon refs,freed := if refs = 0 then anon :: anons.freed else anons.freed}

def wipeSlot (amap : Amap) (anons : Anons) (curslot : Nat) : Except Halt (Amap × Anons) := do
  let anon ← read amap.amMaxslot amap.amAnon curslot
  let amap ← removeSlot amap curslot
  match anon with
  | none => .error (.fault "NULL anon")
  | some anon => .ok (amap,dropAnon anons anon)

-- Along am_anon: `left` is stop - lcv.
def wipeByAnon : Nat → Int → Amap → Anons → Except Halt (Amap × Anons)
  | 0, _, amap, anons => .ok (amap,anons)
  | left + 1, lcv, amap, anons => do
    let anon ← readInt amap.amMaxslot amap.amAnon lcv
    if anon.isNone then wipeByAnon left (lcv + 1) amap anons
    else do
      let (amap,anons) ← wipeSlot amap anons lcv.toNat
      wipeByAnon left (lcv + 1) amap anons

-- Along am_slots: where an anon is removed, stop drops and lcv stays.
def wipeBySlots (slotoff slotend : Int) : Nat → Nat → Amap → Anons → Except Halt (Amap × Anons)
  | 0, _, amap, anons => .ok (amap,anons)
  | left + 1, lcv, amap, anons => do
    let curslot ← read amap.amMaxslot amap.amSlots lcv
    if (curslot : Int) < slotoff ∨ (curslot : Int) ≥ slotend then wipeBySlots slotoff slotend left (lcv + 1) amap anons
    else do
      let (amap,anons) ← wipeSlot amap anons curslot
      wipeBySlots slotoff slotend left lcv amap anons

def amapWiperange (amap : Amap) (anons : Anons) (slotoff slots : Int) : Except Halt (Amap × Anons) :=
  if slots < amap.amNused then wipeByAnon slots.toNat slotoff amap anons
  else wipeBySlots slotoff (slotoff + slots) amap.amNused 0 amap anons

-- The reference count and the length of the chunk at `offset`.
def ppGetreflen (size : Nat) (ppref : Nat → Int) (offset : Int) : Except Halt (Int × Int) := do
  let cell ← readInt size ppref offset
  if cell > 0 then .ok (cell - 1,1)
  else do
    let len ← readInt size ppref (offset + 1)
    .ok (cell * -1 - 1,len)

def ppSetreflen (size : Nat) (ppref : Nat → Int) (offset ref len : Int) : Except Halt (Nat → Int) :=
  if len = 0 then .ok ppref
  else if len = 1 then writeInt size ppref offset (ref + 1)
  else do
    let ppref ← writeInt size ppref offset ((ref + 1) * -1)
    writeInt size ppref (offset + 1) len

-- A chunk at lcv that goes past `limit` is fragmented there. Returns the length
-- of the chunk at lcv.
def fragment (size : Nat) (ppref : Nat → Int) (lcv limit ref len : Int) : Except Halt ((Nat → Int) × Int) :=
  if lcv + len > limit then do
    let ppref ← ppSetreflen size ppref lcv ref (limit - lcv)
    let ppref ← ppSetreflen size ppref limit ref (len - (limit - lcv))
    .ok (ppref,limit - lcv)
  else .ok (ppref,len)

def amapPpEstablish (memory : Memory) (amap : Amap) (offset : Int) : Except Halt Amap :=
  match memory.ppref with
  | none => .ok {amap with amPpref := .disabled}
  | some ppref => do
    let ppref ← fill amap.amMaxslot ppref 0 amap.amMaxslot 0
    let ppref ← ppSetreflen amap.amMaxslot ppref 0 0 offset
    let ppref ← ppSetreflen amap.amMaxslot ppref offset amap.amRef (amap.amNslot - offset)
    .ok {amap with amPpref := .cells ppref}

-- The first loop of amap_pp_adjref. Returns lcv and prevlcv.
def advance (size : Nat) (curslot : Int) : Nat → (Nat → Int) → Int → Int → Except Halt ((Nat → Int) × Int × Int)
  | 0, _, _, _ => .error .fuel
  | rounds + 1, ppref, lcv, prevlcv =>
    if lcv < curslot then do
      let (ref,len) ← ppGetreflen size ppref lcv
      let (ppref,len) ← fragment size ppref lcv curslot ref len
      advance size curslot rounds ppref (lcv + len) lcv
    else .ok (ppref,lcv,prevlcv)

-- The second loop, with the calls of amap_wiperange it makes.
def adjust (stopslot adjval prevlcv prevref prevlen : Int) : Nat → Amap → Anons → (Nat → Int) → Int →
    Except Halt (Amap × Anons × List (Int × Int))
  | 0, _, _, _, _ => .error .fuel
  | rounds + 1, amap, anons, ppref, lcv =>
    if lcv < stopslot then do
      let (ref,len) ← ppGetreflen amap.amMaxslot ppref lcv
      let (ppref,len) ← fragment amap.amMaxslot ppref lcv stopslot ref len
      let ref := ref + adjval
      if ref < 0 then .error (.panic "amap_pp_adjref: negative reference count")
      else do
        let ppref ← (if lcv = prevlcv + prevlen ∧ ref = prevref
          then ppSetreflen amap.amMaxslot ppref prevlcv ref (prevlen + len)
          else ppSetreflen amap.amMaxslot ppref lcv ref len)
        if ref = 0 then do
          let (amap,anons) ← amapWiperange amap anons lcv len
          let (amap,anons,wiped) ← adjust stopslot adjval prevlcv prevref prevlen rounds amap anons ppref (lcv + len)
          .ok (amap,anons,(lcv,len) :: wiped)
        else adjust stopslot adjval prevlcv prevref prevlen rounds amap anons ppref (lcv + len)
    else .ok ({amap with amPpref := .cells ppref},anons,[])

-- Returns the calls of amap_wiperange as well.
def amapPpAdjref (rounds : Nat) (amap : Amap) (anons : Anons) (curslot slotlen adjval : Int) :
    Except Halt (Amap × Anons × List (Int × Int)) :=
  match amap.amPpref with
  | .cells ppref => do
    let stopslot := curslot + slotlen
    let (ppref,lcv,prevlcv) ← advance amap.amMaxslot curslot rounds ppref 0 0
    let (prevref,prevlen) ← (if lcv ≠ 0 then ppGetreflen amap.amMaxslot ppref prevlcv else .ok (-1,0))
    if lcv ≠ curslot then .error (.panic "amap_pp_adjref: overshot target")
    else adjust stopslot adjval prevlcv prevref prevlen rounds amap anons ppref lcv
  | _ => .error (.fault "am_ppref is no array")

def uvmAmapLarge : Nat := 256
def e2big : Nat := 7
def enomem : Nat := 12

-- amap_pp_adjref where am_ppref is an array.
def adjrefIfUsed (rounds : Nat) (amap : Amap) (anons : Anons) (curslot slotlen adjval : Int) : Except Halt (Amap × Anons) :=
  match amap.amPpref with
  | .cells _ => do
    let (amap,anons,_) ← amapPpAdjref rounds amap anons curslot slotlen adjval
    .ok (amap,anons)
  | _ => .ok (amap,anons)

-- A map entry: where it starts in the amap, and how many slots it maps.
structure Entry where
  arPageoff : Nat
  slotmapped : Nat

-- pp_setreflen where am_ppref is an array.
def setIfUsed (amap : Amap) (offset ref len : Int) : Except Halt Amap :=
  match amap.amPpref with
  | .cells ppref => do
    let ppref ← ppSetreflen amap.amMaxslot ppref offset ref len
    .ok {amap with amPpref := .cells ppref}
  | _ => .ok amap

-- Case 2b: the used slots go to the end of the arrays.
def slideUp (amap : Amap) (slotoff slotmapped slotadd : Nat) : Except Halt Amap := do
  let slotspace := amap.amMaxslot - slotmapped
  let amPpref ← (match amap.amPpref with
    | .cells ppref => do
      let ppref ← copy amap.amMaxslot ppref slotspace amap.amMaxslot ppref slotoff slotmapped
      let ppref ← ppSetreflen amap.amMaxslot ppref 0 0 (slotspace - slotadd : Nat)
      let ppref ← ppSetreflen amap.amMaxslot ppref (slotspace - slotadd : Nat) 1 slotadd
      .ok (.cells ppref)
    | other => .ok other)
  let amAnon ← copy amap.amMaxslot amap.amAnon slotspace amap.amMaxslot amap.amAnon slotoff slotmapped
  let amAnon ← fill amap.amMaxslot amAnon slotoff (slotspace - slotoff) none
  let amBckptr ← copy amap.amMaxslot amap.amBckptr slotspace amap.amMaxslot amap.amBckptr slotoff slotmapped
  .ok {amap with
    amPpref := amPpref,amAnon := amAnon,amBckptr := amBckptr,amNslot := amap.amMaxslot
    amSlots := fun i => if i < amap.amNused then amap.amSlots i + (slotspace - slotoff) else amap.amSlots i}

-- Case 3, forwards: the new arrays, once they are allocated.
def growArrays (amap : Amap) (newsl newbck : Nat → Nat) (newover : Nat → Option Nat) (slotalloc : Nat) : Except Halt Amap := do
  let slotadded := slotalloc - amap.amNslot
  let amSlots ← copy slotalloc newsl 0 amap.amMaxslot amap.amSlots 0 amap.amNused
  let amAnon ← copy slotalloc newover 0 amap.amMaxslot amap.amAnon 0 amap.amNslot
  let amAnon ← fill slotalloc amAnon amap.amNslot slotadded none
  let amBckptr ← copy slotalloc newbck 0 amap.amMaxslot amap.amBckptr 0 amap.amNslot
  .ok {amap with amSlots := amSlots,amAnon := amAnon,amBckptr := amBckptr,amMaxslot := slotalloc}

-- And the new am_ppref, the old one being that of an amap of `maxslot` slots.
def growPpref (rounds : Nat) (grown : Amap) (anons : Anons) (newppref : Option (Nat → Int)) (maxslot slotend slotneed : Nat) :
    Except Halt (Amap × Anons) := do
  match newppref,grown.amPpref with
  | some newppref,.cells ppref => do
    let newppref ← copy grown.amMaxslot newppref 0 maxslot ppref 0 grown.amNslot
    let newppref ← fill grown.amMaxslot newppref grown.amNslot (grown.amMaxslot - grown.amNslot) 0
    let amap : Amap := {grown with amPpref := .cells newppref}
    let (amap,anons) ← (if slotend < grown.amNslot
      then adjrefIfUsed rounds amap anons slotend (grown.amNslot - slotend : Nat) 1 else .ok (amap,anons))
    let amap ← setIfUsed amap grown.amNslot 1 ((slotneed : Int) - grown.amNslot)
    .ok (amap,anons)
  | _,.absent => .ok (grown,anons)
  | _,_ => .ok ({grown with amPpref := .disabled},anons)

def growBackwards (amap : Amap) (newsl newbck : Nat → Nat) (newover : Nat → Option Nat) (newppref : Option (Nat → Int))
    (slotoff slotmapped slotneed slotalloc : Nat) : Except Halt Amap := do
  let slotspace := slotalloc - slotmapped
  let amSlots : Nat → Nat := fun i => if i < amap.amNused then amap.amSlots i + slotspace - slotoff else newsl i
  let amAnon ← copy slotalloc newover slotspace amap.amMaxslot amap.amAnon slotoff slotmapped
  let amAnon ← fill slotalloc amAnon 0 slotspace none
  let amBckptr ← copy slotalloc newbck slotspace amap.amMaxslot amap.amBckptr slotoff slotmapped
  let amPpref ← (match newppref,amap.amPpref with
    | some newppref,.cells ppref => do
      let newppref ← copy slotalloc newppref slotspace amap.amMaxslot ppref slotoff slotmapped
      let newppref ← ppSetreflen slotalloc newppref 0 0 (slotalloc - slotneed : Nat)
      let newppref ← ppSetreflen slotalloc newppref (slotalloc - slotneed : Nat) 1 (slotneed - slotmapped : Nat)
      .ok (.cells newppref)
    | _,.absent => .ok .absent
    | _,_ => .ok .disabled)
  .ok {amap with
    amSlots := amSlots,amAnon := amAnon,amBckptr := amBckptr,amPpref := amPpref
    amNslot := slotalloc,amMaxslot := slotalloc}

-- Returns the error number and ar_pageoff.
def amapExtend (rounds : Nat) (memory : Memory) (amap : Amap) (anons : Anons) (entry : Entry) (slotadd : Nat) (forwards : Bool) :
    Except Halt (Nat × Nat × Amap × Anons) :=
  let slotoff := entry.arPageoff
  let slotmapped := entry.slotmapped
  let slotneed := if forwards then slotoff + slotmapped + slotadd else slotadd + slotmapped
  if amap.amRef ≠ 1 then .error (.panic "amap_refs(amap) == 1")
  else if forwards ∧ amap.amNslot ≥ slotneed then do
    let (amap,anons) ← adjrefIfUsed rounds amap anons (slotoff + slotmapped : Nat) slotadd 1
    .ok (0,slotoff,amap,anons)
  else if ¬forwards ∧ slotadd ≤ slotoff then do
    let (amap,anons) ← adjrefIfUsed rounds amap anons (slotoff - slotadd : Nat) slotadd 1
    .ok (0,slotoff - slotadd,amap,anons)
  else if amap.amMaxslot ≥ slotneed then
    if forwards then do
      let (amap,anons) ← (if slotoff + slotmapped < amap.amNslot
        then adjrefIfUsed rounds amap anons (slotoff + slotmapped : Nat) (amap.amNslot - (slotoff + slotmapped) : Nat) 1
        else .ok (amap,anons))
      let amap ← setIfUsed amap amap.amNslot 1 ((slotneed : Int) - amap.amNslot)
      .ok (0,slotoff,{amap with amNslot := slotneed},anons)
    else do
      let pageoff := amap.amMaxslot - slotmapped - slotadd
      let amap ← slideUp amap slotoff slotmapped slotadd
      .ok (0,pageoff,amap,anons)
  else if slotneed ≥ uvmAmapLarge then .ok (e2big,slotoff,amap,anons)
  else
    let slotalloc := amapRoundupSlots slotneed
    match memory.slots,memory.bckptr,memory.anon with
    | some newsl,some newbck,some newover =>
      if forwards then do
        let grown ← growArrays amap newsl newbck newover slotalloc
        let (amap,anons) ← growPpref rounds grown anons memory.ppref amap.amMaxslot (slotoff + slotmapped) slotneed
        .ok (0,slotoff,{amap with amNslot := slotneed},anons)
      else do
        let pageoff := slotalloc - slotmapped - slotadd
        let amap ← growBackwards amap newsl newbck newover memory.ppref slotoff slotmapped slotneed slotalloc
        .ok (0,pageoff,amap,anons)
    | _,_,_ => .ok (enomem,slotoff,amap,anons)

def refAnon (anons : Anons) (anon : Nat) : Anons :=
  {anons with anRef := Function.update anons.anRef anon (anons.anRef anon + 1)}

-- The loop of amap_copy, from slot lcv on.
def copySlots (srcamap : Amap) (pageoff : Nat) : Nat → Nat → Amap → Anons → Except Halt (Amap × Anons)
  | 0, _, amap, anons => .ok (amap,anons)
  | left + 1, lcv, amap, anons => do
    let anon ← read srcamap.amMaxslot srcamap.amAnon (pageoff + lcv)
    let amAnon ← write amap.amMaxslot amap.amAnon lcv anon
    match anon with
    | none => copySlots srcamap pageoff left (lcv + 1) {amap with amAnon := amAnon} anons
    | some anon => do
      let amBckptr ← write amap.amMaxslot amap.amBckptr lcv amap.amNused
      let amSlots ← write amap.amMaxslot amap.amSlots amap.amNused lcv
      copySlots srcamap pageoff left (lcv + 1)
        {amap with amAnon := amAnon,amBckptr := amBckptr,amSlots := amSlots,amNused := amap.amNused + 1} (refAnon anons anon)

-- What becomes of the entry: its amap is taken over, or a new one is installed.
inductive Copied where
  | failed
  | tookOver
  | installed (amap : Amap)

-- amap_copy once the new amap is allocated and the old one locked.
def copyLocked (rounds : Nat) (amap srcamap : Amap) (anons : Anons) (entry : Entry) : Except Halt (Copied × Amap × Anons) :=
  if srcamap.amRef = 1 then .ok (.tookOver,srcamap,anons)
  else do
    let (amap,anons) ← copySlots srcamap entry.arPageoff entry.slotmapped 0 amap anons
    let amAnon ← fill amap.amMaxslot amap.amAnon entry.slotmapped (amap.amMaxslot - entry.slotmapped) none
    let srcamap : Amap := {srcamap with
      amRef := srcamap.amRef - 1,amShared := srcamap.amShared && decide (srcamap.amRef - 1 ≠ 1)}
    let (srcamap,anons) ← adjrefIfUsed rounds srcamap anons entry.arPageoff entry.slotmapped (-1)
    .ok (.installed {amap with amAnon := amAnon},srcamap,anons)

-- amap_copy of an entry that has an amap, which is returned as well.
def amapCopy (rounds : Nat) (memory : Memory) (srcamap : Amap) (anons : Anons) (entry : Entry) :
    Except Halt (Copied × Amap × Anons) :=
  if srcamap.amRef = 1 then .ok (.tookOver,srcamap,anons)
  else
    match amapAlloc1 memory entry.slotmapped 0 with
    | none => .ok (.failed,srcamap,anons)
    | some amap => copyLocked rounds amap srcamap anons entry

-- Partial references are established when the first one is gained or lost.
def establishIf (memory : Memory) (amap : Amap) (offset : Nat) (partly : Bool) : Except Halt Amap :=
  match amap.amPpref with
  | .absent => if partly then amapPpEstablish memory amap offset else .ok amap
  | _ => .ok amap

def amapSplitref (memory : Memory) (amap : Amap) (pageoff leftslots : Nat) : Except Halt Amap :=
  if leftslots = 0 then .error (.panic "amap_splitref: split at zero offset")
  else if amap.amNslot ≤ pageoff + leftslots then .error (.panic "amap_splitref: map size check failed")
  else do
    let amap ← establishIf memory amap pageoff true
    .ok {amap with amRef := amap.amRef + 1}

def amapRef (rounds : Nat) (memory : Memory) (amap : Amap) (anons : Anons) (offset len : Nat) (shared refall : Bool) :
    Except Halt (Amap × Anons) := do
  let amap : Amap := {amap with amShared := amap.amShared || shared}
  let amap ← establishIf memory amap offset (!refall && len != amap.amNslot)
  let amap : Amap := {amap with amRef := amap.amRef + 1}
  if refall then adjrefIfUsed rounds amap anons 0 amap.amNslot 1
  else adjrefIfUsed rounds amap anons offset len 1

-- amap_wipeout, without the freeing of the amap.
def wipeoutLoop (amap : Amap) : Nat → Nat → Anons → Except Halt Anons
  | 0, _, anons => .ok anons
  | left + 1, lcv, anons => do
    let slot ← read amap.amMaxslot amap.amSlots lcv
    let anon ← read amap.amMaxslot amap.amAnon slot
    match anon with
    | none => .error (.panic "amap_wipeout: corrupt amap")
    | some anon =>
      if anons.anRef anon = 0 then .error (.panic "amap_wipeout: corrupt amap")
      else wipeoutLoop amap left (lcv + 1) (dropAnon anons anon)

-- Returns no amap where the last reference is dropped and the amap is freed.
def amapUnref (rounds : Nat) (memory : Memory) (amap : Amap) (anons : Anons) (offset len : Nat) (all : Bool) :
    Except Halt (Option Amap × Anons) :=
  if amap.amRef ≤ 0 then .error (.panic "amap_refs(amap) > 0")
  else do
    let amap : Amap := {amap with amRef := amap.amRef - 1}
    if amap.amRef = 0 then
      if amap.amSwapoff then .ok (some amap,anons)
      else do
        let anons ← wipeoutLoop amap amap.amNused 0 anons
        .ok (none,anons)
    else do
      let amap : Amap := {amap with amShared := amap.amShared && decide (amap.amRef ≠ 1)}
      let amap ← establishIf memory amap offset (!all && len != amap.amNslot)
      let (amap,anons) ← (if all then adjrefIfUsed rounds amap anons 0 amap.amNslot (-1)
        else adjrefIfUsed rounds amap anons offset len (-1))
      .ok (some amap,anons)

-- am_slots lists the slots in use, and am_bckptr their places in it.
open Function Packed
def Live (amap : Amap) (s : Nat) : Prop := s < amap.amMaxslot ∧ amap.amAnon s ≠ none

structure Sound (amap : Amap) : Prop where
  fits : amap.amNslot ≤ amap.amMaxslot
  indexed : Indexed amap.amSlots amap.amBckptr amap.amNused amap.amNslot (Live amap)

structure SlotsOnly (before after : Amap) : Prop where
  ref : after.amRef = before.amRef
  shared : after.amShared = before.amShared
  swapoff : after.amSwapoff = before.amSwapoff
  maxslot : after.amMaxslot = before.amMaxslot
  nslot : after.amNslot = before.amNslot
  ppref : after.amPpref = before.amPpref

theorem SlotsOnly.refl (amap : Amap) : SlotsOnly amap amap := ⟨rfl,rfl,rfl,rfl,rfl,rfl⟩

theorem SlotsOnly.trans (first : SlotsOnly a b) (second : SlotsOnly b c) : SlotsOnly a c where
  ref := second.ref.trans first.ref
  shared := second.shared.trans first.shared
  swapoff := second.swapoff.trans first.swapoff
  maxslot := second.maxslot.trans first.maxslot
  nslot := second.nslot.trans first.nslot
  ppref := second.ppref.trans first.ppref

variable {amap amap' srcamap : Amap} {anons anons' : Anons} {s anon : Nat} {slots : List Nat} {memory : Memory}

theorem live_emptied (maxslot : amap'.amMaxslot = amap.amMaxslot) (emptied : amap'.amAnon = update amap.amAnon s none) (t : Nat) :
    Live amap' t ↔ Live amap t ∧ t ≠ s := by
  unfold Live
  rw [maxslot,emptied]
  by_cases same : t = s
  · simp [same]
  · simp [update_of_ne same,same]

theorem removeSlot_spec (sound : Sound amap) (live : Live amap s) : ∃ amap', removeSlot amap s = .ok amap' ∧ Sound amap' ∧
    SlotsOnly amap amap' ∧ amap'.amAnon = update amap.amAnon s none ∧ amap'.amNused = amap.amNused - 1 ∧
    ∀ i, i ≠ amap.amBckptr s → amap'.amSlots i = amap.amSlots i := by
  obtain ⟨placed,_,inside⟩ := sound.indexed.place live
  have bound := sound.indexed.used_le
  have fits := sound.fits
  have less : ∀ amap₁ : Amap, amap₁.amMaxslot = amap.amMaxslot → amap₁.amAnon = update amap.amAnon s none →
      ∀ t, Live amap₁ t ↔ Live amap t ∧ t ≠ s := fun amap₁ => live_emptied
  rw [removeSlot,write_ok (by omega),ok_bind,read_ok (by omega),ok_bind,closeGap,if_neg (by dsimp only; omega)]
  dsimp only
  by_cases last : amap.amBckptr s = amap.amNused - 1
  · rw [if_neg (not_not.mpr last)]
    exact ⟨_,rfl,⟨fits,sound.indexed.drop_last live last (less _ rfl rfl)⟩,⟨rfl,rfl,rfl,rfl,rfl,rfl⟩,rfl,rfl,fun i _ => rfl⟩
  have moved := sound.indexed.inside (amap.amNused - 1) (by omega)
  rw [if_pos last,read_ok (by omega),ok_bind,write_ok (by omega),ok_bind,write_ok (by omega),ok_bind]
  exact ⟨_,rfl,⟨fits,sound.indexed.drop_swap live last (less _ rfl rfl)⟩,⟨rfl,rfl,rfl,rfl,rfl,rfl⟩,rfl,rfl,
    fun i other => update_of_ne other _ _⟩

structure Wiped (amap : Amap) (anons : Anons) (slots : List Nat) (amap' : Amap) (anons' : Anons) : Prop where
  sound : Sound amap'
  same : SlotsOnly amap amap'
  nodup : slots.Nodup
  live : ∀ s ∈ slots, Live amap s
  anon : ∀ s, amap'.amAnon s = if s ∈ slots then none else amap.amAnon s
  used : amap'.amNused = amap.amNused - slots.length
  dropped : anons' = (slots.filterMap amap.amAnon).foldl dropAnon anons

theorem wiped_nil (sound : Sound amap) (anons : Anons) : Wiped amap anons [] amap anons where
  sound := sound
  same := .refl amap
  nodup := .nil
  live := by simp
  anon := by simp
  used := rfl
  dropped := rfl

theorem wiped_cons (sound : Sound amap) (live : Live amap s) (held : amap.amAnon s = some anon) (removed : removeSlot amap s = .ok amap₁)
    (rest : Wiped amap₁ (dropAnon anons anon) slots amap' anons') : Wiped amap anons (s :: slots) amap' anons' := by
  obtain ⟨_,ran,_,same,emptied,used,_⟩ := removeSlot_spec sound live
  rw [ran] at removed
  cases removed
  have other : ∀ t ∈ slots, t ≠ s := by
    rintro t mem rfl
    have := (rest.live t mem).2
    rw [emptied,update_self] at this
    exact this rfl
  refine ⟨rest.sound,same.trans rest.same,List.nodup_cons.mpr ⟨fun mem => other s mem rfl,rest.nodup⟩,?_,?_,?_,?_⟩
  · intro t mem
    rcases List.mem_cons.mp mem with rfl | mem
    · exact live
    obtain ⟨inside,some_⟩ := rest.live t mem
    rw [same.maxslot] at inside
    rw [emptied,update_of_ne (other t mem)] at some_
    exact ⟨inside,some_⟩
  · intro t
    rw [rest.anon t,emptied]
    by_cases eq : t = s
    · simp [eq]
    · simp [eq]
  · rw [rest.used,used,List.length_cons]
    omega
  have kept : slots.filterMap amap₁.amAnon = slots.filterMap amap.amAnon := by
    apply List.filterMap_congr
    intro t mem
    rw [emptied,update_of_ne (other t mem)]
  rw [rest.dropped,kept,List.filterMap_cons,held]
  rfl

theorem wipeSlot_spec (sound : Sound amap) (live : Live amap s) (anons : Anons) : ∃ anon amap', amap.amAnon s = some anon ∧
    wipeSlot amap anons s = .ok (amap',dropAnon anons anon) ∧ removeSlot amap s = .ok amap' := by
  obtain ⟨anon,held⟩ := Option.ne_none_iff_exists'.mp live.2
  obtain ⟨amap₁,removed,_⟩ := removeSlot_spec sound live
  refine ⟨anon,amap₁,held,?_,removed⟩
  rw [wipeSlot,read_ok live.1,ok_bind,removed,ok_bind,held]

theorem wipeByAnon_spec (sound : Sound amap) (left lcv : Nat) (inside : lcv + left ≤ amap.amMaxslot) (anons : Anons) :
    ∃ slots amap' anons', wipeByAnon left (lcv : Int) amap anons = .ok (amap',anons') ∧ Wiped amap anons slots amap' anons' ∧
      ∀ s, s ∈ slots ↔ Live amap s ∧ lcv ≤ s ∧ s < lcv + left := by
  induction left generalizing amap anons lcv with
  | zero => exact ⟨[],amap,anons,rfl,wiped_nil sound anons,fun s => by simp⟩
  | succ left ih =>
    rw [wipeByAnon,readInt_nat,read_ok (by omega),ok_bind]
    cases held : amap.amAnon lcv with
    | none =>
      obtain ⟨slots,amap',anons',ran,wiped,mem⟩ := ih sound (lcv + 1) (by omega) anons
      refine ⟨slots,amap',anons',ran,wiped,fun s => ?_⟩
      rw [mem]
      constructor
      · rintro ⟨live,low,high⟩
        exact ⟨live,by omega,by omega⟩
      rintro ⟨live,low,high⟩
      have : s ≠ lcv := by
        rintro rfl
        exact live.2 held
      exact ⟨live,by omega,by omega⟩
    | some anon =>
      have live : Live amap lcv := ⟨by omega,by simp [held]⟩
      obtain ⟨anon₁,amap₁,held₁,wiped₁,removed⟩ := wipeSlot_spec sound live anons
      obtain ⟨_,removed₂,sound₂,same,emptied,_⟩ := removeSlot_spec sound live
      rw [removed] at removed₂
      cases removed₂
      obtain ⟨slots,amap',anons',ran,wiped,mem⟩ := ih sound₂ (lcv + 1) (by rw [same.maxslot]; omega) (dropAnon anons anon₁)
      refine ⟨lcv :: slots,amap',anons',?_,wiped_cons sound live held₁ removed wiped,fun s => ?_⟩
      · rw [if_neg (by simp),Int.toNat_natCast,wiped₁,ok_bind]
        exact ran
      rw [List.mem_cons,mem,live_emptied same.maxslot emptied]
      constructor
      · rintro (rfl | ⟨⟨here,_⟩,low,high⟩)
        · exact ⟨live,by omega,by omega⟩
        · exact ⟨here,by omega,by omega⟩
      rintro ⟨here,low,high⟩
      by_cases eq : s = lcv
      · exact .inl eq
      · exact .inr ⟨⟨here,eq⟩,by omega,by omega⟩

theorem wipeBySlots_spec (slotoff slotend : Int) (sound : Sound amap) (left lcv : Nat) (all : lcv + left = amap.amNused)
    (passed : ∀ i < lcv, (amap.amSlots i : Int) < slotoff ∨ (amap.amSlots i : Int) ≥ slotend) (anons : Anons) :
    ∃ slots amap' anons', wipeBySlots slotoff slotend left lcv amap anons = .ok (amap',anons') ∧
      Wiped amap anons slots amap' anons' ∧ ∀ s, s ∈ slots ↔ Live amap s ∧ slotoff ≤ s ∧ (s : Int) < slotend := by
  induction left generalizing amap anons lcv with
  | zero =>
    refine ⟨[],amap,anons,rfl,wiped_nil sound anons,fun s => ⟨fun mem => (List.not_mem_nil mem).elim,?_⟩⟩
    rintro ⟨live,low,high⟩
    obtain ⟨i,lt,rfl⟩ := sound.indexed.listed s live
    have := passed i (by omega)
    omega
  | succ left ih =>
    have bound := sound.indexed.used_le
    have fits := sound.fits
    rw [wipeBySlots,read_ok (by omega),ok_bind]
    split_ifs with outside
    · refine ih sound (lcv + 1) (by omega) (fun i lt => ?_) anons
      rcases Nat.lt_or_eq_of_le (Nat.le_of_lt_succ lt) with before | rfl
      · exact passed i before
      · exact outside
    have live := sound.indexed.held lcv (by omega)
    obtain ⟨anon,amap₁,held,wiped₁,removed⟩ := wipeSlot_spec sound live anons
    obtain ⟨_,removed₁,sound₁,same,emptied,used,kept⟩ := removeSlot_spec sound live
    rw [removed] at removed₁
    cases removed₁
    rw [sound.indexed.back lcv (by omega)] at kept
    obtain ⟨slots,amap',anons',ran,wiped,mem⟩ := ih sound₁ lcv (by omega)
      (fun i lt => by rw [kept i (by omega)]; exact passed i lt) (dropAnon anons anon)
    refine ⟨amap.amSlots lcv :: slots,amap',anons',?_,wiped_cons sound live held removed wiped,fun s => ?_⟩
    · rw [wiped₁,ok_bind]
      exact ran
    rw [List.mem_cons,mem,live_emptied same.maxslot emptied]
    constructor
    · rintro (rfl | ⟨⟨here,_⟩,low,high⟩)
      · exact ⟨live,by omega,by omega⟩
      · exact ⟨here,low,high⟩
    rintro ⟨here,low,high⟩
    by_cases eq : s = amap.amSlots lcv
    · exact .inl eq
    · exact .inr ⟨⟨here,eq⟩,low,high⟩

section
variable (sound : Sound amap)
include sound

theorem amapWiperange_spec (off n : Nat) (inside : off + n ≤ amap.amMaxslot) (anons : Anons) :
    ∃ slots amap' anons', amapWiperange amap anons off n = .ok (amap',anons') ∧ Wiped amap anons slots amap' anons' ∧
      ∀ s, s ∈ slots ↔ Live amap s ∧ off ≤ s ∧ s < off + n := by
  unfold amapWiperange
  split_ifs with byanon
  · rw [Int.toNat_natCast]
    exact wipeByAnon_spec sound n off inside anons
  obtain ⟨slots,amap',anons',ran,wiped,mem⟩ := wipeBySlots_spec off (off + n) sound amap.amNused 0 (by omega) (by omega) anons
  refine ⟨slots,amap',anons',ran,wiped,fun s => ?_⟩
  rw [mem]
  constructor
  · rintro ⟨live,low,high⟩
    exact ⟨live,by omega,by omega⟩
  rintro ⟨live,low,high⟩
  exact ⟨live,by omega,by omega⟩

theorem wipeByAnon_sound (left : Nat) (lcv : Int) (ran : wipeByAnon left lcv amap anons = .ok (amap',anons')) :
    Sound amap' ∧ SlotsOnly amap amap' := by
  induction left generalizing amap anons lcv with
  | zero =>
    cases ran
    exact ⟨sound,.refl _⟩
  | succ left ih =>
    obtain ⟨anon,got,rest⟩ := bind_ok ran
    unfold readInt at got
    split at got
    · obtain ⟨inside,here⟩ := read_inv got
      subst here
      cases held : amap.amAnon lcv.toNat with
      | none =>
        rw [held,if_pos Option.isNone_none] at rest
        exact ih sound (lcv + 1) rest
      | some anon =>
        have live : Live amap lcv.toNat := ⟨inside,by simp [held]⟩
        obtain ⟨anon₁,amap₁,_,wiped₁,removed⟩ := wipeSlot_spec sound live anons
        obtain ⟨_,removed₁,sound₁,same,_⟩ := removeSlot_spec sound live
        rw [removed] at removed₁
        cases removed₁
        rw [held,if_neg (by simp),wiped₁,ok_bind] at rest
        obtain ⟨after,others⟩ := ih sound₁ (lcv + 1) rest
        exact ⟨after,same.trans others⟩
    · cases got

theorem amapWiperange_sound (slotoff n : Int) (ran : amapWiperange amap anons slotoff n = .ok (amap',anons')) :
    Sound amap' ∧ SlotsOnly amap amap' := by
  unfold amapWiperange at ran
  split at ran
  · exact wipeByAnon_sound sound _ _ ran
  obtain ⟨slots,_,_,went,wiped,_⟩ := wipeBySlots_spec slotoff (slotoff + n) sound amap.amNused 0 (by omega) (by omega) anons
  rw [went] at ran
  cases ran
  exact ⟨wiped.sound,wiped.same⟩

theorem amapAdd_sound (ran : amapAdd amap s anon replace = .ok amap') : Sound amap' := by
  unfold amapAdd at ran
  split at ran
  · cases ran
  next inside =>
    have fits := sound.fits
    rw [read_ok (by omega),ok_bind] at ran
    obtain ⟨amap₁,entered,rest⟩ := bind_ok ran
    obtain ⟨amAnon,wrote,done⟩ := bind_ok rest
    cases done
    obtain ⟨_,rfl⟩ := write_inv wrote
    cases replace with
    | true =>
      rw [if_pos rfl] at entered
      split at entered
      · cases entered
      next held =>
        cases entered
        have live : ∀ t, Live {amap with amAnon := update amap.amAnon s (some anon)} t ↔ Live amap t := by
          intro t
          unfold Live
          by_cases same : t = s
          · subst same
            simp only [Option.isNone_iff_eq_none] at held
            simp [held]
          · simp only [update_of_ne same]
        exact ⟨fits,sound.indexed.congr live (Nat.le_refl _)⟩
    | false =>
      rw [if_neg Bool.false_ne_true] at entered
      split at entered
      · cases entered
      next free =>
        have empty : amap.amAnon s = none := by simpa using free
        have notLive : ¬Live amap s := fun live => live.2 empty
        have room := sound.indexed.used_lt notLive (by omega)
        rw [write_ok (by omega),ok_bind,write_ok (by omega),ok_bind] at entered
        cases entered
        refine ⟨fits,sound.indexed.push notLive (by omega) (fun t => ?_)⟩
        unfold Live
        by_cases same : t = s
        · subst same
          simp
          omega
        · simp [same]

theorem amapUnadd_sound (ran : amapUnadd amap s = .ok amap') : Sound amap' := by
  unfold amapUnadd at ran
  split at ran
  · cases ran
  next inside =>
    have fits := sound.fits
    rw [read_ok (by omega),ok_bind] at ran
    split at ran
    · cases ran
    next held =>
      obtain ⟨_,removed,after,_⟩ := removeSlot_spec sound (show Live amap s from ⟨by omega,by simpa using held⟩)
      rw [removed] at ran
      cases ran
      exact after
end
end NetbsdAvr32.Amap
