import Mathlib.Tactic.Ring
import NetbsdAvr32.PowerMask

-- The cache variables and the range operations of arch/avr32/avr32/cache.c.
namespace NetbsdAvr32.CacheOps
open PowerMask

abbrev Word := BitVec 32

def PAGE_SIZE : Word := 4096
def PAGE_MASK : Word := PAGE_SIZE - 1
def AVR32_P1_START : Word := 0x80000000

-- EXTRACT_BITFIELD and the fields of CONFIG1.
def field (config1 mask : Word) (shift : Nat) : Nat := ((config1 &&& mask) >>> shift).toNat
def AVR32_CONFIG1_ICACHE_WAYS (c1 : Word) : Nat := field c1 0x1c00 10
def AVR32_CONFIG1_DCACHE_WAYS (c1 : Word) : Nat := field c1 0x7 0
def AVR32_CONFIG1_ICACHE_SETS (c1 : Word) : Nat := field c1 0xf0000 16
def AVR32_CONFIG1_DCACHE_SETS (c1 : Word) : Nat := field c1 0x3c0 6
def AVR32_CONFIG1_ICACHE_LINE_SIZE (c1 : Word) : Nat := field c1 0xe000 13
def AVR32_CONFIG1_DCACHE_LINE_SIZE (c1 : Word) : Nat := field c1 0x38 3

structure Vars where
  picacheWays : Word
  picacheSets : Word
  picacheWaySize : Word
  picacheWayMask : Word
  picacheSize : Word
  picacheLineSize : Word
  picacheLoopcount : Word
  picacheStride : Word
  pdcacheWays : Word
  pdcacheSets : Word
  pdcacheWaySize : Word
  pdcacheWayMask : Word
  pdcacheSize : Word
  pdcacheLineSize : Word
  pdcacheLoopcount : Word
  pdcacheStride : Word
  cacheAliasMask : Word
  cachePreferMask : Word
  deriving DecidableEq

-- The variables are not initialized, so they start out as zero.
def Vars.initial : Vars := ⟨0,0,0,0,0,0,0,0,0,0,0,0,0,0,0,0,0,0⟩

-- avr32_config_cache, in its parts.
def Vars.icacheGeometry (config1 : Word) (v : Vars) : Vars :=
  {v with picacheWays := 1 <<< AVR32_CONFIG1_ICACHE_WAYS config1, picacheSets := 1 <<< AVR32_CONFIG1_ICACHE_SETS config1}

def Vars.icacheLine (config1 : Word) (v : Vars) : Vars :=
  if AVR32_CONFIG1_ICACHE_LINE_SIZE config1 ≠ 0 then {v with picacheLineSize := 1 <<< (1 + AVR32_CONFIG1_ICACHE_LINE_SIZE config1)} else v

def Vars.dcacheGeometry (config1 : Word) (v : Vars) : Vars :=
  {v with pdcacheWays := 1 <<< AVR32_CONFIG1_DCACHE_WAYS config1, pdcacheSets := 1 <<< AVR32_CONFIG1_DCACHE_SETS config1}

def Vars.dcacheLine (config1 : Word) (v : Vars) : Vars :=
  if AVR32_CONFIG1_DCACHE_LINE_SIZE config1 ≠ 0 then {v with pdcacheLineSize := 1 <<< (1 + AVR32_CONFIG1_DCACHE_LINE_SIZE config1)} else v

def Vars.sizes (v : Vars) : Vars :=
  {v with picacheSize := v.picacheWays * v.picacheSets * v.picacheLineSize, pdcacheSize := v.pdcacheWays * v.pdcacheSets * v.pdcacheLineSize}

def Vars.icacheWay (v : Vars) : Vars :=
  if v.picacheSize ≠ 0 then {v with picacheWaySize := v.picacheSize / v.picacheWays, picacheWayMask := v.picacheSize / v.picacheWays - 1} else v

def Vars.dcacheWay (v : Vars) : Vars :=
  if v.pdcacheSize ≠ 0 then {v with pdcacheWaySize := v.pdcacheSize / v.pdcacheWays, pdcacheWayMask := v.pdcacheSize / v.pdcacheWays - 1} else v

def Vars.loops (v : Vars) : Vars :=
  if v.pdcacheWaySize < PAGE_SIZE then {v with pdcacheStride := v.pdcacheWaySize, pdcacheLoopcount := v.pdcacheWays}
  else {v with pdcacheStride := PAGE_SIZE, pdcacheLoopcount := v.pdcacheWaySize / PAGE_SIZE * v.pdcacheWays}

def Vars.masks (v : Vars) : Vars :=
  {v with
    cacheAliasMask := (v.pdcacheSize / v.pdcacheWays - 1) &&& ~~~PAGE_MASK
    cachePreferMask := (if v.pdcacheSize < v.picacheSize then v.picacheSize else v.pdcacheSize) - 1}

def avr32ConfigCache (config1 : Word) (v : Vars) : Vars :=
  ((v.icacheGeometry config1).icacheLine config1 |>.dcacheGeometry config1).dcacheLine config1 |>.sizes.icacheWay.dcacheWay.loops.masks

def ROUND_LINE (v : Vars) (a : Word) : Word := (a + v.pdcacheLineSize - 1) &&& ~~~(v.pdcacheLineSize - 1)
def TRUNC_LINE (v : Vars) (a : Word) : Word := a &&& ~~~(v.pdcacheLineSize - 1)

inductive Op where
  | icacheInv
  | dcacheInv
  | dcacheWbinv
  deriving DecidableEq, Repr

-- One cache instruction: the address it names and what it asks for.
abbrev Issue := Word × Op

-- `while (va < eva) { body; va += step; }`
def sweep (body : Word → List Issue) (step eva : Word) : Nat → Word → Option (List Issue)
  | 0,_ => none
  | fuel+1,va => if va < eva then (sweep body step eva fuel (va + step)).map (body va ++ ·) else some []

-- `for (i = 0; i < count; ++i) { op(tva); tva += stride; }`
def ways (op : Op) (stride : Word) : Nat → Word → List Issue
  | 0,_ => []
  | count+1,tva => (tva,op) :: ways op stride count (tva + stride)

def avr32DcacheWbinvRange (v : Vars) (fuel : Nat) (sva size : Word) : Option (List Issue) :=
  sweep (fun va => [(va,.dcacheWbinv)]) v.pdcacheSize (ROUND_LINE v (sva + size)) fuel (TRUNC_LINE v sva)

def avr32DcacheInvRange (v : Vars) (fuel : Nat) (sva size : Word) : Option (List Issue) :=
  sweep (fun va => [(va,.dcacheInv)]) v.pdcacheSize (ROUND_LINE v (sva + size)) fuel (TRUNC_LINE v sva)

def avr32DcacheWbinvRangeIndex (v : Vars) (fuel : Nat) (sva size : Word) : Option (List Issue) :=
  let sva := sva &&& v.pdcacheWayMask ||| AVR32_P1_START
  sweep (ways .dcacheWbinv v.pdcacheStride v.pdcacheLoopcount.toNat) v.pdcacheLineSize (ROUND_LINE v (sva + size)) fuel (TRUNC_LINE v sva)

def avr32IcacheSyncRangeIndex (v : Vars) (fuel : Nat) (sva size : Word) : Option (List Issue) :=
  let sva := sva &&& v.pdcacheWayMask ||| AVR32_P1_START
  let eva := ROUND_LINE v (sva + size)
  let va := TRUNC_LINE v sva
  do
    let first ← avr32DcacheWbinvRangeIndex v fuel va (eva - va)
    let rest ← sweep (ways .icacheInv v.picacheStride v.picacheLoopcount.toNat) v.picacheLineSize eva fuel va
    some (first ++ rest)

def Covers (sva size x : Word) : Prop := sva.toNat ≤ x.toNat ∧ x.toNat < sva.toNat + size.toNat

-- The call returns, having issued `op` on every D-cache line of the range.
def RangeDone (v : Vars) (op : Op) (run : Nat → Option (List Issue)) (sva size : Word) : Prop :=
  ∃ fuel ops, run fuel = some ops ∧ ∀ x, Covers sva size x → ∃ a, (a,op) ∈ ops ∧ TRUNC_LINE v a = TRUNC_LINE v x

-- The line an index operation on an address picks, counted through the ways,
-- and where a byte may sit: its place in a way, in any of them.
def lineIndex (v : Vars) (a : Word) : Nat := a.toNat % v.picacheSize.toNat / v.picacheLineSize.toNat
def seat (v : Vars) (x : Word) (way : Nat) : Nat :=
  (x.toNat % v.picacheWaySize.toNat + way * v.picacheWaySize.toNat) / v.picacheLineSize.toNat

def SyncDone (v : Vars) (sva size : Word) : Prop :=
  ∃ fuel ops, avr32IcacheSyncRangeIndex v fuel sva size = some ops ∧
    ∀ x, Covers sva size x → ∀ way < v.picacheWays.toNat, ∃ a, (a,Op.icacheInv) ∈ ops ∧ lineIndex v a = seat v x way

variable {v : Vars} {l p il fuel : Nat} {c1 sva size va eva step a x : Word} {body : Word → List Issue} {op : Op} {ops : List Issue}

-- What avr32_config_cache leaves, for line sizes that are given.
structure Configured (v : Vars) (l p il : Nat) : Prop where
  line : v.pdcacheLineSize = BitVec.ofNat 32 (2 ^ l)
  low : 2 ≤ l
  short : l ≤ 8
  size : v.pdcacheSize = BitVec.ofNat 32 (2 ^ p)
  order : l ≤ p
  high : p ≤ 30
  wayMask : v.pdcacheWayMask.toNat < 2 ^ 30
  iline : v.picacheLineSize = BitVec.ofNat 32 (2 ^ il)
  ilow : 2 ≤ il
  ishort : il ≤ 8
  iways : 0 < v.picacheWays.toNat
  iloop : v.picacheLoopcount = 0

open Nat List

theorem shl_eq (n : Nat) (small : n < 32) : (1 : Word) <<< n = BitVec.ofNat 32 (2 ^ n) := by
  apply BitVec.eq_of_toNat_eq
  rw [BitVec.toNat_shiftLeft,shiftLeft_eq,BitVec.toNat_ofNat]
  show 1 * 2 ^ n % _ = _
  rw [one_mul]

theorem field_le (mask : Word) (shift : Nat) : field c1 mask shift ≤ mask.toNat / 2 ^ shift := by
  unfold field
  rw [BitVec.toNat_ushiftRight,BitVec.toNat_and,shiftRight_eq_div_pow]
  exact Nat.div_le_div_right Nat.and_le_right

theorem mul_powers (i j : Nat) : BitVec.ofNat 32 (2 ^ i) * BitVec.ofNat 32 (2 ^ j) = BitVec.ofNat 32 (2 ^ (i + j)) := by
  rw [← BitVec.ofNat_mul,pow_add]

theorem div_powers {i j : Nat} (le : j ≤ i) (small : i < 32) : BitVec.ofNat 32 (2 ^ i) / BitVec.ofNat 32 (2 ^ j) = BitVec.ofNat 32 (2 ^ (i - j)) := by
  apply BitVec.eq_of_toNat_eq
  rw [BitVec.toNat_udiv,power_toNat small,power_toNat (Nat.lt_of_le_of_lt le small),power_toNat (by omega),Nat.pow_div le (by decide)]

theorem power_ne_zero {i : Nat} (small : i < 32) : BitVec.ofNat 32 (2 ^ i) ≠ 0 := by
  intro zero
  have := congrArg BitVec.toNat zero
  rw [power_toNat small] at this
  exact absurd this (Nat.ne_of_gt (Nat.two_pow_pos i))

def front (iw is il dw ds dl isize dsize : Word) : Vars :=
  ⟨iw,is,isize / iw,isize / iw - 1,isize,il,0,0,dw,ds,dsize / dw,dsize / dw - 1,dsize,dl,0,0,0,0⟩

theorem front_eq (iset : AVR32_CONFIG1_ICACHE_LINE_SIZE c1 ≠ 0) (dset : AVR32_CONFIG1_DCACHE_LINE_SIZE c1 ≠ 0) {iw is il dw ds dl : Word}
    (eqiw : (1 : Word) <<< AVR32_CONFIG1_ICACHE_WAYS c1 = iw) (eqis : (1 : Word) <<< AVR32_CONFIG1_ICACHE_SETS c1 = is)
    (eqil : (1 : Word) <<< (1 + AVR32_CONFIG1_ICACHE_LINE_SIZE c1) = il) (eqdw : (1 : Word) <<< AVR32_CONFIG1_DCACHE_WAYS c1 = dw)
    (eqds : (1 : Word) <<< AVR32_CONFIG1_DCACHE_SETS c1 = ds) (eqdl : (1 : Word) <<< (1 + AVR32_CONFIG1_DCACHE_LINE_SIZE c1) = dl)
    (isome : iw * is * il ≠ 0) (dsome : dw * ds * dl ≠ 0) :
    avr32ConfigCache c1 Vars.initial = (front iw is il dw ds dl (iw * is * il) (dw * ds * dl)).loops.masks := by
  have ifirst : (Vars.initial.icacheGeometry c1).icacheLine c1 = ⟨iw,is,0,0,0,il,0,0,0,0,0,0,0,0,0,0,0,0⟩ := by
    subst eqiw eqis eqil
    exact if_pos iset
  have dfirst : ((⟨iw,is,0,0,0,il,0,0,0,0,0,0,0,0,0,0,0,0⟩ : Vars).dcacheGeometry c1).dcacheLine c1 =
      ⟨iw,is,0,0,0,il,0,0,dw,ds,0,0,0,dl,0,0,0,0⟩ := by
    subst eqdw eqds eqdl
    exact if_pos dset
  have iway : (⟨iw,is,0,0,0,il,0,0,dw,ds,0,0,0,dl,0,0,0,0⟩ : Vars).sizes.icacheWay =
      ⟨iw,is,iw * is * il / iw,iw * is * il / iw - 1,iw * is * il,il,0,0,dw,ds,0,0,dw * ds * dl,dl,0,0,0,0⟩ := if_pos isome
  have dway : (⟨iw,is,iw * is * il / iw,iw * is * il / iw - 1,iw * is * il,il,0,0,dw,ds,0,0,dw * ds * dl,dl,0,0,0,0⟩ : Vars).dcacheWay =
      front iw is il dw ds dl (iw * is * il) (dw * ds * dl) := if_pos dsome
  unfold avr32ConfigCache
  rw [ifirst,dfirst,iway,dway]

theorem loops_kept (v : Vars) : v.loops.pdcacheLineSize = v.pdcacheLineSize ∧ v.loops.pdcacheSize = v.pdcacheSize ∧
    v.loops.pdcacheWayMask = v.pdcacheWayMask ∧ v.loops.picacheLineSize = v.picacheLineSize ∧ v.loops.picacheWays = v.picacheWays ∧
    v.loops.picacheLoopcount = v.picacheLoopcount := by
  unfold Vars.loops
  split_ifs <;> exact ⟨rfl,rfl,rfl,rfl,rfl,rfl⟩

theorem configured (iset : AVR32_CONFIG1_ICACHE_LINE_SIZE c1 ≠ 0) (dset : AVR32_CONFIG1_DCACHE_LINE_SIZE c1 ≠ 0) :
    ∃ l p il, Configured (avr32ConfigCache c1 Vars.initial) l p il := by
  have iways : AVR32_CONFIG1_ICACHE_WAYS c1 ≤ 7 := field_le 0x1c00 10
  have dways : AVR32_CONFIG1_DCACHE_WAYS c1 ≤ 7 := field_le 0x7 0
  have isets : AVR32_CONFIG1_ICACHE_SETS c1 ≤ 15 := field_le 0xf0000 16
  have dsets : AVR32_CONFIG1_DCACHE_SETS c1 ≤ 15 := field_le 0x3c0 6
  have iline : AVR32_CONFIG1_ICACHE_LINE_SIZE c1 ≤ 7 := field_le 0xe000 13
  have dline : AVR32_CONFIG1_DCACHE_LINE_SIZE c1 ≤ 7 := field_le 0x38 3
  have vars := front_eq iset dset (shl_eq _ (by omega)) (shl_eq _ (by omega)) (shl_eq _ (by omega)) (shl_eq _ (by omega)) (shl_eq _ (by omega))
    (shl_eq _ (by omega)) (by rw [mul_powers,mul_powers]; exact power_ne_zero (by omega))
    (by rw [mul_powers,mul_powers]; exact power_ne_zero (by omega))
  rw [mul_powers,mul_powers,mul_powers,mul_powers] at vars
  generalize AVR32_CONFIG1_ICACHE_WAYS c1 = iw at *
  generalize AVR32_CONFIG1_ICACHE_SETS c1 = is at *
  generalize AVR32_CONFIG1_ICACHE_LINE_SIZE c1 = il at *
  generalize AVR32_CONFIG1_DCACHE_WAYS c1 = dw at *
  generalize AVR32_CONFIG1_DCACHE_SETS c1 = ds at *
  generalize AVR32_CONFIG1_DCACHE_LINE_SIZE c1 = dl at *
  rw [vars]
  obtain ⟨line,size,mask,ilineSize,ways,loop⟩ := loops_kept (front (BitVec.ofNat 32 (2 ^ iw)) (BitVec.ofNat 32 (2 ^ is)) (BitVec.ofNat 32 (2 ^ (1 + il)))
    (BitVec.ofNat 32 (2 ^ dw)) (BitVec.ofNat 32 (2 ^ ds)) (BitVec.ofNat 32 (2 ^ (1 + dl))) (BitVec.ofNat 32 (2 ^ (iw + is + (1 + il))))
    (BitVec.ofNat 32 (2 ^ (dw + ds + (1 + dl)))))
  refine ⟨1 + dl,dw + ds + (1 + dl),1 + il,⟨line,by omega,by omega,size,by omega,by omega,?_,ilineSize,by omega,by omega,?_,loop⟩⟩
  · have way : BitVec.ofNat 32 (2 ^ (dw + ds + (1 + dl))) / BitVec.ofNat 32 (2 ^ dw) - 1 = BitVec.ofNat 32 (2 ^ (ds + (1 + dl)) - 1) := by
      rw [div_powers (by omega) (by omega),Nat.add_assoc,Nat.add_sub_cancel_left,mask_eq (by omega)]
    have power : 2 ^ (ds + (1 + dl)) ≤ 2 ^ 23 := Nat.pow_le_pow_right (by decide) (by omega)
    refine lt_of_le_of_lt (le_of_eq (congrArg BitVec.toNat (mask.trans way))) ?_
    rw [BitVec.toNat_ofNat]
    omega
  refine lt_of_lt_of_eq ?_ (congrArg BitVec.toNat ways.symm)
  show 0 < (BitVec.ofNat 32 (2 ^ iw)).toNat
  rw [power_toNat (by omega)]
  exact Nat.two_pow_pos _

section
variable (set : Configured v l p il)
include set

theorem Configured.line_toNat : v.pdcacheLineSize.toNat = 2 ^ l := by
  rw [set.line,power_toNat (lt_of_le_of_lt set.short (by decide))]

theorem Configured.size_toNat : v.pdcacheSize.toNat = 2 ^ p := by
  rw [set.size,power_toNat (lt_of_le_of_lt set.high (by decide))]

theorem Configured.trunc (a : Word) : (TRUNC_LINE v a).toNat = a.toNat / 2 ^ l * 2 ^ l := by
  unfold TRUNC_LINE
  rw [set.line,and_not_mask a (lt_of_le_of_lt set.short (by decide))]

theorem Configured.round {e : Word} (room : e.toNat + v.pdcacheLineSize.toNat < 2 ^ 32) :
    (ROUND_LINE v e).toNat = (e.toNat + 2 ^ l - 1) / 2 ^ l * 2 ^ l := by
  have some : 0 < 2 ^ l := Nat.two_pow_pos l
  have moved : (e + v.pdcacheLineSize - 1).toNat = e.toNat + 2 ^ l - 1 := by
    rw [set.line_toNat] at room
    have sum : (e + v.pdcacheLineSize).toNat = e.toNat + 2 ^ l := by
      rw [BitVec.toNat_add,set.line_toNat,mod_eq_of_lt room]
    have one : (1 : Word) ≤ e + v.pdcacheLineSize := by
      rw [BitVec.le_def,sum]
      show 1 ≤ _
      omega
    rw [BitVec.toNat_sub_of_le one,sum]
    rfl
  have down := and_not_mask (e + v.pdcacheLineSize - 1) (lt_of_le_of_lt set.short (by decide) : l < 32)
  rw [← set.line,moved] at down
  exact down
end

theorem sweep_stop (past : ¬va < eva) : sweep body step eva (fuel + 1) va = some [] := if_neg past
theorem sweep_more (under : va < eva) : sweep body step eva (fuel + 1) va = (sweep body step eva fuel (va + step)).map (body va ++ ·) := if_pos under

theorem sweep_class (dvd : step.toNat ∣ 2 ^ 32) : ∀ {fuel : Nat} {va : Word} {ops : List Issue}, sweep body step eva fuel va = some ops →
    ∀ a ∈ ops, ∃ at', a ∈ body at' ∧ at'.toNat % step.toNat = va.toNat % step.toNat := by
  intro fuel
  induction fuel with
  | zero =>
    intro va ops run
    cases run
  | succ fuel ih =>
    intro va ops run a held
    by_cases under : va < eva
    · rw [sweep_more under] at run
      obtain ⟨rest,ran,rfl⟩ := Option.map_eq_some_iff.mp run
      rcases mem_append.mp held with here | later
      · exact ⟨va,here,rfl⟩
      obtain ⟨at',inside,same⟩ := ih ran a later
      refine ⟨at',inside,same.trans ?_⟩
      rw [BitVec.toNat_add,mod_mod_of_dvd _ dvd,add_mod_right]
    rw [sweep_stop under] at run
    cases run
    cases held

theorem sweep_stuck (dvd : step.toNat ∣ 2 ^ 32) (none : ∀ a : Word, a.toNat % step.toNat = va.toNat % step.toNat → a < eva) (fuel : Nat) :
    sweep body step eva fuel va = .none := by
  induction fuel generalizing va with
  | zero => rfl
  | succ fuel ih =>
    rw [sweep_more (none va rfl),ih]
    · rfl
    intro a same
    refine none a (same.trans ?_)
    rw [BitVec.toNat_add,mod_mod_of_dvd _ dvd,add_mod_right]

theorem sweep_covers (body : Word → List Issue) (some : 0 < step.toNat) (room : eva.toNat + step.toNat ≤ 2 ^ 32) : ∀ (gap : Nat) (va : Word), eva.toNat - va.toNat ≤ gap →
    ∃ fuel ops, sweep body step eva fuel va = .some ops ∧
      ∀ k (at' : Word), at'.toNat = va.toNat + k * step.toNat → at'.toNat < eva.toNat → ∀ a ∈ body at', a ∈ ops := by
  intro gap
  induction gap with
  | zero =>
    intro va near
    have past : ¬va < eva := fun under => by
      rw [BitVec.lt_def] at under
      omega
    refine ⟨1,[],sweep_stop past,?_⟩
    intro k at' place under
    omega
  | succ gap ih =>
    intro va near
    by_cases under : va < eva
    · rw [BitVec.lt_def] at under
      have next : (va + step).toNat = va.toNat + step.toNat := by
        rw [BitVec.toNat_add,mod_eq_of_lt (by omega)]
      obtain ⟨fuel,ops,run,all⟩ := ih (va + step) (by omega)
      refine ⟨fuel + 1,body va ++ ops,?_,?_⟩
      · rw [sweep_more (BitVec.lt_def.mpr under),run]
        rfl
      intro k at' place inside a held
      match k with
      | 0 =>
        have here : at' = va := BitVec.eq_of_toNat_eq (by rw [place,zero_mul,add_zero])
        exact mem_append_left _ (here ▸ held)
      | k+1 =>
        refine mem_append_right _ (all k at' ?_ inside a held)
        rw [next,place,succ_mul]
        omega
    refine ⟨1,[],sweep_stop under,?_⟩
    intro k at' place inside
    rw [BitVec.lt_def] at under
    omega

theorem Configured.ends (set : Configured v l p il) (room : sva.toNat + size.toNat + v.pdcacheLineSize.toNat < 2 ^ 32) :
    ∃ first last, (TRUNC_LINE v sva).toNat = first * 2 ^ l ∧ first * 2 ^ l ≤ sva.toNat ∧ sva.toNat < first * 2 ^ l + 2 ^ l ∧
      (ROUND_LINE v (sva + size)).toNat = last * 2 ^ l ∧ sva.toNat + size.toNat ≤ last * 2 ^ l ∧
      last * 2 ^ l < sva.toNat + size.toNat + 2 ^ l := by
  have some : 0 < 2 ^ l := Nat.two_pow_pos l
  have sum : (sva + size).toNat = sva.toNat + size.toNat := by
    rw [BitVec.toNat_add,mod_eq_of_lt (by omega)]
  refine ⟨sva.toNat / 2 ^ l,(sva.toNat + size.toNat + 2 ^ l - 1) / 2 ^ l,set.trunc sva,div_mul_le_self _ _,lt_div_mul_add some,?_,?_,?_⟩
  · rw [set.round (by rw [sum]; exact room),sum]
  · have := lt_div_mul_add some (a := sva.toNat + size.toNat + 2 ^ l - 1)
    omega
  have := div_mul_le_self (sva.toNat + size.toNat + 2 ^ l - 1) (2 ^ l)
  omega

variable {first last : Nat}

theorem Configured.covered (set : Configured v l p il) (inside : Covers sva size x) (low : first * 2 ^ l ≤ sva.toNat)
    (high : sva.toNat + size.toNat ≤ last * 2 ^ l) :
    ∃ k, (TRUNC_LINE v x).toNat = (first + k) * 2 ^ l ∧ first + k < last := by
  have some : 0 < 2 ^ l := Nat.two_pow_pos l
  obtain ⟨after,below⟩ := inside
  have reached : first ≤ x.toNat / 2 ^ l := (le_div_iff_mul_le some).mpr (by omega)
  have short : x.toNat / 2 ^ l < last := (div_lt_iff_lt_mul some).mpr (by omega)
  refine ⟨x.toNat / 2 ^ l - first,?_,by omega⟩
  rw [set.trunc,Nat.add_sub_cancel' reached]

theorem Configured.trunc_line (set : Configured v l p il) {k : Nat} (aligned : a.toNat = k * 2 ^ l) : TRUNC_LINE v a = a := by
  apply BitVec.eq_of_toNat_eq
  rw [set.trunc,aligned,Nat.mul_div_cancel _ (Nat.two_pow_pos l)]

-- A loop over the D-cache that steps by its size rather than by a line.
def rangeLoop (v : Vars) (op : Op) (sva size : Word) (fuel : Nat) : Option (List Issue) :=
  sweep (fun va => [(va,op)]) v.pdcacheSize (ROUND_LINE v (sva + size)) fuel (TRUNC_LINE v sva)

-- The cache holds one line only, or the loop has at most one line to do and
-- the step past it does not wrap.
def OneStep (v : Vars) (sva size : Word) : Prop :=
  v.pdcacheSize = v.pdcacheLineSize ∨ ROUND_LINE v (sva + size) ≤ TRUNC_LINE v sva ∨
    ROUND_LINE v (sva + size) - TRUNC_LINE v sva = v.pdcacheLineSize ∧ (TRUNC_LINE v sva).toNat + v.pdcacheSize.toNat < 2 ^ 32

section
variable (set : Configured v l p il)
include set

theorem range_one_line (room : sva.toNat + size.toNat + v.pdcacheLineSize.toNat < 2 ^ 32)
    (same : v.pdcacheSize = v.pdcacheLineSize) : RangeDone v op (rangeLoop v op sva size) sva size := by
  have some : 0 < 2 ^ l := Nat.two_pow_pos l
  obtain ⟨first,last,start,low,-,finish,high,close⟩ := set.ends room
  have step : v.pdcacheSize.toNat = 2 ^ l := by rw [same,set.line_toNat]
  have fits : (ROUND_LINE v (sva + size)).toNat + v.pdcacheSize.toNat ≤ 2 ^ 32 := by
    have power : (2 : Nat) ^ 32 = 2 ^ (32 - l) * 2 ^ l := by
      rw [← Nat.pow_add,Nat.sub_add_cancel (Nat.le_trans set.short (by decide))]
    have under : last * 2 ^ l < 2 ^ (32 - l) * 2 ^ l := by
      omega
    have whole : last + 1 ≤ 2 ^ (32 - l) := Nat.lt_of_mul_lt_mul_right under
    have := mul_le_mul_right (2 ^ l) whole
    rw [finish,step,power]
    rw [succ_mul] at this
    exact this
  obtain ⟨fuel,ops,run,all⟩ := sweep_covers (fun va => [(va,op)]) (by rw [step]; exact some) fits _ (TRUNC_LINE v sva) (le_refl _)
  refine ⟨fuel,ops,run,?_⟩
  intro x inside
  obtain ⟨k,place,short⟩ := set.covered inside low high
  refine ⟨TRUNC_LINE v x,all k _ ?_ ?_ _ (mem_singleton.mpr rfl),set.trunc_line place⟩
  · rw [place,start,step,add_mul]
  rw [place,finish]
  exact mul_lt_mul_of_pos_right short some

theorem range_empty (room : sva.toNat + size.toNat + v.pdcacheLineSize.toNat < 2 ^ 32)
    (none : ROUND_LINE v (sva + size) ≤ TRUNC_LINE v sva) : RangeDone v op (rangeLoop v op sva size) sva size := by
  obtain ⟨first,last,start,low,-,finish,high,-⟩ := set.ends room
  rw [BitVec.le_def,start,finish] at none
  refine ⟨1,[],sweep_stop fun under => ?_,?_⟩
  · rw [BitVec.lt_def,start,finish] at under
    omega
  intro x ⟨after,below⟩
  omega

theorem Configured.one_line (start : (TRUNC_LINE v sva).toNat = first * 2 ^ l)
    (finish : (ROUND_LINE v (sva + size)).toNat = last * 2 ^ l) (under : first < last) :
    ROUND_LINE v (sva + size) - TRUNC_LINE v sva = v.pdcacheLineSize ↔ last = first + 1 := by
  have some : 0 < 2 ^ l := Nat.two_pow_pos l
  have below : first * 2 ^ l < last * 2 ^ l := mul_lt_mul_of_pos_right under some
  have gap : (ROUND_LINE v (sva + size) - TRUNC_LINE v sva).toNat = (last - first) * 2 ^ l := by
    rw [BitVec.toNat_sub_of_le (by rw [BitVec.le_def,start,finish]; omega),start,finish,Nat.sub_mul]
  constructor
  · intro one
    rw [one,set.line_toNat] at gap
    have : 1 * 2 ^ l = (last - first) * 2 ^ l := by rw [one_mul]; exact gap
    have := eq_of_mul_eq_mul_right some this
    omega
  rintro rfl
  apply BitVec.eq_of_toNat_eq
  rw [gap,set.line_toNat,Nat.add_sub_cancel_left,Nat.one_mul]

theorem range_single (room : sva.toNat + size.toNat + v.pdcacheLineSize.toNat < 2 ^ 32)
    (one : ROUND_LINE v (sva + size) - TRUNC_LINE v sva = v.pdcacheLineSize)
    (step : (TRUNC_LINE v sva).toNat + v.pdcacheSize.toNat < 2 ^ 32) : RangeDone v op (rangeLoop v op sva size) sva size := by
  obtain ⟨first,last,start,low,-,finish,high,-⟩ := set.ends room
  by_cases under : first < last
  · have next := (set.one_line start finish under).mp one
    have wide : 2 ^ l ≤ v.pdcacheSize.toNat := by
      rw [set.size_toNat]
      exact Nat.pow_le_pow_right (by decide) set.order
    have more : TRUNC_LINE v sva < ROUND_LINE v (sva + size) := by
      rw [BitVec.lt_def,start,finish]
      exact Nat.mul_lt_mul_of_pos_right under (Nat.two_pow_pos l)
    have past : ¬TRUNC_LINE v sva + v.pdcacheSize < ROUND_LINE v (sva + size) := by
      rw [BitVec.lt_def,BitVec.toNat_add,mod_eq_of_lt step,start,finish,next,succ_mul]
      omega
    refine ⟨2,[(TRUNC_LINE v sva,op)],?_,?_⟩
    · show sweep _ _ _ 2 _ = _
      rw [sweep_more more,sweep_stop past]
      rfl
    intro x inside
    obtain ⟨k,place,short⟩ := set.covered inside low high
    obtain rfl : k = 0 := by omega
    refine ⟨TRUNC_LINE v sva,mem_singleton.mpr rfl,(set.trunc_line start).trans ?_⟩
    exact BitVec.eq_of_toNat_eq (by rw [start,place,add_zero])
  exact range_empty set room (by
    rw [BitVec.le_def,start,finish]
    exact Nat.mul_le_mul_right _ (Nat.le_of_not_lt under))

theorem second_line (room : sva.toNat + size.toNat + v.pdcacheLineSize.toNat < 2 ^ 32) (wide : l < p) (start : (TRUNC_LINE v sva).toNat = first * 2 ^ l) (low : first * 2 ^ l ≤ sva.toNat)
    (near : sva.toNat < first * 2 ^ l + 2 ^ l) (close : last * 2 ^ l < sva.toNat + size.toNat + 2 ^ l) (two : first + 2 ≤ last) :
    ¬RangeDone v op (rangeLoop v op sva size) sva size := by
  have some : 0 < 2 ^ l := Nat.two_pow_pos l
  rintro ⟨fuel,ops,run,all⟩
  have far := mul_le_mul_right (2 ^ l) two
  rw [add_mul,two_mul] at far
  have place : (BitVec.ofNat 32 ((first + 1) * 2 ^ l)).toNat = (first + 1) * 2 ^ l := by
    rw [BitVec.toNat_ofNat,mod_eq_of_lt]
    rw [succ_mul]
    omega
  obtain ⟨a,held,line⟩ := all (BitVec.ofNat 32 ((first + 1) * 2 ^ l)) ⟨by rw [place,succ_mul]; omega,by rw [place,succ_mul]; omega⟩
  obtain ⟨b,issued,same⟩ := sweep_class (by rw [set.size_toNat]; exact pow_dvd_pow 2 (le_trans set.high (by decide))) run _ held
  obtain rfl : a = b := (Prod.mk.inj (mem_singleton.mp issued)).1
  have lineNat := congrArg BitVec.toNat line
  rw [set.trunc,set.trunc,place,Nat.mul_div_cancel _ some] at lineNat
  rw [set.size_toNat,start] at same
  -- Every issued address keeps the first line's remainder by the cache's size.
  have dvd : 2 ^ (l + 1) ∣ 2 ^ p := pow_dvd_pow 2 wide
  have shift := congrArg (· % 2 ^ (l + 1)) same
  rw [mod_mod_of_dvd _ dvd,mod_mod_of_dvd _ dvd] at shift
  have whole : a.toNat / 2 ^ l = first + 1 := eq_of_mul_eq_mul_right some lineNat
  have parts := div_add_mod a.toNat (2 ^ l)
  have halves := congrArg (· / 2 ^ l) shift
  rw [Nat.pow_succ,Nat.mod_mul_right_div_self,Nat.mod_mul_right_div_self,whole,Nat.mul_div_cancel _ some] at halves
  omega

theorem wraps_stuck (start : (TRUNC_LINE v sva).toNat = first * 2 ^ l)
    (finish : (ROUND_LINE v (sva + size)).toNat = last * 2 ^ l) (under : first < last)
    (wrap : 2 ^ 32 ≤ (TRUNC_LINE v sva).toNat + v.pdcacheSize.toNat) (fuel : Nat) : rangeLoop v op sva size fuel = none := by
  refine sweep_stuck (by rw [set.size_toNat]; exact pow_dvd_pow 2 (le_trans set.high (by decide))) ?_ fuel
  intro a same
  have below : first * 2 ^ l < last * 2 ^ l := Nat.mul_lt_mul_of_pos_right under (Nat.two_pow_pos l)
  rw [BitVec.lt_def,finish]
  rw [set.size_toNat] at same wrap
  have some : 0 < 2 ^ p := Nat.two_pow_pos p
  have power : (2 : Nat) ^ 32 = 2 ^ (32 - p) * 2 ^ p := by
    rw [← Nat.pow_add,Nat.sub_add_cancel (Nat.le_trans set.high (by decide))]
  -- The start lies in the last stretch of the address space, so it is the
  -- last address of its class.
  have last' : a.toNat / 2 ^ p ≤ (TRUNC_LINE v sva).toNat / 2 ^ p := by
    have top : a.toNat / 2 ^ p < 2 ^ (32 - p) := (div_lt_iff_lt_mul some).mpr (by rw [← power]; exact a.isLt)
    have reach : 2 ^ (32 - p) - 1 ≤ (TRUNC_LINE v sva).toNat / 2 ^ p := (le_div_iff_mul_le some).mpr (by
      rw [Nat.sub_mul,← power,Nat.one_mul]
      omega)
    omega
  have lines := mul_le_mul_left (2 ^ p) last'
  have one := div_add_mod a.toNat (2 ^ p)
  have two := div_add_mod (TRUNC_LINE v sva).toNat (2 ^ p)
  omega

theorem range_exact (room : sva.toNat + size.toNat + v.pdcacheLineSize.toNat < 2 ^ 32) :
    RangeDone v op (rangeLoop v op sva size) sva size ↔ OneStep v sva size := by
  obtain ⟨first,last,start,low,near,finish,high,close⟩ := set.ends room
  constructor
  · intro done
    rcases lt_or_ge first last with under | excess
    · rcases eq_or_lt_of_le set.order with rfl | wide
      · exact .inl (set.size.trans set.line.symm)
      have one : last = first + 1 := by
        by_contra more
        exact second_line set room wide start low near close (by omega) done
      refine .inr (.inr ⟨(set.one_line start finish under).mpr one,?_⟩)
      by_contra wrap
      obtain ⟨fuel,ops,run,-⟩ := done
      rw [wraps_stuck set start finish under (Nat.le_of_not_lt wrap)] at run
      cases run
    refine .inr (.inl ?_)
    rw [BitVec.le_def,start,finish]
    exact mul_le_mul_right _ excess
  rintro (same | none | ⟨one,step⟩)
  · exact range_one_line set room same
  · exact range_empty set room none
  · exact range_single set room one step
end

theorem sweep_returns (body : Word → List Issue) (some : 0 < step.toNat) (room : eva.toNat + step.toNat ≤ 2 ^ 32) (va : Word) : ∃ fuel ops, sweep body step eva fuel va = .some ops := by
  obtain ⟨fuel,ops,run,-⟩ := sweep_covers body some room _ va (le_refl _)
  exact ⟨fuel,ops,run⟩

theorem sweep_fuel : ∀ {fuel more : Nat} {va : Word} {ops : List Issue}, sweep body step eva fuel va = some ops → fuel ≤ more →
    sweep body step eva more va = some ops := by
  intro fuel
  induction fuel with
  | zero =>
    intro more va ops run
    cases run
  | succ fuel ih =>
    intro more va ops run le
    obtain ⟨more,rfl⟩ : ∃ m, more = m + 1 := ⟨more - 1,by omega⟩
    by_cases under : va < eva
    · rw [sweep_more under] at run ⊢
      obtain ⟨rest,ran,rfl⟩ := Option.map_eq_some_iff.mp run
      rw [ih ran (by omega)]
      rfl
    rw [sweep_stop under] at run ⊢
    exact run

theorem Configured.round_le (set : Configured v l p il) {e : Word} (room : e.toNat + v.pdcacheLineSize.toNat < 2 ^ 32) :
    (ROUND_LINE v e).toNat ≤ e.toNat + 2 ^ l - 1 := by
  rw [set.round room]
  exact div_mul_le_self _ _

theorem Configured.index_lt (set : Configured v l p il) (a : Word) : (a &&& v.pdcacheWayMask ||| AVR32_P1_START).toNat < 2 ^ 31 + 2 ^ 30 := by
  have low : (a &&& v.pdcacheWayMask).toNat < 2 ^ 30 := by
    exact lt_of_le_of_lt and_le_right set.wayMask
  have sum := two_pow_add_eq_or_of_lt (lt_trans low (by decide : 2 ^ 30 < 2 ^ 31)) 1
  rw [mul_one] at sum
  have base : AVR32_P1_START.toNat = 2 ^ 31 := rfl
  rw [BitVec.toNat_or,base,Nat.or_comm,← sum]
  omega

theorem Configured.line_le (set : Configured v l p il) : 2 ^ l ≤ 2 ^ 8 ∧ 2 ^ il ≤ 2 ^ 8 :=
  ⟨Nat.pow_le_pow_right (by decide) set.short,Nat.pow_le_pow_right (by decide) set.ishort⟩

theorem ways_op {stride : Word} : ∀ {count : Nat} {tva : Word} {issue : Issue}, issue ∈ ways op stride count tva → issue.2 = op
  | _+1,_,_,held => (mem_cons.mp held).elim (fun here => here ▸ rfl) fun later => ways_op later

theorem sweep_mem : ∀ {fuel : Nat} {va : Word} {ops : List Issue}, sweep body step eva fuel va = some ops → ∀ issue ∈ ops, ∃ place, issue ∈ body place := by
  intro fuel
  induction fuel with
  | zero =>
    intro va ops run
    cases run
  | succ fuel ih =>
    intro va ops run issue held
    by_cases under : va < eva
    · rw [sweep_more under] at run
      obtain ⟨rest,ran,rfl⟩ := Option.map_eq_some_iff.mp run
      exact (mem_append.mp held).elim (fun here => ⟨va,here⟩) fun later => ih ran issue later
    rw [sweep_stop under] at run
    cases run
    cases held

theorem wbinvIndex_ops (run : avr32DcacheWbinvRangeIndex v fuel sva size = some ops) (a : Word) : (a,Op.icacheInv) ∉ ops := by
  intro held
  obtain ⟨place,inside⟩ := sweep_mem run _ held
  cases ways_op inside

theorem index_returns (set : Configured v l p il) (sva size : Word) (body : Word → List Issue) (short : size.toNat ≤ 2 ^ 8) (some : 0 < step.toNat)
    (small : step.toNat ≤ 2 ^ 8) (va : Word) :
    ∃ fuel ops, sweep body step (ROUND_LINE v ((sva &&& v.pdcacheWayMask ||| AVR32_P1_START) + size)) fuel va = .some ops := by
  have place := set.index_lt sva
  obtain ⟨line,-⟩ := set.line_le
  have sum : ((sva &&& v.pdcacheWayMask ||| AVR32_P1_START) + size).toNat = (sva &&& v.pdcacheWayMask ||| AVR32_P1_START).toNat + size.toNat := by
    rw [BitVec.toNat_add,mod_eq_of_lt (by omega)]
  have round := set.round_le (e := (sva &&& v.pdcacheWayMask ||| AVR32_P1_START) + size) (by rw [sum,set.line_toNat]; omega)
  exact sweep_returns body some (by omega) va

theorem sync_ops (set : Configured v l p il) (run : avr32IcacheSyncRangeIndex v fuel sva size = some ops) (a : Word) : (a,Op.icacheInv) ∉ ops := by
  obtain ⟨first,ran,run⟩ := Option.bind_eq_some_iff.mp run
  obtain ⟨rest,swept,run⟩ := Option.bind_eq_some_iff.mp run
  cases run
  intro held
  rcases mem_append.mp held with here | later
  · exact wbinvIndex_ops ran a here
  obtain ⟨place,inside⟩ := sweep_mem swept _ later
  rw [set.iloop] at inside
  cases inside

theorem sync_exact (set : Configured v l p il) : SyncDone v sva size ↔ size = 0 := by
  constructor
  · rintro ⟨fuel,ops,run,all⟩
    by_contra more
    have some : 0 < size.toNat := Nat.pos_of_ne_zero fun zero => more (BitVec.eq_of_toNat_eq zero)
    obtain ⟨a,held,-⟩ := all sva ⟨Nat.le_refl _,by omega⟩ 0 set.iways
    exact sync_ops set run a held
  rintro rfl
  obtain ⟨dline,iline⟩ := set.line_le
  have some := Nat.two_pow_pos l
  have place := set.index_lt sva
  have room : (sva &&& v.pdcacheWayMask ||| AVR32_P1_START).toNat + (0 : Word).toNat + v.pdcacheLineSize.toNat < 2 ^ 32 := by
    rw [set.line_toNat]
    show _ + 0 + _ < _
    omega
  obtain ⟨first,last,start,low,near,finish,high,close⟩ := set.ends room
  have gap : (ROUND_LINE v ((sva &&& v.pdcacheWayMask ||| AVR32_P1_START) + 0) - TRUNC_LINE v (sva &&& v.pdcacheWayMask ||| AVR32_P1_START)).toNat ≤ 2 ^ 8 := by
    rw [BitVec.toNat_sub_of_le (by rw [BitVec.le_def,start,finish]; exact Nat.le_trans low high),start,finish]
    have : last * 2 ^ l < first * 2 ^ l + 2 ^ l + 2 ^ l := by
      rw [show (0 : Word).toNat = 0 from rfl] at close
      omega
    have lines : last ≤ first + 1 := by
      have : last * 2 ^ l < (first + 2) * 2 ^ l := by
        rw [Nat.add_mul,Nat.two_mul]
        omega
      have := Nat.lt_of_mul_lt_mul_right this
      omega
    have := Nat.mul_le_mul_right (2 ^ l) lines
    rw [Nat.succ_mul] at this
    omega
  obtain ⟨fuel,ops,run⟩ := index_returns set (TRUNC_LINE v (sva &&& v.pdcacheWayMask ||| AVR32_P1_START)) _
    (ways .dcacheWbinv v.pdcacheStride v.pdcacheLoopcount.toNat) gap (by rw [set.line_toNat]; exact some) (by rw [set.line_toNat]; exact dline)
    (TRUNC_LINE v (TRUNC_LINE v (sva &&& v.pdcacheWayMask ||| AVR32_P1_START) &&& v.pdcacheWayMask ||| AVR32_P1_START))
  have istep : v.picacheLineSize.toNat = 2 ^ il := by rw [set.iline,power_toNat (Nat.lt_of_le_of_lt set.ishort (by decide))]
  obtain ⟨more,rest,ran⟩ := index_returns set sva 0 (ways .icacheInv v.picacheStride v.picacheLoopcount.toNat) (by decide)
    (by rw [istep]; exact Nat.two_pow_pos il) (by rw [istep]; exact iline)
    (TRUNC_LINE v (sva &&& v.pdcacheWayMask ||| AVR32_P1_START))
  refine ⟨max fuel more,ops ++ rest,?_,?_⟩
  · unfold avr32IcacheSyncRangeIndex avr32DcacheWbinvRangeIndex
    dsimp only
    rw [sweep_fuel run (Nat.le_max_left _ _),sweep_fuel ran (Nat.le_max_right _ _)]
    rfl
  intro x ⟨after,below⟩
  exact absurd below (Nat.not_lt.mpr after)

-- What each range operation does on the words of CONFIG1: the D-cache loops
-- advance by the whole cache's size, and the I-cache ones never run.
theorem cache_ranges_exact (config1 sva size : Word) (iset : AVR32_CONFIG1_ICACHE_LINE_SIZE config1 ≠ 0)
    (dset : AVR32_CONFIG1_DCACHE_LINE_SIZE config1 ≠ 0) (v : Vars) (config : v = avr32ConfigCache config1 Vars.initial)
    (room : sva.toNat + size.toNat + v.pdcacheLineSize.toNat < 2 ^ 32) :
    (RangeDone v .dcacheWbinv (fun fuel => avr32DcacheWbinvRange v fuel sva size) sva size ↔ OneStep v sva size) ∧
      (RangeDone v .dcacheInv (fun fuel => avr32DcacheInvRange v fuel sva size) sva size ↔ OneStep v sva size) ∧
      (SyncDone v sva size ↔ size = 0) := by
  subst config
  obtain ⟨l,p,il,set⟩ := configured iset dset
  exact ⟨range_exact set room,range_exact set room,sync_exact set⟩

theorem cache_ranges_exact_two_lines :
    (SyncDone (avr32ConfigCache 0x789e2 Vars.initial) 0x1000 64 ↔ (64 : Word) = 0) :=
  (cache_ranges_exact 0x789e2 0x1000 64 (by decide) (by decide) _ rfl (by decide)).2.2

theorem second_line_missed :
    ¬(RangeDone (avr32ConfigCache 0x789e2 Vars.initial) .dcacheWbinv
        (fun fuel => avr32DcacheWbinvRange (avr32ConfigCache 0x789e2 Vars.initial) fuel 0x1000 64) 0x1000 64 ∨
      RangeDone (avr32ConfigCache 0x789e2 Vars.initial) .dcacheInv
        (fun fuel => avr32DcacheInvRange (avr32ConfigCache 0x789e2 Vars.initial) fuel 0x1000 64) 0x1000 64 ∨
      SyncDone (avr32ConfigCache 0x789e2 Vars.initial) 0x1000 64) := by
  obtain ⟨l,p,il,set⟩ := @configured 0x789e2 (by decide) (by decide)
  have wide : ¬OneStep (avr32ConfigCache 0x789e2 Vars.initial) 0x1000 64 := by
    unfold OneStep
    decide
  rintro (wbinv | inv | sync)
  · exact wide ((range_exact set (by decide)).mp wbinv)
  · exact wide ((range_exact set (by decide)).mp inv)
  · exact absurd ((sync_exact set).mp sync) (by decide)
end NetbsdAvr32.CacheOps
