import Mathlib.Data.BitVec
import NetbsdAvr32.Outcome
import NetbsdAvr32.NextAligned

-- sys/kern/subr_vmem.c: boundary tags and the arithmetic on them.
namespace NetbsdAvr32.Vmem
open Outcome Nat

-- vmem_addr_t and vmem_size_t
abbrev Word := BitVec 32
def kassert (p : Prop) [Decidable p] (text : String) : Except Halt Unit := if p then .ok () else .error (.panic text)

inductive BtType where
  | span
  | spanStatic
  | free
  | busy
  deriving DecidableEq, Repr

-- struct vmem_btag without its links.
structure Btag where
  btStart : Word
  btSize : Word
  btType : BtType
  deriving DecidableEq, Repr

def BT_END (bt : Btag) : Word := bt.btStart + bt.btSize
def VMEM_ADDR_NULL : Word := 0
def VMEM_ALIGNUP (addr align : Word) : Word := -(-addr &&& -align)
def VMEM_CROSS_P (addr1 addr2 boundary : Word) : Bool := (addr1 ^^^ addr2) &&& -boundary ≠ 0

-- What a caller may ask of the place.
structure Request where
  size : Word
  align : Word
  phase : Word
  nocross : Word
  minaddr : Word
  maxaddr : Word
  deriving DecidableEq, Repr

def checked (bt : Btag) (q : Request) (start : Word) : Except Halt Word := do
  kassert (start &&& (q.align - 1) = q.phase) "(start & (align - 1)) == phase"
  kassert (VMEM_CROSS_P start (start + q.size - 1) q.nocross = false) "!VMEM_CROSS_P(start, start + size - 1, nocross)"
  kassert (q.minaddr ≤ start) "minaddr <= start"
  kassert (q.maxaddr = 0 ∨ start + q.size ≤ q.maxaddr) "maxaddr == 0 || start + size <= maxaddr"
  kassert (bt.btStart ≤ start) "bt->bt_start <= start"
  kassert (start + q.size ≤ BT_END bt) "start + size <= BT_END(bt)"
  return start

def vmemFit (bt : Btag) (q : Request) : Except Halt Word := do
  kassert (bt.btSize ≥ q.size) "bt->bt_size >= size"
  let start := if bt.btStart < q.minaddr then q.minaddr else bt.btStart
  let fin := if BT_END bt > q.maxaddr - 1 then q.maxaddr - 1 else BT_END bt
  if start ≥ fin then return VMEM_ADDR_NULL
  let start := VMEM_ALIGNUP (start - q.phase) q.align + q.phase
  let start := if start < bt.btStart then start + q.align else start
  let start ← if VMEM_CROSS_P start (start + q.size - 1) q.nocross then do
      kassert (q.align < q.nocross) "align < nocross"
      pure (VMEM_ALIGNUP (start - q.phase) q.nocross + q.phase)
    else pure start
  if start < fin ∧ fin - start ≥ q.size then checked bt q start else return VMEM_ADDR_NULL

open NextAligned PowerMask

theorem power_dvd {l : Nat} (low : l < 32) : 2 ^ l ∣ 4294967296 := pow_dvd_pow 2 (n := 32) (le_of_lt low)
theorem power_half {l : Nat} (low : l < 32) : 2 ^ l ≤ 2147483648 := Nat.pow_le_pow_right (n := 2) (by decide) (Nat.le_of_lt_succ low)

theorem alignup_toNat {l : Nat} (low : l < 32) (c phase : Word) :
    (VMEM_ALIGNUP (c - phase) (BitVec.ofNat 32 (2 ^ l)) + phase).toNat = next (2 ^ l) phase.toNat c.toNat % 4294967296 := by
  have pos : 0 < 2 ^ l := Nat.two_pow_pos l
  have dvd := power_dvd low
  have back : -(c - phase) = phase - c := neg_sub c phase
  have down := and_neg (phase - c) low
  have residue : (phase - c).toNat % 2 ^ l = (phase.toNat + (2 ^ l - c.toNat % 2 ^ l)) % 2 ^ l := by
    have parts := div_add_mod c.toNat (2 ^ l)
    have split : 4294967296 - c.toNat + phase.toNat + 2 ^ l * (c.toNat / 2 ^ l + 1) = phase.toNat + (2 ^ l - c.toNat % 2 ^ l) + 4294967296 := by
      rw [mul_succ]
      omega
    have whole : 4294967296 % 2 ^ l = 0 := mod_eq_zero_of_dvd dvd
    rw [BitVec.toNat_sub,mod_mod_of_dvd _ dvd,← add_mul_mod_self_left _ (2 ^ l) (c.toNat / 2 ^ l + 1),split,add_mod,whole,
      add_zero,mod_mod]
  have parts := div_add_mod (phase - c).toNat (2 ^ l)
  have full : (phase - c).toNat = (4294967296 - c.toNat + phase.toNat) % 4294967296 := BitVec.toNat_sub ..
  unfold VMEM_ALIGNUP next
  rw [back,BitVec.toNat_add,BitVec.toNat_neg,down,← residue]
  rw [mul_comm] at parts
  generalize (phase - c).toNat / 2 ^ l * 2 ^ l = g at *
  generalize (phase - c).toNat % 2 ^ l = e at *
  omega

theorem cross_zero (x y : Word) : VMEM_CROSS_P x y 0 = false := by
  unfold VMEM_CROSS_P
  simp

theorem cross_power {k : Nat} (low : k < 32) (x y : Word) :
    VMEM_CROSS_P x y (BitVec.ofNat 32 (2 ^ k)) = true ↔ x.toNat / 2 ^ k ≠ y.toNat / 2 ^ k := by
  have down := and_neg (x ^^^ y) low
  have pos : 0 < 2 ^ k := Nat.two_pow_pos k
  have quotient : (x ^^^ y).toNat / 2 ^ k = (x.toNat / 2 ^ k) ^^^ (y.toNat / 2 ^ k) := by
    rw [BitVec.toNat_xor,← shiftRight_eq_div_pow,shiftRight_xor_distrib,shiftRight_eq_div_pow,shiftRight_eq_div_pow]
  unfold VMEM_CROSS_P
  rw [decide_eq_true_iff,ne_eq,ne_eq,← BitVec.toNat_inj,down,quotient,not_iff_not]
  constructor
  · intro zero
    have none := (Nat.mul_eq_zero.mp zero).resolve_right (Nat.ne_of_gt pos)
    rw [← Nat.xor_zero (x.toNat / 2 ^ k),← Nat.xor_self (y.toNat / 2 ^ k),← Nat.xor_assoc,none,Nat.zero_xor]
  intro same
  rw [same,Nat.xor_self,Nat.zero_mul]
  rfl

-- A free tag and a request that vmem_xalloc passes on.
structure Asked (bt : Btag) (q : Request) : Prop where
  room : q.size.toNat ≤ bt.btSize.toNat
  some : 0 < q.size.toNat
  inside : bt.btStart.toNat + bt.btSize.toNat ≤ 4294967296
  power : ∃ l < 32, q.align = BitVec.ofNat 32 (2 ^ l)
  phase : q.phase.toNat < q.align.toNat
  boundary : q.nocross = 0 ∨ ∃ k < 32, q.nocross = BitVec.ofNat 32 (2 ^ k)
  base : Uncut q.nocross.toNat q.size.toNat q.phase.toNat
  order : q.maxaddr = 0 ∨ q.minaddr.toNat < q.maxaddr.toNat

variable {bt : Btag} {q : Request}

def lower (bt : Btag) (q : Request) : Nat := max bt.btStart.toNat q.minaddr.toNat

def upper (bt : Btag) (q : Request) : Nat :=
  min ((bt.btStart.toNat + bt.btSize.toNat) % 4294967296) ((q.maxaddr.toNat + 4294967295) % 4294967296)

-- The first address from the tag's start and minaddr on with the phase asked for.
def aligned (bt : Btag) (q : Request) : Nat := next q.align.toNat q.phase.toNat (lower bt q)

-- The same that no multiple of nocross cuts either.
def first (bt : Btag) (q : Request) : Nat := clear q.nocross.toNat q.phase.toNat q.size.toNat (aligned bt q)

-- Where the rounding has gone round past the last address.
def began (bt : Btag) (q : Request) : Nat :=
  if aligned bt q < 4294967296 then aligned bt q
  else if q.phase.toNat < bt.btStart.toNat then q.phase.toNat + q.align.toNat else q.phase.toNat

def landing (bt : Btag) (q : Request) : Nat := clear q.nocross.toNat q.phase.toNat q.size.toNat (began bt q) % 4294967296

namespace Asked
variable (asked : Asked bt q)
include asked

theorem nest : q.nocross.toNat ≠ 0 → q.align.toNat ∣ q.nocross.toNat ∨ q.nocross.toNat ∣ q.align.toNat := by
  intro bounded
  obtain ⟨l,low,align⟩ := asked.power
  rcases asked.boundary with zero | ⟨k,low',nocross⟩
  · rw [zero] at bounded
    exact absurd rfl bounded
  rw [align,nocross,power_toNat low,power_toNat low']
  rcases le_total l k with le | le
  · exact .inl (pow_dvd_pow 2 le)
  · exact .inr (pow_dvd_pow 2 le)

theorem align_half : q.align.toNat ≤ 2147483648 := by
  obtain ⟨l,low,align⟩ := asked.power
  rw [align,power_toNat low]
  exact power_half low

theorem align_dvd : q.align.toNat ∣ 4294967296 := by
  obtain ⟨l,low,align⟩ := asked.power
  rw [align,power_toNat low]
  exact power_dvd low

theorem boundary_half : q.nocross.toNat ≤ 2147483648 := by
  rcases asked.boundary with zero | ⟨k,low,nocross⟩
  · rw [zero]
    exact zero_le _
  rw [nocross,power_toNat low]
  exact power_half low

theorem boundary_dvd (bounded : q.nocross.toNat ≠ 0) : q.nocross.toNat ∣ 4294967296 := by
  rcases asked.boundary with zero | ⟨k,low,nocross⟩
  · rw [zero] at bounded
    exact absurd rfl bounded
  rw [nocross,power_toNat low]
  exact power_dvd low

theorem lower_lt : lower bt q < 4294967296 := Nat.max_lt.mpr ⟨bt.btStart.isLt,q.minaddr.isLt⟩

theorem rounded (c : Word) : (VMEM_ALIGNUP (c - q.phase) q.align + q.phase).toNat = next q.align.toNat q.phase.toNat c.toNat % 4294967296 := by
  obtain ⟨l,low,align⟩ := asked.power
  rw [align,power_toNat low]
  exact alignup_toNat low c q.phase

theorem rounded_boundary (bounded : q.nocross.toNat ≠ 0) (c : Word) :
    (VMEM_ALIGNUP (c - q.phase) q.nocross + q.phase).toNat = next q.nocross.toNat q.phase.toNat c.toNat % 4294967296 := by
  rcases asked.boundary with zero | ⟨k,low,nocross⟩
  · rw [zero] at bounded
    exact absurd rfl bounded
  rw [nocross,power_toNat low]
  exact alignup_toNat low c q.phase

theorem cross_iff (x : Word) : VMEM_CROSS_P x (x + q.size - 1) q.nocross = true ↔ ¬ Uncut q.nocross.toNat q.size.toNat x.toNat := by
  rcases asked.boundary with zero | ⟨k,low,nocross⟩
  · rw [zero,cross_zero]
    simp [Uncut]
  have bounded : q.nocross.toNat ≠ 0 := by
    rw [nocross,power_toNat low]
    exact Nat.ne_of_gt (Nat.two_pow_pos k)
  have pos := Nat.pos_of_ne_zero bounded
  have bound := x.isLt
  have some := asked.some
  have half := asked.boundary_half
  have short := asked.base.size_le bounded asked.some
  have last : (x + q.size - 1).toNat = (x.toNat + q.size.toNat - 1) % 4294967296 := by
    have one : (1 : Word).toNat = 1 := rfl
    rw [BitVec.toNat_sub,BitVec.toNat_add,one]
    omega
  have test := cross_power low x (x + q.size - 1)
  have same : 2 ^ k = q.nocross.toNat := by rw [nocross,power_toNat low]
  rw [← nocross,same,last] at test
  rw [test]
  by_cases fits : x.toNat + q.size.toNat - 1 < 4294967296
  · rw [mod_eq_of_lt fits]
    simp [Uncut,bounded]
  have none : (x.toNat + q.size.toNat - 1) % 4294967296 / q.nocross.toNat = 0 := div_eq_of_lt (by omega)
  have high : 0 < x.toNat / q.nocross.toNat := div_pos (by omega) pos
  have cut : ¬ Uncut q.nocross.toNat q.size.toNat x.toNat := by
    intro uncut
    have inside := uncut.size_le bounded some
    obtain ⟨m,whole⟩ := asked.boundary_dvd bounded
    have parts := div_add_mod x.toNat q.nocross.toNat
    have less : x.toNat / q.nocross.toNat < m := by
      rw [div_lt_iff_lt_mul pos,mul_comm,← whole]
      exact bound
    have block := mul_le_mul_left q.nocross.toNat less
    rw [mul_succ] at block
    omega
  rw [none]
  exact ⟨fun _ => cut,fun _ => ne_of_gt high⟩

theorem aligned_wrapped (past : 4294967296 ≤ aligned bt q) : aligned bt q % 4294967296 = q.phase.toNat := by
  have pos : 0 < q.align.toNat := zero_lt_of_lt asked.phase
  have near := next_lt pos q.phase.toNat (lower bt q)
  have spot := next_mod asked.phase (lower bt q)
  have bound := asked.lower_lt
  unfold aligned at past ⊢
  generalize next q.align.toNat q.phase.toNat (lower bt q) = y at *
  have rest : (y - 4294967296) % q.align.toNat = q.phase.toNat := by
    obtain ⟨m,whole⟩ := asked.align_dvd
    have split : y = y - 4294967296 + q.align.toNat * m := by omega
    rw [← spot,split,whole,Nat.add_mul_mod_self_left,Nat.add_sub_cancel]
  rw [mod_eq_of_lt (by omega)] at rest
  omega

theorem began_eq : (let start := VMEM_ALIGNUP ((if bt.btStart < q.minaddr then q.minaddr else bt.btStart) - q.phase) q.align + q.phase
    if start < bt.btStart then start + q.align else start).toNat = began bt q := by
  have from_ : (if bt.btStart < q.minaddr then q.minaddr else bt.btStart).toNat = lower bt q := by
    split
    · next less => exact (max_eq_right (le_of_lt less)).symm
    · next more => exact (max_eq_left (not_lt.mp more)).symm
  have start := asked.rounded (if bt.btStart < q.minaddr then q.minaddr else bt.btStart)
  have up : lower bt q ≤ aligned bt q := next_ge ..
  have over_ : bt.btStart.toNat ≤ lower bt q := le_max_left ..
  have half := asked.align_half
  have phase := asked.phase
  rw [from_] at start
  generalize VMEM_ALIGNUP ((if bt.btStart < q.minaddr then q.minaddr else bt.btStart) - q.phase) q.align + q.phase = y at start ⊢
  change y.toNat = aligned bt q % 4294967296 at start
  unfold began
  by_cases fits : aligned bt q < 4294967296
  · rw [mod_eq_of_lt fits] at start
    have not_below : ¬ y < bt.btStart := by
      rw [BitVec.lt_def]
      omega
    rw [if_neg not_below,if_pos fits,start]
  rw [asked.aligned_wrapped (not_lt.mp fits)] at start
  rw [if_neg fits]
  have same : y < bt.btStart ↔ q.phase.toNat < bt.btStart.toNat := by rw [BitVec.lt_def,start]
  split_ifs with below
  · rw [if_pos (same.mpr below),BitVec.toNat_add,start,mod_eq_of_lt (by omega)]
  · rw [if_neg (same.not.mpr below),start]

theorem began_spot : began bt q % q.align.toNat = q.phase.toNat := by
  unfold began
  split
  · exact next_mod asked.phase _
  split
  · rw [add_mod_right,mod_eq_of_lt asked.phase]
  · exact mod_eq_of_lt asked.phase

theorem landing_spec : landing bt q % q.align.toNat = q.phase.toNat ∧ Uncut q.nocross.toNat q.size.toNat (landing bt q) := by
  obtain ⟨_,spot,uncut⟩ := clear_spec asked.base asked.some asked.nest asked.phase asked.began_spot
  unfold landing
  refine ⟨by rw [mod_mod_of_dvd _ asked.align_dvd,spot],fun bounded => uncut.shift asked.some ?_ bounded⟩
  rw [mod_mod_of_dvd _ (asked.boundary_dvd bounded)]

theorem landing_eq {start : Word} (begun : start.toNat = began bt q) :
    (VMEM_CROSS_P start (start + q.size - 1) q.nocross = true → q.align < q.nocross) ∧
      (if VMEM_CROSS_P start (start + q.size - 1) q.nocross then VMEM_ALIGNUP (start - q.phase) q.nocross + q.phase else start).toNat = landing bt q := by
  have test := asked.cross_iff start
  rw [begun] at test
  unfold landing clear
  by_cases uncut : Uncut q.nocross.toNat q.size.toNat (began bt q)
  · have quiet : ¬ VMEM_CROSS_P start (start + q.size - 1) q.nocross = true := fun cross => test.mp cross uncut
    rw [if_neg quiet,if_pos uncut,← begun,mod_eq_of_lt start.isLt]
    exact ⟨fun cross => absurd cross quiet,rfl⟩
  have cross := test.mpr uncut
  obtain ⟨bounded,dvd,coarse⟩ := finer asked.base asked.some asked.nest (asked.began_spot.trans (mod_eq_of_lt asked.phase).symm) uncut
  have le := Nat.le_of_dvd (Nat.pos_of_ne_zero bounded) dvd
  refine ⟨fun _ => lt_of_le_of_ne le fun same => coarse (by rw [same]),?_⟩
  rw [if_pos cross,if_neg uncut,asked.rounded_boundary bounded,begun]
end Asked

theorem kassert_ok {p : Prop} [Decidable p] {text : String} (holds : p) : kassert p text = .ok () := if_pos holds

theorem kassert_bind (p : Prop) [Decidable p] (text : String) (f : Unit → Except Halt α) :
    (p ∧ (kassert p text >>= f) = f ()) ∨ (kassert p text >>= f) = .error (.panic text) := by
  unfold kassert
  by_cases holds : p
  · exact .inl ⟨holds,by rw [if_pos holds]; rfl⟩
  · exact .inr (by rw [if_neg holds]; rfl)

theorem checked_ok (asked : Asked bt q) {start : Word} (at_ : start.toNat = landing bt q) (fits : landing bt q + q.size.toNat ≤ upper bt q)
    (above : lower bt q ≤ landing bt q) : checked bt q start = .ok start := by
  obtain ⟨spot,uncut⟩ := asked.landing_spec
  obtain ⟨l,low,align⟩ := asked.power
  have mask : (start &&& (q.align - 1)).toNat = start.toNat % q.align.toNat := by
    rw [align,power_toNat low,mask_eq low,BitVec.toNat_and,BitVec.toNat_ofNat,
      Nat.mod_eq_of_lt (Nat.lt_of_le_of_lt (Nat.sub_le _ _) (Nat.pow_lt_pow_right (by decide) low)),Nat.and_two_pow_sub_one_eq_mod]
  have phase : start &&& (q.align - 1) = q.phase := by
    apply BitVec.eq_of_toNat_eq
    rw [mask,at_,spot]
  have cross : VMEM_CROSS_P start (start + q.size - 1) q.nocross = false := by
    rw [← Bool.not_eq_true,asked.cross_iff,at_,not_not]
    exact uncut
  have under : upper bt q ≤ (bt.btStart.toNat + bt.btSize.toNat) % 4294967296 := min_le_left ..
  have under' : upper bt q ≤ (q.maxaddr.toNat + 4294967295) % 4294967296 := min_le_right ..
  have over_ : bt.btStart.toNat ≤ lower bt q := le_max_left ..
  have over' : q.minaddr.toNat ≤ lower bt q := le_max_right ..
  have sum : (start + q.size).toNat = landing bt q + q.size.toNat := by
    rw [BitVec.toNat_add,at_,mod_eq_of_lt (by omega)]
  have minaddr : q.minaddr ≤ start := by
    rw [BitVec.le_def]
    omega
  have maxaddr : q.maxaddr = 0 ∨ start + q.size ≤ q.maxaddr := by
    by_cases zero : q.maxaddr = 0
    · exact .inl zero
    have some : q.maxaddr.toNat ≠ 0 := fun none => zero (BitVec.eq_of_toNat_eq none)
    refine .inr ?_
    rw [BitVec.le_def,sum]
    omega
  have tag : bt.btStart ≤ start := by
    rw [BitVec.le_def]
    omega
  have fin : start + q.size ≤ BT_END bt := by
    unfold BT_END
    rw [BitVec.le_def,sum,BitVec.toNat_add]
    exact le_trans fits under
  unfold checked
  rw [kassert_ok phase,kassert_ok cross,kassert_ok minaddr,kassert_ok maxaddr,kassert_ok tag,kassert_ok fin]
  rfl

theorem checked_panic {start : Word} (at_ : start.toNat = landing bt q) (below : landing bt q < lower bt q) :
    ∃ text, checked bt q start = .error (.panic text) := by
  unfold checked
  rcases kassert_bind (start &&& (q.align - 1) = q.phase) _ _ with ⟨_,next⟩ | failed
  · rw [next]
    rcases kassert_bind (VMEM_CROSS_P start (start + q.size - 1) q.nocross = false) _ _ with ⟨_,next⟩ | failed
    · rw [next]
      rcases kassert_bind (q.minaddr ≤ start) _ _ with ⟨minaddr,next⟩ | failed
      · rw [next]
        rcases kassert_bind (q.maxaddr = 0 ∨ start + q.size ≤ q.maxaddr) _ _ with ⟨_,next⟩ | failed
        · rw [next]
          rcases kassert_bind (bt.btStart ≤ start) _ _ with ⟨tag,next⟩ | failed
          · unfold lower at below
            exact absurd (Nat.max_le.mpr ⟨tag,minaddr⟩) (by omega)
          · exact ⟨_,failed⟩
        · exact ⟨_,failed⟩
      · exact ⟨_,failed⟩
    · exact ⟨_,failed⟩
  · exact ⟨_,failed⟩

theorem vmemFit_cases (asked : Asked bt q) :
    (lower bt q < upper bt q ∧ landing bt q + q.size.toNat ≤ upper bt q ∧
      if lower bt q ≤ landing bt q then vmemFit bt q = .ok (BitVec.ofNat 32 (landing bt q)) else ∃ text, vmemFit bt q = .error (.panic text)) ∨
    ((lower bt q < upper bt q → upper bt q < landing bt q + q.size.toNat) ∧ vmemFit bt q = .ok VMEM_ADDR_NULL) := by
  have room : bt.btSize ≥ q.size := asked.room
  have some := asked.some
  have from_ : (if bt.btStart < q.minaddr then q.minaddr else bt.btStart).toNat = lower bt q := by
    split
    · next less => exact (max_eq_right (le_of_lt less)).symm
    · next more => exact (max_eq_left (not_lt.mp more)).symm
  have fin : (if BT_END bt > q.maxaddr - 1 then q.maxaddr - 1 else BT_END bt).toNat = upper bt q := by
    have minus : (q.maxaddr - 1).toNat = (q.maxaddr.toNat + 4294967295) % 4294967296 := by
      have one : (1 : Word).toNat = 1 := rfl
      rw [BitVec.toNat_sub,one]
      omega
    have plus : (BT_END bt).toNat = (bt.btStart.toNat + bt.btSize.toNat) % 4294967296 := BitVec.toNat_add ..
    unfold upper
    rw [← minus,← plus]
    split
    · next more => exact (min_eq_right (le_of_lt more)).symm
    · next less => exact (min_eq_left (not_lt.mp less)).symm
  have begun := asked.began_eq
  unfold vmemFit
  rw [kassert_ok room,ok_bind]
  dsimp only at begun ⊢
  generalize (if bt.btStart < q.minaddr then q.minaddr else bt.btStart) = start at *
  generalize (if BT_END bt > q.maxaddr - 1 then q.maxaddr - 1 else BT_END bt) = end_ at *
  by_cases stop : start ≥ end_
  · rw [if_pos stop]
    rw [ge_iff_le,BitVec.le_def] at stop
    exact .inr ⟨fun less => by omega,rfl⟩
  rw [if_neg stop]
  rw [ge_iff_le,BitVec.le_def] at stop
  generalize (if VMEM_ALIGNUP (start - q.phase) q.align + q.phase < bt.btStart then VMEM_ALIGNUP (start - q.phase) q.align + q.phase + q.align
    else VMEM_ALIGNUP (start - q.phase) q.align + q.phase) = y at *
  obtain ⟨finer_,place⟩ := asked.landing_eq begun
  have chosen : ∃ z : Word, z.toNat = landing bt q ∧ (do
      let z ← if VMEM_CROSS_P y (y + q.size - 1) q.nocross then do
          kassert (q.align < q.nocross) "align < nocross"
          pure (VMEM_ALIGNUP (y - q.phase) q.nocross + q.phase)
        else pure y
      if z < end_ ∧ end_ - z ≥ q.size then checked bt q z else return VMEM_ADDR_NULL) =
      if z < end_ ∧ end_ - z ≥ q.size then checked bt q z else .ok VMEM_ADDR_NULL := by
    split_ifs at place with cross
    · rw [if_pos cross,kassert_ok (finer_ cross)]
      exact ⟨_,place,rfl⟩
    rw [if_neg cross]
    exact ⟨_,place,rfl⟩
  obtain ⟨z,at_,same⟩ := chosen
  rw [same]
  have test : z < end_ ∧ end_ - z ≥ q.size ↔ landing bt q + q.size.toNat ≤ upper bt q := by
    rw [BitVec.lt_def,ge_iff_le,BitVec.le_def,BitVec.toNat_sub,at_,fin]
    omega
  by_cases fits : landing bt q + q.size.toNat ≤ upper bt q
  · rw [if_pos (test.mpr fits)]
    refine .inl ⟨by omega,fits,?_⟩
    split
    · next above =>
      have same : z = BitVec.ofNat 32 (landing bt q) := by
        rw [← at_,BitVec.ofNat_toNat,BitVec.setWidth_eq]
      rw [checked_ok asked at_ fits above,same]
    · next below => exact checked_panic at_ (not_le.mp below)
  rw [if_neg (test.not.mpr fits)]
  exact .inr ⟨fun _ => not_le.mp fits,rfl⟩
end NetbsdAvr32.Vmem
