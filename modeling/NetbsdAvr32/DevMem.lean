import Mathlib.Algebra.GroupWithZero.Nat
import Mathlib.Algebra.Ring.Int.Defs
import Mathlib.Tactic.Common

-- The /dev/mem arm of mmrw, arch/avr32/avr32/mem.c.
namespace NetbsdAvr32.DevMem
open BitVec

abbrev Word := BitVec 32

def EFAULT : Nat := 14
def avr32P1Start : Word := 0x80000000
def ctob (physmem : Nat) : Nat := physmem * 4096

-- `uioIov` holds the lengths of the iovecs that are left.
structure Uio where
  uioIov : List Word
  uioOffset : Nat
  uioResid : Word
  deriving DecidableEq

-- What one turn of the loop does: it returns, drops an empty iovec, calls
-- uiomove on a kernel address, or reads past the iovecs.
inductive Turn where
  | returns (error : Nat)
  | skips (uio : Uio)
  | moves (v c : Word)
  | beyond
  deriving DecidableEq

def mmrw (physmem : Nat) (uio : Uio) : Turn :=
  if uio.uioResid = 0 then .returns 0
  else match uio.uioIov with
    | [] => .beyond
    | iovLen :: rest =>
      if iovLen = 0 then .skips {uio with uioIov := rest}
      else
        let v := BitVec.ofNat 32 uio.uioOffset
        let c := iovLen
        if v + c > BitVec.ofNat 32 (ctob physmem) then .returns EFAULT
        else .moves (v + avr32P1Start) c

def Uio.moved (uio : Uio) (n : Nat) : Uio :=
  {uioIov := match uio.uioIov with
    | [] => []
    | iovLen :: rest => (iovLen - BitVec.ofNat 32 n) :: rest
   uioOffset := uio.uioOffset + n
   uioResid := uio.uioResid - BitVec.ofNat 32 n}

-- The uios the loop comes by. A call of uiomove that reports an error ends it.
inductive Reaches (physmem : Nat) (start : Uio) : Uio → Prop
  | start : Reaches physmem start start
  | skip {uio uio' : Uio} (before : Reaches physmem start uio) (turn : mmrw physmem uio = .skips uio') : Reaches physmem start uio'
  | move {uio : Uio} {v c : Word} {n : Nat} (before : Reaches physmem start uio) (turn : mmrw physmem uio = .moves v c)
      (most : n ≤ c.toNat) : Reaches physmem start (uio.moved n)

theorem reaches_trans {physmem : Nat} {start middle uio : Uio} (first : Reaches physmem start middle) (then_ : Reaches physmem middle uio) :
    Reaches physmem start uio := by
  induction then_ with
  | start => exact first
  | skip _ turn ih => exact ih.skip turn
  | move _ turn most ih => exact ih.move turn most

def Outside (physmem : Nat) (uio : Uio) : Prop :=
  uio.uioResid ≠ 0 ∧ ∃ iovLen rest, uio.uioIov = iovLen :: rest ∧ iovLen ≠ 0 ∧ ctob physmem < uio.uioOffset + iovLen.toNat

structure Bounded (physmem : Nat) (uio : Uio) : Prop where
  inside : ∀ v c, mmrw physmem uio = .moves v c → avr32P1Start.toNat ≤ v.toNat ∧ v.toNat + c.toNat ≤ avr32P1Start.toNat + ctob physmem
  refused : Outside physmem uio → mmrw physmem uio = .returns EFAULT

-- The first request to reach past the end must not come back into the range
-- when its end is taken modulo 2^32.
def Straight (limit : Nat) : Nat → Word → List Word → Prop
  | _,_,[] => True
  | offset,resid,iovLen :: rest =>
    resid = 0 ∨
      if iovLen = 0 then Straight limit offset resid rest
      else if offset + iovLen.toNat ≤ limit then Straight limit (offset + iovLen.toNat) (resid - iovLen) rest
      else limit < (offset + iovLen.toNat) % 2 ^ 32

def Uio.straight (physmem : Nat) (uio : Uio) : Prop := Straight (ctob physmem) uio.uioOffset uio.uioResid uio.uioIov

variable {physmem n offset limit : Nat} {uio uio' start : Uio} {v c iovLen resid : Word} {rest : List Word}

theorem straight_spent (limit offset : Nat) (iov : List Word) : Straight limit offset 0 iov := by
  cases iov with
  | nil => trivial
  | cons iovLen rest => exact .inl rfl

theorem check_iff (fits : ctob physmem ≤ 2 ^ 29) (offset : Nat) (iovLen : Word) :
    BitVec.ofNat 32 offset + iovLen > BitVec.ofNat 32 (ctob physmem) ↔ ctob physmem < (offset + iovLen.toNat) % 2 ^ 32 := by
  have left : (BitVec.ofNat 32 offset + iovLen).toNat = (offset + iovLen.toNat) % 2 ^ 32 := by
    rw [toNat_add,toNat_ofNat,Nat.mod_add_mod]
  have right : (BitVec.ofNat 32 (ctob physmem)).toNat = ctob physmem := by
    rw [toNat_ofNat]
    omega
  show (BitVec.ofNat 32 (ctob physmem)).toNat < (BitVec.ofNat 32 offset + iovLen).toNat ↔ _
  rw [left,right]

theorem mmrw_request (fits : ctob physmem ≤ 2 ^ 29) (left : resid ≠ 0) (some_ : iovLen ≠ 0) :
    mmrw physmem ⟨iovLen :: rest,offset,resid⟩ =
      if ctob physmem < (offset + iovLen.toNat) % 2 ^ 32 then .returns EFAULT else .moves (BitVec.ofNat 32 offset + avr32P1Start) iovLen := by
  unfold mmrw
  dsimp only
  rw [if_neg left,if_neg some_]
  simp only [check_iff fits]

theorem mmrw_empty (left : resid ≠ 0) : mmrw physmem ⟨0 :: rest,offset,resid⟩ = .skips ⟨rest,offset,resid⟩ := by
  unfold mmrw
  dsimp only
  rw [if_neg left,if_pos rfl]

theorem straight_bounded (fits : ctob physmem ≤ 2 ^ 29) (straight : uio.straight physmem) : Bounded physmem uio := by
  obtain ⟨iov,offset,resid⟩ := uio
  by_cases left : resid = 0
  · subst left
    exact ⟨fun v c turn => (by cases turn),fun outside => absurd rfl outside.1⟩
  cases iov with
  | nil =>
    refine ⟨fun v c turn => ?_,fun outside => ?_⟩
    · unfold mmrw at turn
      rw [if_neg left] at turn
      cases turn
    obtain ⟨_,iovLen,rest,head,_⟩ := outside
    cases head
  | cons iovLen rest =>
    have straight := Or.resolve_left straight left
    by_cases empty : iovLen = 0
    · subst empty
      refine ⟨fun v c turn => ?_,fun outside => ?_⟩
      · rw [mmrw_empty left] at turn
        cases turn
      obtain ⟨_,_,_,head,other,_⟩ := outside
      cases head
      exact absurd rfl other
    rw [if_neg empty] at straight
    refine ⟨fun v c turn => ?_,fun outside => ?_⟩
    · rw [mmrw_request fits left empty] at turn
      split_ifs at turn with refused
      obtain ⟨rfl,rfl⟩ := Turn.moves.inj turn
      have near : offset + iovLen.toNat ≤ ctob physmem := by
        by_contra far
        rw [if_neg far] at straight
        exact refused straight
      have value : (BitVec.ofNat 32 offset + avr32P1Start).toNat = offset + 2147483648 := by
        rw [toNat_add,toNat_ofNat]
        show (offset % 4294967296 + 2147483648) % 4294967296 = _
        omega
      show 2147483648 ≤ _ ∧ _ ≤ 2147483648 + _
      omega
    obtain ⟨_,_,_,head,_,far⟩ := outside
    cases head
    rw [if_neg (Nat.not_le_of_lt far)] at straight
    rw [mmrw_request fits left empty,if_pos straight]

theorem straight_skip (straight : uio.straight physmem) (turn : mmrw physmem uio = .skips uio') : uio'.straight physmem := by
  obtain ⟨iov,offset,resid⟩ := uio
  unfold mmrw at turn
  split_ifs at turn with left
  cases iov with
  | nil => cases turn
  | cons iovLen rest =>
    dsimp only at turn
    split_ifs at turn with empty
    obtain rfl := Turn.skips.inj turn
    have straight := Or.resolve_left straight left
    rwa [if_pos empty] at straight

theorem straight_move (fits : ctob physmem ≤ 2 ^ 29) (straight : uio.straight physmem) (turn : mmrw physmem uio = .moves v c)
    (most : n ≤ c.toNat) : (uio.moved n).straight physmem := by
  obtain ⟨iov,offset,resid⟩ := uio
  unfold mmrw at turn
  split_ifs at turn with left
  cases iov with
  | nil => cases turn
  | cons iovLen rest =>
    dsimp only at turn
    split_ifs at turn with empty refused
    obtain ⟨_,rfl⟩ := Turn.moves.inj turn
    rw [check_iff fits] at refused
    have straight := Or.resolve_left straight left
    rw [if_neg empty] at straight
    have near : offset + iovLen.toNat ≤ ctob physmem := by
      by_contra far
      rw [if_neg far] at straight
      exact refused straight
    rw [if_pos near] at straight
    have rest_ : (iovLen - BitVec.ofNat 32 n).toNat = iovLen.toNat - n := by
      rw [toNat_sub,toNat_ofNat]
      omega
    show Straight _ (offset + n) (resid - BitVec.ofNat 32 n) ((iovLen - BitVec.ofNat 32 n) :: rest)
    refine .inr ?_
    have paid : resid - BitVec.ofNat 32 n - (iovLen - BitVec.ofNat 32 n) = resid - iovLen := by
      rw [BitVec.sub_sub,BitVec.add_comm,BitVec.sub_add_cancel]
    have same : offset + n + (iovLen - BitVec.ofNat 32 n).toNat = offset + iovLen.toNat := by omega
    rw [same,paid]
    split_ifs with done
    · have whole : n = iovLen.toNat := by
        have := congrArg BitVec.toNat done
        rw [rest_] at this
        have : iovLen.toNat - n = 0 := this
        omega
      rw [whole,ofNat_toNat,setWidth_eq]
      exact straight
    · exact straight

theorem reaches_straight (fits : ctob physmem ≤ 2 ^ 29) (straight : start.straight physmem) (reaches : Reaches physmem start uio) :
    uio.straight physmem := by
  induction reaches with
  | start => exact straight
  | skip _ turn ih => exact straight_skip ih turn
  | move _ turn most ih => exact straight_move fits ih turn most

theorem bounded_straight (fits : ctob physmem ≤ 2 ^ 29) (iov : List Word) (offset : Nat) (resid : Word)
    (bounded : ∀ uio, Reaches physmem ⟨iov,offset,resid⟩ uio → Bounded physmem uio) : Straight (ctob physmem) offset resid iov := by
  induction iov generalizing offset resid with
  | nil => trivial
  | cons iovLen rest ih =>
    by_cases left : resid = 0
    · exact .inl left
    refine .inr ?_
    split_ifs with empty near
    · subst empty
      refine ih offset resid fun uio reaches => bounded uio ?_
      exact reaches_trans (.skip .start (mmrw_empty left)) reaches
    · have turn : mmrw physmem ⟨iovLen :: rest,offset,resid⟩ = .moves (BitVec.ofNat 32 offset + avr32P1Start) iovLen := by
        rw [mmrw_request fits left empty,if_neg (by omega)]
      have moved : (Uio.mk (iovLen :: rest) offset resid).moved iovLen.toNat = ⟨0 :: rest,offset + iovLen.toNat,resid - iovLen⟩ := by
        simp [Uio.moved]
      by_cases spent : resid - iovLen = 0
      · rw [spent]
        exact straight_spent _ _ _
      refine ih _ _ fun uio reaches => bounded uio ?_
      have first : Reaches physmem ⟨iovLen :: rest,offset,resid⟩ ⟨0 :: rest,offset + iovLen.toNat,resid - iovLen⟩ := by
        rw [← moved]
        exact .move .start turn (Nat.le_refl _)
      exact reaches_trans (first.skip (mmrw_empty spent)) reaches
    have outside : Outside physmem ⟨iovLen :: rest,offset,resid⟩ := ⟨left,iovLen,rest,rfl,empty,Nat.lt_of_not_le near⟩
    have refused := (bounded _ .start).refused outside
    rw [mmrw_request fits left empty] at refused
    split_ifs at refused with past
    exact past

-- All kernel addresses are inside, and every request that is not is refused,
-- exactly when no request wraps round into physical memory.
theorem dev_mem_exact (physmem : Nat) (fits : ctob physmem ≤ 2 ^ 29) (start : Uio) :
    (∀ uio, Reaches physmem start uio → Bounded physmem uio) ↔ start.straight physmem :=
  ⟨bounded_straight fits start.uioIov start.uioOffset start.uioResid,fun straight _ reaches =>
    straight_bounded fits (reaches_straight fits straight reaches)⟩

theorem dev_mem_exact_tail :
    (∀ uio, Reaches 8192 ⟨[0x800,0x801],0x1fff000,0x1001⟩ uio → Bounded 8192 uio) ↔ (Uio.mk [0x800,0x801] 0x1fff000 0x1001).straight 8192 :=
  dev_mem_exact 8192 (by decide) _

-- A request that ends past 2^32 is passed on with an address below P1.
theorem dev_mem_wraps : ¬ ∀ physmem start uio, ctob physmem ≤ 2 ^ 29 → Reaches physmem start uio → Bounded physmem uio := by
  intro right
  have bounded := right 8192 ⟨[0x2000],0xfffff000,0x2000⟩ _ (by decide) .start
  have turn : mmrw 8192 ⟨[0x2000],0xfffff000,0x2000⟩ = .moves 0x7ffff000 0x2000 := by decide
  exact absurd (bounded.inside _ _ turn).1 (by decide)
end NetbsdAvr32.DevMem
