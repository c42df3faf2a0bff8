import Mathlib.Tactic.Common
import NetbsdAvr32.Outcome

-- sys/kern/tty_subr.c with QBITS: character lists as ring buffers.
namespace NetbsdAvr32.Clist
open Outcome Function Nat
variable {count : Int} {size : Nat}

def nbby : Nat := 8
def ttyQuote : BitVec 32 := 0x100#32

-- QMEM: the bytes of the quote bitmap.
def qmem (n : Nat) : Nat := if n = 0 then 1 else (n - 1) / nbby + 1

-- struct clist. Pointers are offsets from c_cs, `none` is NULL; c_ce is c_cn.
-- c_cs and c_cq are not NULL.
structure Clist where
  cs : Nat → BitVec 8
  cq : Nat → BitVec 8
  cCf : Option Nat
  cCl : Option Nat
  cCc : Nat
  cCn : Nat

def deref (p : Option Nat) : Except Halt Nat :=
  match p with
  | some i => .ok i
  | none => .error (.fault "NULL pointer")

def readByte (clp : Clist) (i : Nat) : Except Halt (BitVec 8) :=
  if i < clp.cCn then .ok (clp.cs i) else .error (.fault "read past c_ce")

def writeByte (clp : Clist) (i : Nat) (byte : BitVec 8) : Except Halt Clist :=
  if i < clp.cCn then .ok {clp with cs := Function.update clp.cs i byte} else .error (.fault "write past c_ce")

def overlay (cs : Nat → BitVec 8) (i n : Nat) (p : List (BitVec 8)) (k : Nat) : BitVec 8 :=
  if i ≤ k ∧ k < i + n then p.getD (k - i) 0 else cs k

-- memcpy from and to the buffer.
def copyOut (clp : Clist) (i n : Nat) : Except Halt (List (BitVec 8)) :=
  if i + n ≤ clp.cCn then .ok ((List.range n).map fun k => clp.cs (i + k)) else .error (.fault "read past c_ce")

def copyIn (clp : Clist) (i n : Nat) (p : List (BitVec 8)) : Except Halt Clist :=
  if n ≤ p.length then
    if i + n ≤ clp.cCn then .ok {clp with cs := overlay clp.cs i n p} else .error (.fault "write past c_ce")
  else .error (.fault "read past cp")

def alter (cn : Nat) (cq : Nat → BitVec 8) (i : Nat) (f : BitVec 8 → BitVec 8) : Except Halt (Nat → BitVec 8) :=
  if i < qmem cn then .ok (Function.update cq i (f (cq i))) else .error (.fault "access past c_cq")

def setbit (cn : Nat) (cq : Nat → BitVec 8) (i : Nat) : Except Halt (Nat → BitVec 8) :=
  alter cn cq (i / nbby) (· ||| (1#8 <<< (i % nbby)))

def clrbit (cn : Nat) (cq : Nat → BitVec 8) (i : Nat) : Except Halt (Nat → BitVec 8) :=
  alter cn cq (i / nbby) (· &&& ~~~(1#8 <<< (i % nbby)))

def isset (clp : Clist) (i : Nat) : Except Halt Bool :=
  if i / nbby < qmem clp.cCn then .ok ((clp.cq (i / nbby)).getLsbD (i % nbby)) else .error (.fault "access past c_cq")

def zeroBytes (cn : Nat) : Nat → Nat → (Nat → BitVec 8) → Except Halt (Nat → BitVec 8)
  | 0, _, cq => .ok cq
  | n + 1, i, cq => do
    let cq ← alter cn cq i fun _ => 0
    zeroBytes cn n (i + 1) cq

def clrbits (cn : Nat) (cq : Nat → BitVec 8) (off len : Nat) : Except Halt (Nat → BitVec 8) :=
  if len = 1 then clrbit cn cq off
  else
    let len := len - 1
    let sby := off / nbby
    let sbi := off % nbby
    let eby := (off + len) / nbby
    let ebi := (off + len) % nbby + 1
    if sby = eby then alter cn cq sby (· &&& ~~~BitVec.ofNat 8 ((2 ^ (ebi - sbi) - 1) * 2 ^ sbi))
    else do
      let cq ← alter cn cq sby (· &&& BitVec.ofNat 8 (2 ^ sbi - 1))
      let cq ← alter cn cq eby (· &&& ~~~BitVec.ofNat 8 (2 ^ ebi - 1))
      zeroBytes cn (eby - (sby + 1)) (sby + 1) cq

-- clalloc with `quot`, once malloc has returned both buffers.
def clalloc (size : Nat) : Clist where
  cs := fun _ => 0
  cq := fun _ => 0
  cCf := none
  cCl := none
  cCc := 0
  cCn := size

-- A pointer after `n` steps, back at c_cs from c_ce.
def wrap (clp : Clist) (i : Nat) : Nat := if i = clp.cCn then 0 else i

-- The pointers are reset when the list gets empty.
def drained (clp : Clist) : Clist := if clp.cCc = 0 then {clp with cCf := none,cCl := none} else clp

def getc (clp : Clist) : Except Halt (BitVec 32 × Clist) :=
  if clp.cCc = 0 then .ok (-1,clp)
  else do
    let cf ← deref clp.cCf
    let byte ← readByte clp cf
    let quoted ← isset clp cf
    let c := byte.setWidth 32 ||| (if quoted then ttyQuote else 0)
    let clp ← writeByte clp cf 0
    .ok (c,drained {clp with cCf := some (wrap clp (cf + 1)),cCc := clp.cCc - 1})

def chunk (clp : Clist) (cf cl : Nat) (count : Int) : Nat :=
  let cc := if cf ≥ cl then clp.cCn - cf else cl - cf
  if (cc : Int) > count then count.toNat else cc

def qToBLoop : Nat → Clist → Int → List (BitVec 8) → Except Halt (List (BitVec 8) × Clist)
  | 0, _, _, _ => .error .fuel
  | rounds + 1, clp, count, p =>
    if count > 0 ∧ clp.cCc > 0 then do
      let cf ← deref clp.cCf
      let cl ← deref clp.cCl
      let cc := chunk clp cf cl count
      let bytes ← copyOut clp cf cc
      qToBLoop rounds {clp with cCc := clp.cCc - cc,cCf := some (wrap clp (cf + cc))} (count - cc) (p ++ bytes)
    else .ok (p,clp)

-- Returns the bytes copied; the function's value is their number.
def qToB (clp : Clist) (count : Int) : Except Halt (List (BitVec 8) × Clist) := do
  let (p,clp) ← qToBLoop 3 clp count []
  .ok (p,drained clp)

def ndflushLoop : Nat → Clist → Int → Except Halt Clist
  | 0, _, _ => .error .fuel
  | rounds + 1, clp, count =>
    if count > 0 ∧ clp.cCc > 0 then do
      let cf ← deref clp.cCf
      let cl ← deref clp.cCl
      let cc := chunk clp cf cl count
      ndflushLoop rounds {clp with cCc := clp.cCc - cc,cCf := some (wrap clp (cf + cc))} (count - cc)
    else .ok clp

def ndflush (clp : Clist) (count : Int) : Except Halt Clist :=
  if count = clp.cCc then .ok {clp with cCc := 0,cCf := none,cCl := none}
  else do
    let clp ← ndflushLoop 3 clp count
    .ok (drained clp)

-- The pointers are set when the list was empty.
def primed (clp : Clist) : Clist := if clp.cCc = 0 then {clp with cCf := some 0,cCl := some 0} else clp

def putc (c : BitVec 32) (clp : Clist) : Except Halt (BitVec 32 × Clist) :=
  if clp.cCc = clp.cCn then .ok (-1,clp)
  else do
    let clp := primed clp
    let cl ← deref clp.cCl
    let clp ← writeByte clp cl (c.setWidth 8)
    let cq ← (if c &&& ttyQuote ≠ 0 then setbit clp.cCn clp.cq cl else clrbit clp.cCn clp.cq cl)
    .ok (0,{clp with cq := cq,cCc := clp.cCc + 1,cCl := some (wrap clp (cl + 1))})

def bToQLoop : Nat → Clist → Int → List (BitVec 8) → Except Halt (Int × Clist)
  | 0, _, _, _ => .error .fuel
  | rounds + 1, clp, count, p =>
    if count > 0 ∧ clp.cCc < clp.cCn then do
      let cf ← deref clp.cCf
      let cl ← deref clp.cCl
      let cc := if cf > cl then cf - cl else clp.cCn - cl
      let cc := if (cc : Int) > count then count.toNat else cc
      let clp ← copyIn clp cl cc p
      let cq ← clrbits clp.cCn clp.cq cl cc
      bToQLoop rounds {clp with cq := cq,cCc := clp.cCc + cc,cCl := some (wrap clp (cl + cc))} (count - cc) (p.drop cc)
    else .ok (count,clp)

def bToQ (cp : List (BitVec 8)) (count : Int) (clp : Clist) : Except Halt (Int × Clist) :=
  if count ≤ 0 then .ok (0,clp)
  else if clp.cCc = clp.cCn then .ok (count,clp)
  else bToQLoop 3 (primed clp) count cp

def unputc (clp : Clist) : Except Halt (BitVec 32 × Clist) :=
  if clp.cCc = 0 then .ok (-1,clp)
  else do
    let cl ← deref clp.cCl
    let cl := if cl = 0 then clp.cCn - 1 else cl - 1
    let byte ← readByte clp cl
    let quoted ← isset clp cl
    let c := byte.setWidth 32 ||| (if quoted then ttyQuote else 0)
    .ok (c,drained {clp with cCl := some cl,cCc := clp.cCc - 1})

inductive Op where
  | putc (c : BitVec 32)
  | unputc
  | getc
  | bToQ (cp : List (BitVec 8)) (count : Int)
  | qToB (count : Int)
  | ndflush (count : Int)

inductive Reply where
  | char (c : BitVec 32)
  | left (count : Int)
  | bytes (p : List (BitVec 8))
  | done
  deriving DecidableEq, Repr

def step (clp : Clist) : Op → Except Halt (Reply × Clist)
  | .putc c => do
    let (status,clp) ← putc c clp
    .ok (.char status,clp)
  | .unputc => do
    let (c,clp) ← unputc clp
    .ok (.char c,clp)
  | .getc => do
    let (c,clp) ← getc clp
    .ok (.char c,clp)
  | .bToQ cp count => do
    let (count,clp) ← bToQ cp count clp
    .ok (.left count,clp)
  | .qToB count => do
    let (p,clp) ← qToB clp count
    .ok (.bytes p,clp)
  | .ndflush count => do
    let clp ← ndflush clp count
    .ok (.done,clp)

abbrev Queue := List (BitVec 8 × Bool)

-- The int that getc and unputc return.
def code (x : BitVec 8 × Bool) : BitVec 32 := x.1.setWidth 32 ||| (if x.2 then ttyQuote else 0)

-- What a call returns and leaves in a queue for at most `cn` characters.
def answer (cn : Nat) (q : Queue) : Op → Reply × Queue
  | .putc c => if q.length = cn then (.char (-1),q) else (.char 0,q ++ [(c.setWidth 8,decide (c &&& ttyQuote ≠ 0))])
  | .unputc => match q.getLast? with
    | none => (.char (-1),q)
    | some x => (.char (code x),q.dropLast)
  | .getc => match q with
    | [] => (.char (-1),q)
    | x :: rest => (.char (code x),rest)
  | .bToQ cp count =>
    let n := min count.toNat (cn - q.length)
    (.left (count.toNat - n),q ++ (cp.take n).map fun byte => (byte,false))
  | .qToB count => (.bytes ((q.take count.toNat).map Prod.fst),q.drop count.toNat)
  | .ndflush count => (.done,q.drop count.toNat)

def place (n f k : Nat) : Nat := if f + k < n then f + k else f + k - n

theorem place_lt (first : f < n) (le : k ≤ n) : place n f k < n := by
  unfold place
  split <;> omega

theorem place_zero (first : f < n) : place n f 0 = f := if_pos first

theorem place_add (first : f < n) (le : j + k ≤ n) : place n (place n f j) k = place n f (j + k) := by
  unfold place
  split <;> split <;> split <;> omega

theorem place_injective (first : f < n) (lj : j < n) (lk : k < n) (same : place n f j = place n f k) : j = k := by
  unfold place at same
  split at same <;> split at same <;> omega

def quoted (cq : Nat → BitVec 8) (i : Nat) : Bool := (cq (i / nbby)).getLsbD (i % nbby)
def slot (clp : Clist) (i : Nat) : BitVec 8 × Bool := (clp.cs i,quoted clp.cq i)

-- The ring from `f` on holds this queue; it may be empty with its pointers set.
structure Ring (clp : Clist) (q : Queue) (f : Nat) : Prop where
  amount : clp.cCc = q.length
  room : q.length ≤ clp.cCn
  inside : f < clp.cCn
  front : clp.cCf = some f
  back : clp.cCl = some (place clp.cCn f q.length)
  slots : ∀ k x, q[k]? = some x → slot clp (place clp.cCn f k) = x

theorem Ring.derefFront (ring : Ring clp q f) : deref clp.cCf = .ok f := by
  rw [ring.front]
  rfl

theorem Ring.derefBack (ring : Ring clp q f) : deref clp.cCl = .ok (place clp.cCn f q.length) := by
  rw [ring.back]
  rfl

def Holds (clp : Clist) (q : Queue) : Prop :=
  (∃ f, Ring clp q f) ∧ q ≠ [] ∨ q = [] ∧ clp.cCc = 0 ∧ clp.cCf = none ∧ clp.cCl = none

theorem Holds.amount (holds : Holds clp q) : clp.cCc = q.length := by
  rcases holds with ⟨⟨f,ring⟩,_⟩ | ⟨rfl,zero,_⟩
  · exact ring.amount
  · exact zero

theorem Holds.room (holds : Holds clp q) : q.length ≤ clp.cCn := by
  rcases holds with ⟨⟨f,ring⟩,_⟩ | ⟨rfl,_⟩
  · exact ring.room
  · exact zero_le _

theorem Holds.ring (holds : Holds clp q) (some : clp.cCc ≠ 0) : ∃ f, Ring clp q f := by
  rcases holds with ⟨ring,_⟩ | ⟨_,zero,_⟩
  · exact ring
  · exact (some zero).elim

theorem Ring.drained (ring : Ring clp q f) : Holds (drained clp) q := by
  unfold Clist.drained
  split_ifs with zero
  · have empty : q = [] := List.eq_nil_of_length_eq_zero (ring.amount.symm.trans zero)
    exact .inr ⟨empty,zero,rfl,rfl⟩
  refine .inl ⟨⟨f,ring⟩,?_⟩
  rintro rfl
  exact zero ring.amount

theorem Holds.primed (holds : Holds clp q) (space : clp.cCc ≠ clp.cCn) : ∃ f, Ring (primed clp) q f := by
  have count := holds.amount
  unfold Clist.primed
  rcases holds with ⟨⟨f,ring⟩,some⟩ | ⟨rfl,zero,_⟩
  · have nonzero : clp.cCc ≠ 0 := fun zero => some (List.eq_nil_of_length_eq_zero (count.symm.trans zero))
    rw [if_neg nonzero]
    exact ⟨f,ring⟩
  rw [if_pos zero]
  have positive : 0 < clp.cCn := by omega
  exact ⟨0,zero,zero_le _,positive,rfl,by rw [List.length_nil,place_zero positive],fun k x mem => by simp at mem⟩

theorem holds_clalloc (size : Nat) : Holds (clalloc size) [] := .inr ⟨rfl,rfl,rfl,rfl⟩

theorem qmem_covers (lt : i < n) : i / nbby < qmem n := by
  unfold qmem nbby
  split <;> omega

theorem alter_ok (lt : i / nbby < qmem n) (f : BitVec 8 → BitVec 8) : alter n cq (i / nbby) f =
    .ok (update cq (i / nbby) (f (cq (i / nbby)))) := if_pos lt

theorem quoted_update (cq : Nat → BitVec 8) (b : Nat) (byte : BitVec 8) (i : Nat) :
    quoted (update cq b byte) i = if i / nbby = b then byte.getLsbD (i % nbby) else quoted cq i := by
  unfold quoted
  split_ifs with same
  · rw [same,update_self]
  · rw [update_of_ne same]

theorem bit_mask : ∀ b < 8, ∀ i < 8, (1#8 <<< b).getLsbD i = decide (i = b) := by decide

theorem setbit_spec (cq : Nat → BitVec 8) (lt : off < n) : ∃ cq₁, setbit n cq off = .ok cq₁ ∧
    ∀ i, quoted cq₁ i = (decide (i = off) || quoted cq i) := by
  refine ⟨_,alter_ok (qmem_covers lt) _,fun i => ?_⟩
  rw [quoted_update]
  split
  · next same =>
    have bit := bit_mask (off % nbby) (mod_lt _ (by decide)) (i % nbby) (mod_lt _ (by decide))
    have place : (i % nbby = off % nbby) ↔ i = off := by
      unfold nbby at same ⊢
      omega
    rw [BitVec.getLsbD_or,bit,Bool.or_comm]
    simp only [place,quoted,same]
  next other =>
  have ne : i ≠ off := fun same => other (same ▸ rfl)
  simp [ne]

theorem clrbit_spec (cq : Nat → BitVec 8) (lt : off < n) : ∃ cq₁, clrbit n cq off = .ok cq₁ ∧
    ∀ i, quoted cq₁ i = (decide (i ≠ off) && quoted cq i) := by
  refine ⟨_,alter_ok (qmem_covers lt) _,fun i => ?_⟩
  rw [quoted_update]
  split
  · next same =>
    have small : i % nbby < 8 := mod_lt _ (by decide)
    have bit := bit_mask (off % nbby) (mod_lt _ (by decide)) (i % nbby) small
    have place : (i % nbby = off % nbby) ↔ i = off := by
      unfold nbby at same ⊢
      omega
    rw [BitVec.getLsbD_and,BitVec.getLsbD_not,bit,Bool.and_comm]
    simp only [place,quoted,same,small,decide_true,Bool.true_and,ne_eq,decide_not]
  next other =>
  have ne : i ≠ off := fun same => other (same ▸ rfl)
  simp [ne]

theorem inner_mask : ∀ sbi < 8, ∀ ebi < 9, sbi < ebi → ∀ i < 8,
    (BitVec.ofNat 8 ((2 ^ (ebi - sbi) - 1) * 2 ^ sbi)).getLsbD i = decide (sbi ≤ i ∧ i < ebi) := by decide +kernel

theorem low_mask : ∀ n < 9, ∀ i < 8, (BitVec.ofNat 8 (2 ^ n - 1)).getLsbD i = decide (i < n) := by decide +kernel

theorem zeroBytes_spec (n count b : Nat) (cq : Nat → BitVec 8) (fits : b + count ≤ qmem n) :
    ∃ cq₁, zeroBytes n count b cq = .ok cq₁ ∧ ∀ i, quoted cq₁ i = (decide ¬(b ≤ i / nbby ∧ i / nbby < b + count) && quoted cq i) := by
  induction count generalizing b cq with
  | zero => exact ⟨cq,rfl,fun i => by simp⟩
  | succ count ih =>
    have here : alter n cq b (fun _ => 0) = .ok (update cq b 0) := if_pos (by omega)
    obtain ⟨cq₁,ran,bits⟩ := ih (b + 1) (update cq b 0) (by omega)
    refine ⟨cq₁,?_,fun i => ?_⟩
    · rw [zeroBytes,here,ok_bind,ran]
    rw [bits,quoted_update]
    by_cases same : i / nbby = b
    · simp [same]
    have range : (b + 1 ≤ i / nbby ∧ i / nbby < b + 1 + count) ↔ b ≤ i / nbby ∧ i / nbby < b + (count + 1) := by omega
    rw [if_neg same]
    simp only [range]

theorem clrbits_spec (cq : Nat → BitVec 8) (some : 0 < len) (fits : off + len ≤ n) : ∃ cq₁, clrbits n cq off len = .ok cq₁ ∧
    ∀ i, quoted cq₁ i = (decide ¬(off ≤ i ∧ i < off + len) && quoted cq i) := by
  unfold clrbits
  by_cases one : len = 1
  · obtain ⟨cq₁,ran,bits⟩ := clrbit_spec cq (show off < n by omega)
    refine ⟨cq₁,by rw [if_pos one,ran],fun i => ?_⟩
    have same : (¬(off ≤ i ∧ i < off + len)) ↔ i ≠ off := by omega
    rw [bits]
    simp only [same]
  rw [if_neg one]
  obtain ⟨e,fin⟩ : ∃ e,e = off + (len - 1) := ⟨_,rfl⟩
  dsimp only
  rw [← fin]
  have low (i : Nat) : i % nbby < 8 := mod_lt _ (by decide)
  have first := qmem_covers (show off < n by omega)
  have last := qmem_covers (show e < n by omega)
  split
  · next single =>
    refine ⟨_,alter_ok first _,fun i => ?_⟩
    have mask := inner_mask (off % nbby) (low _) (e % nbby + 1)
      (Nat.succ_lt_succ (low e)) (by unfold nbby at single ⊢; omega) (i % nbby) (low i)
    rw [quoted_update]
    split
    · next same =>
      have inside : (off % nbby ≤ i % nbby ∧ i % nbby < e % nbby + 1) ↔ off ≤ i ∧ i < off + len := by
        unfold nbby at same single ⊢
        omega
      rw [BitVec.getLsbD_and,BitVec.getLsbD_not,mask,Bool.and_comm]
      simp only [inside,quoted,same,low,decide_true,Bool.true_and,decide_not]
    next other =>
    have out : ¬(off ≤ i ∧ i < off + len) := by
      unfold nbby at other single
      omega
    simp only [out,not_false_eq_true,decide_true,Bool.true_and]
  next single =>
  have order : off / nbby < e / nbby := by
    unfold nbby at single ⊢
    omega
  rw [show alter n cq (off / nbby) (· &&& BitVec.ofNat 8 (2 ^ (off % nbby) - 1)) = _ from alter_ok first _,ok_bind,
    show alter n _ (e / nbby) (· &&& ~~~BitVec.ofNat 8 (2 ^ (e % nbby + 1) - 1)) = _ from
      alter_ok last _,ok_bind]
  obtain ⟨cq₁,ran,bits⟩ := zeroBytes_spec n (e / nbby - (off / nbby + 1)) (off / nbby + 1) _ (by omega)
  refine ⟨cq₁,ran,fun i => ?_⟩
  have head := low_mask (off % nbby) (Nat.lt_succ_of_lt (low off)) (i % nbby) (low i)
  have tail := low_mask (e % nbby + 1) (Nat.succ_lt_succ (low e)) (i % nbby) (low i)
  rw [bits,quoted_update,update_of_ne (by omega),quoted_update]
  split
  · next end_ =>
    have inside : (off ≤ i ∧ i < off + len) ↔ i % nbby < e % nbby + 1 := by
      unfold nbby at end_ order ⊢
      omega
    have middle : ¬(off / nbby + 1 ≤ i / nbby ∧ i / nbby < off / nbby + 1 + (e / nbby - (off / nbby + 1))) := by
      omega
    rw [decide_eq_true middle,Bool.true_and,BitVec.getLsbD_and,BitVec.getLsbD_not,tail,Bool.and_comm]
    simp only [inside,quoted,end_,low,decide_true,Bool.true_and,decide_not]
  next end_ =>
  split
  · next begin =>
    have inside : (off ≤ i ∧ i < off + len) ↔ ¬i % nbby < off % nbby := by
      unfold nbby at begin order ⊢
      omega
    have middle : ¬(off / nbby + 1 ≤ i / nbby ∧ i / nbby < off / nbby + 1 + (e / nbby - (off / nbby + 1))) := by
      omega
    rw [decide_eq_true middle,Bool.true_and,BitVec.getLsbD_and,head,Bool.and_comm]
    simp only [inside,quoted,begin,not_not]
  next begin =>
  have inside : (off ≤ i ∧ i < off + len) ↔
      off / nbby + 1 ≤ i / nbby ∧ i / nbby < off / nbby + 1 + (e / nbby - (off / nbby + 1)) := by
    unfold nbby at begin end_ order ⊢
    omega
  simp only [inside]

theorem wrap_eq (first : f < clp.cCn) (le : f + c ≤ clp.cCn) : wrap clp (f + c) = place clp.cCn f c := by
  unfold wrap place
  split <;> split <;> omega

theorem Ring.drop (ring : Ring clp q f) (le : c ≤ q.length) (fits : f + c ≤ clp.cCn) :
    Ring {clp with cCc := clp.cCc - c,cCf := some (wrap clp (f + c))} (q.drop c) (place clp.cCn f c) where
  amount := by
    rw [List.length_drop,← ring.amount]
  room := by
    have := ring.room
    rw [List.length_drop]
    dsimp only
    omega
  inside := place_lt ring.inside (by omega)
  front := by rw [← wrap_eq ring.inside fits]
  back := by
    have room := ring.room
    rw [ring.back,List.length_drop,place_add ring.inside (by omega)]
    congr 2
    omega
  slots := by
    intro k x mem
    rw [List.getElem?_drop] at mem
    have lt := (List.getElem?_eq_some_iff.mp mem).1
    have room := ring.room
    rw [place_add ring.inside (by omega)]
    exact ring.slots (c + k) x mem

theorem getElem?_slot (ring : Ring clp q f) (lt : k < q.length) : slot clp (place clp.cCn f k) = q[k] :=
  ring.slots k _ (List.getElem?_eq_getElem lt)

theorem Ring.bytes (ring : Ring clp q f) (le : c ≤ q.length) (fits : f + c ≤ clp.cCn) :
    copyOut clp f c = .ok ((q.take c).map Prod.fst) := by
  unfold copyOut
  rw [if_pos fits]
  congr 1
  refine List.ext_getElem (by simp [le]) fun k left right => ?_
  have lt : k < c := by simpa using left
  have here := getElem?_slot ring (show k < q.length by omega)
  rw [place,if_pos (by omega)] at here
  simp only [List.getElem_map,List.getElem_range,List.getElem_take,← here,slot]

theorem chunk_spec (ring : Ring clp q f) (some : q ≠ []) (positive : 0 < count) :
    ∃ c, chunk clp f (place clp.cCn f q.length) count = c ∧ 0 < c ∧ c ≤ q.length ∧ f + c ≤ clp.cCn ∧ (c : Int) ≤ count ∧
      ((c : Int) = count ∨ c = q.length ∨ f + c = clp.cCn ∧ clp.cCn < f + q.length) := by
  have length := List.length_pos_iff.mpr some
  have room := ring.room
  have inside := ring.inside
  refine ⟨_,rfl,?_⟩
  unfold chunk place
  dsimp only
  split <;> split <;> split <;> omega

def need (cn f : Nat) (q : Queue) (count : Int) : Nat :=
  if count ≤ 0 ∨ q = [] then 1 else if f + q.length ≤ cn then 2 else 3

theorem qToBLoop_spec (rounds : Nat) (p : List (BitVec 8)) (ring : Ring clp q f) (enough : need clp.cCn f q count ≤ rounds) :
    ∃ t g, qToBLoop rounds clp count p = .ok (p ++ (q.take count.toNat).map Prod.fst,t) ∧ t.cCn = clp.cCn ∧
      Ring t (q.drop count.toNat) g := by
  induction rounds generalizing clp q f count p with
  | zero =>
    unfold need at enough
    split at enough
    · omega
    · split at enough <;> omega
  | succ rounds ih =>
    have amount := ring.amount
    rw [qToBLoop]
    by_cases more : count > 0 ∧ clp.cCc > 0
    · have some : q ≠ [] := List.length_pos_iff.mp (by omega)
      obtain ⟨c,same,positive,le,fits,under,ends⟩ := chunk_spec ring some more.1
      have next := ring.drop le fits
      have fewer : need clp.cCn (place clp.cCn f c) (q.drop c) (count - c) ≤ rounds := by
        have room := ring.room
        unfold need at enough ⊢
        rw [if_neg (by rintro (low | none); · omega
                       · exact some none)] at enough
        have rest : (q.drop c).length = q.length - c := List.length_drop
        have empty : q.drop c = [] ↔ q.length ≤ c := List.drop_eq_nil_iff
        split
        · split at enough <;> omega
        next go =>
        rw [empty] at go
        have wrapped : place clp.cCn f c = 0 := by
          unfold place
          split <;> omega
        rw [wrapped,rest,if_pos (by omega)]
        split at enough <;> omega
      obtain ⟨t,g,ran,size,final⟩ := ih (p ++ (q.take c).map Prod.fst) next fewer
      rw [if_pos more,ring.derefFront,ok_bind,ring.derefBack,ok_bind]
      dsimp only
      rw [same,ring.bytes le fits,ok_bind,ran]
      have total : count.toNat = c + (count - c).toNat := by omega
      refine ⟨t,g,?_,size,?_⟩
      · rw [List.append_assoc,← List.map_append,total,List.take_add]
      rw [total,← List.drop_drop]
      exact final
    have nothing : q.take count.toNat = [] ∧ q.drop count.toNat = q := by
      by_cases low : count ≤ 0
      · rw [show count.toNat = 0 by omega]
        exact ⟨rfl,rfl⟩
      have empty : q = [] := List.length_eq_zero_iff.mp (by omega)
      rw [empty]
      simp
    rw [if_neg more,nothing.1,nothing.2]
    exact ⟨clp,f,by simp,rfl,ring⟩

theorem ndflushLoop_eq (ran : qToBLoop rounds clp count p = .ok (bytes,t)) : ndflushLoop rounds clp count = .ok t := by
  induction rounds generalizing clp count p with
  | zero => cases ran
  | succ rounds ih =>
    rw [qToBLoop] at ran
    rw [ndflushLoop]
    split at ran
    · next more =>
      obtain ⟨cf,front,ran⟩ := bind_ok ran
      obtain ⟨cl,back,ran⟩ := bind_ok ran
      obtain ⟨bytes,_,ran⟩ := bind_ok ran
      rw [if_pos more,front,ok_bind,back,ok_bind]
      exact ih ran
    next done =>
    rw [if_neg done]
    cases ran
    rfl

theorem need_le (cn f : Nat) (q : Queue) (count : Int) : need cn f q count ≤ 3 := by
  unfold need
  split
  · omega
  · split <;> omega

theorem drainedLoop_spec (holds : Holds clp q) (count : Int) :
    ∃ t, qToBLoop 3 clp count [] = .ok ((q.take count.toNat).map Prod.fst,t) ∧ t.cCn = clp.cCn ∧
      Holds (drained t) (q.drop count.toNat) := by
  by_cases zero : clp.cCc = 0
  · have none : q = [] := List.length_eq_zero_iff.mp (holds.amount.symm.trans zero)
    subst none
    refine ⟨clp,?_,rfl,?_⟩
    · rw [qToBLoop,if_neg (by omega)]
      simp
    unfold Clist.drained
    rw [if_pos zero]
    exact .inr ⟨by simp,zero,rfl,rfl⟩
  obtain ⟨f,ring⟩ := holds.ring zero
  obtain ⟨t,g,ran,size,final⟩ := qToBLoop_spec 3 [] ring (need_le _ _ _ count)
  exact ⟨t,ran,size,final.drained⟩

theorem readByte_ok (lt : i < clp.cCn) : readByte clp i = .ok (slot clp i).1 := if_pos lt
theorem isset_ok (lt : i < clp.cCn) : isset clp i = .ok (slot clp i).2 := if_pos (qmem_covers lt)

theorem getc_spec (holds : Holds clp (x :: q)) :
    ∃ t, getc clp = .ok (code x,t) ∧ t.cCn = clp.cCn ∧ Holds t q := by
  have amount := holds.amount
  rw [List.length_cons] at amount
  have nonzero : clp.cCc ≠ 0 := by omega
  obtain ⟨f,ring⟩ := holds.ring nonzero
  have inside := ring.inside
  have here := ring.slots 0 x rfl
  rw [place_zero inside] at here
  have wiped : writeByte clp f 0 = .ok {clp with cs := update clp.cs f 0} := if_pos inside
  have rest := ring.drop (show 1 ≤ (x :: q).length by simp) inside
  have final : Ring {clp with cs := update clp.cs f 0,cCf := some (wrap clp (f + 1)),cCc := clp.cCc - 1} q
      (place clp.cCn f 1) := by
    refine ⟨rest.amount,rest.room,rest.inside,rest.front,rest.back,fun k y mem => ?_⟩
    have lt := (List.getElem?_eq_some_iff.mp mem).1
    have room := holds.room
    rw [List.length_cons] at room
    have other : place clp.cCn (place clp.cCn f 1) k ≠ f := by
      rw [place_add inside (by omega)]
      intro same
      have := place_injective inside (show 1 + k < clp.cCn by omega) (show 0 < clp.cCn by omega)
        (same.trans (place_zero inside).symm)
      omega
    have kept := rest.slots k y mem
    unfold slot at kept ⊢
    dsimp only at kept ⊢
    rw [update_of_ne other]
    exact kept
  rw [getc,if_neg nonzero,ring.derefFront,ok_bind,readByte_ok inside,ok_bind,isset_ok inside,ok_bind,
    here,wiped,ok_bind]
  refine ⟨_,rfl,?_,final.drained⟩
  unfold drained
  split <;> rfl

theorem unputc_spec (holds : Holds clp (q ++ [x])) :
    ∃ t, unputc clp = .ok (code x,t) ∧ t.cCn = clp.cCn ∧ Holds t q := by
  have amount := holds.amount
  have room := holds.room
  rw [List.length_append,List.length_singleton] at amount room
  have nonzero : clp.cCc ≠ 0 := by omega
  obtain ⟨f,ring⟩ := holds.ring nonzero
  have inside := ring.inside
  have back : (if place clp.cCn f (q ++ [x]).length = 0 then clp.cCn - 1 else place clp.cCn f (q ++ [x]).length - 1) =
      place clp.cCn f q.length := by
    rw [List.length_append,List.length_singleton]
    unfold place
    split <;> split <;> split <;> omega
  have lt := place_lt inside (show q.length ≤ clp.cCn by omega)
  have here := ring.slots q.length x (by simp)
  have final : Ring {clp with cCl := some (place clp.cCn f q.length),cCc := clp.cCc - 1} q f := by
    refine ⟨by dsimp only; omega,by dsimp only; omega,inside,ring.front,rfl,fun k y mem => ?_⟩
    have lt := (List.getElem?_eq_some_iff.mp mem).1
    refine ring.slots k y ?_
    rw [List.getElem?_append_left lt]
    exact mem
  rw [unputc,if_neg nonzero,ring.derefBack,ok_bind]
  dsimp only
  rw [back,readByte_ok lt,ok_bind,isset_ok lt,ok_bind,here]
  refine ⟨_,rfl,?_,final.drained⟩
  unfold drained
  split <;> rfl

theorem Ring.append {clp t : Clist} (ring : Ring clp q f) (room : q.length + r.length ≤ clp.cCn) (size : t.cCn = clp.cCn)
    (amount : t.cCc = q.length + r.length) (front : t.cCf = clp.cCf)
    (back : t.cCl = some (place clp.cCn f (q.length + r.length)))
    (kept : ∀ k < q.length, slot t (place clp.cCn f k) = slot clp (place clp.cCn f k))
    (added : ∀ k x, r[k]? = some x → slot t (place clp.cCn f (q.length + k)) = x) : Ring t (q ++ r) f where
  amount := by rw [List.length_append,amount]
  room := by
    rw [List.length_append,size]
    exact room
  inside := size ▸ ring.inside
  front := front.trans ring.front
  back := by rw [List.length_append,size,back]
  slots := by
    intro k x mem
    rw [size]
    by_cases old : k < q.length
    · rw [List.getElem?_append_left old] at mem
      rw [kept k old]
      exact ring.slots k x mem
    rw [List.getElem?_append_right (by omega)] at mem
    have := added (k - q.length) x mem
    rwa [Nat.add_sub_cancel' (by omega)] at this

theorem primed_size (clp : Clist) : (primed clp).cCn = clp.cCn := by
  unfold primed
  split <;> rfl

theorem putc_spec (holds : Holds clp q) (space : q.length ≠ clp.cCn) (c : BitVec 32) :
    ∃ t, putc c clp = .ok (0,t) ∧ t.cCn = clp.cCn ∧ Holds t (q ++ [(c.setWidth 8,decide (c &&& ttyQuote ≠ 0))]) := by
  have room := holds.room
  have full : clp.cCc ≠ clp.cCn := by
    rw [holds.amount]
    exact space
  obtain ⟨f,ring⟩ := holds.primed full
  have size := primed_size clp
  have inside := ring.inside
  rw [← size] at room space
  have lt := place_lt inside room
  have written : writeByte (primed clp) (place (primed clp).cCn f q.length) (c.setWidth 8) =
      .ok {primed clp with cs := update (primed clp).cs (place (primed clp).cCn f q.length) (c.setWidth 8)} := if_pos lt
  obtain ⟨cq,ran,bits⟩ : ∃ cq, (if c &&& ttyQuote ≠ 0 then setbit (primed clp).cCn (primed clp).cq (place (primed clp).cCn f q.length)
        else clrbit (primed clp).cCn (primed clp).cq (place (primed clp).cCn f q.length)) = .ok cq ∧
      quoted cq (place (primed clp).cCn f q.length) = decide (c &&& ttyQuote ≠ 0) ∧
      ∀ i, i ≠ place (primed clp).cCn f q.length → quoted cq i = quoted (primed clp).cq i := by
    by_cases quote : c &&& ttyQuote ≠ 0
    · obtain ⟨cq,ran,bits⟩ := setbit_spec (primed clp).cq lt
      refine ⟨cq,by rw [if_pos quote,ran],?_,fun i ne => ?_⟩
      · rw [bits,decide_eq_true quote]
        simp
      rw [bits]
      simp [ne]
    obtain ⟨cq,ran,bits⟩ := clrbit_spec (primed clp).cq lt
    refine ⟨cq,by rw [if_neg quote,ran],?_,fun i ne => ?_⟩
    · rw [bits,decide_eq_false quote]
      simp
    rw [bits]
    simp [ne]
  rw [putc,if_neg full]
  dsimp only
  rw [ring.derefBack,ok_bind,written,ok_bind]
  rw [ran,ok_bind]
  refine ⟨_,rfl,size,.inl ⟨⟨f,ring.append (by simp; omega) rfl ?_ rfl ?_ (fun k old => ?_) (fun k x mem => ?_)⟩,by simp⟩⟩
  · rw [ring.amount]
    rfl
  · dsimp only [List.length_singleton]
    have next : wrap (primed clp) (place (primed clp).cCn f q.length + 1) = _ := wrap_eq lt lt
    rw [← place_add inside (by omega),← next]
    rfl
  · have other : place (primed clp).cCn f k ≠ place (primed clp).cCn f q.length := fun same => by
      have := place_injective inside (by omega) (by omega) same
      omega
    unfold slot
    dsimp only
    rw [update_of_ne other,bits.2 _ other]
  obtain ⟨rfl,rfl⟩ : k = 0 ∧ x = (c.setWidth 8,decide (c &&& ttyQuote ≠ 0)) := by
    cases k with
    | zero => exact ⟨rfl,(Option.some.inj mem).symm⟩
    | succ k => simp at mem
  unfold slot
  dsimp only
  rw [add_zero,update_self,bits.1]

theorem space_spec (ring : Ring clp q f) (space : q.length < clp.cCn) (positive : 0 < count) :
    ∃ c, (let cc := if f > place clp.cCn f q.length then f - place clp.cCn f q.length else clp.cCn - place clp.cCn f q.length
        if (cc : Int) > count then count.toNat else cc) = c ∧ 0 < c ∧ q.length + c ≤ clp.cCn ∧
      place clp.cCn f q.length + c ≤ clp.cCn ∧ (c : Int) ≤ count ∧
      ((c : Int) = count ∨ q.length + c = clp.cCn ∨ f ≤ place clp.cCn f q.length ∧ place clp.cCn f (q.length + c) < f) := by
  have inside := ring.inside
  refine ⟨_,rfl,?_⟩
  unfold place
  dsimp only
  split <;> split <;> split <;> (try split) <;> omega

def demand (cn f : Nat) (q : Queue) (count : Int) : Nat :=
  if count ≤ 0 ∨ q.length = cn then 1 else if place cn f q.length < f then 2 else 3

theorem demand_le (cn f : Nat) (q : Queue) (count : Int) : demand cn f q count ≤ 3 := by
  unfold demand
  split
  · omega
  · split <;> omega

theorem chunk_appended (ring : Ring clp q f) (positive : 0 < c) (room : q.length + c ≤ clp.cCn)
    (fits : place clp.cCn f q.length + c ≤ clp.cCn) (enough : c ≤ p.length) :
    ∃ t cq, copyIn clp (place clp.cCn f q.length) c p = .ok t ∧ clrbits t.cCn t.cq (place clp.cCn f q.length) c = .ok cq ∧
      t.cCn = clp.cCn ∧
      Ring {t with cq := cq,cCc := t.cCc + c,cCl := some (wrap t (place clp.cCn f q.length + c))}
        (q ++ (p.take c).map fun byte => (byte,false)) f := by
  have inside := ring.inside
  have lt := place_lt inside (show q.length ≤ clp.cCn by omega)
  obtain ⟨cq,ran,bits⟩ := clrbits_spec clp.cq positive fits
  have copied : copyIn clp (place clp.cCn f q.length) c p = .ok {clp with cs := overlay clp.cs (place clp.cCn f q.length) c p} := by
    rw [copyIn,if_pos enough,if_pos fits]
  refine ⟨_,cq,copied,ran,rfl,ring.append ?_ rfl ?_ rfl ?_ (fun k old => ?_) (fun k x mem => ?_)⟩
  · simp only [List.length_map,List.length_take]
    omega
  · simp only [List.length_map,List.length_take]
    have := ring.amount
    omega
  · have next : wrap clp (place clp.cCn f q.length + c) = _ := wrap_eq lt fits
    simp only [List.length_map,List.length_take,min_eq_left enough]
    rw [← place_add inside room,← next]
    rfl
  · -- an old place is not among the new ones
    have out : ¬(place clp.cCn f q.length ≤ place clp.cCn f k ∧ place clp.cCn f k < place clp.cCn f q.length + c) := by
      rintro ⟨low,high⟩
      unfold place at low high fits
      split at low <;> split at low <;> simp_all <;> omega
    unfold slot overlay
    dsimp only
    rw [if_neg out,bits,decide_eq_true out,Bool.true_and]
  obtain ⟨small,rfl⟩ := List.getElem?_eq_some_iff.mp mem
  simp only [List.length_map,List.length_take] at small
  have here : place clp.cCn f (q.length + k) = place clp.cCn f q.length + k := by
    rw [← place_add inside (by omega)]
    exact if_pos (by omega)
  have within : place clp.cCn f q.length ≤ place clp.cCn f q.length + k ∧
      place clp.cCn f q.length + k < place clp.cCn f q.length + c := by omega
  unfold slot overlay
  dsimp only
  rw [here,if_pos within,bits,decide_eq_false (fun out => out within),Bool.false_and,Nat.add_sub_cancel_left]
  simp only [List.getElem_map,List.getElem_take]
  rw [List.getD_eq_getElem?_getD,List.getElem?_eq_getElem (by omega)]
  rfl

theorem bToQLoop_spec (rounds : Nat) (p : List (BitVec 8)) {count : Int} (ring : Ring clp q f) (nonneg : 0 ≤ count)
    (given : count ≤ p.length) (enough : demand clp.cCn f q count ≤ rounds) :
    ∃ t, bToQLoop rounds clp count p = .ok (count - min count.toNat (clp.cCn - q.length),t) ∧ t.cCn = clp.cCn ∧
      Ring t (q ++ (p.take (min count.toNat (clp.cCn - q.length))).map fun byte => (byte,false)) f := by
  induction rounds generalizing clp q count p with
  | zero =>
    unfold demand at enough
    split at enough
    · omega
    · split at enough <;> omega
  | succ rounds ih =>
    have amount := ring.amount
    rw [bToQLoop]
    by_cases more : count > 0 ∧ clp.cCc < clp.cCn
    · obtain ⟨c,same,positive,fits,inside,under,ends⟩ := space_spec ring (by omega) more.1
      obtain ⟨t,cq,copied,cleared,size,next⟩ := chunk_appended (p := p) ring positive fits inside (by omega)
      have length : (q ++ (p.take c).map fun byte => (byte,false)).length = q.length + c := by
        simp only [List.length_append,List.length_map,List.length_take]
        omega
      have fewer : demand t.cCn f (q ++ (p.take c).map fun byte => (byte,false)) (count - c) ≤ rounds := by
        unfold demand at enough ⊢
        rw [if_neg (by omega)] at enough
        rw [length,size]
        split
        · split at enough <;> omega
        next go =>
        rw [if_pos (by omega)]
        split at enough <;> omega
      rw [if_pos more,ring.derefFront,ok_bind,ring.derefBack,ok_bind]
      dsimp only at same ⊢
      rw [same,copied,ok_bind,cleared,ok_bind]
      obtain ⟨u,ran,sized,final⟩ := ih (p.drop c) next (by omega) (by rw [List.length_drop]; omega) fewer
      dsimp only at ran sized final
      rw [length] at ran final
      have split : min count.toNat (clp.cCn - q.length) = c + min (count - c).toNat (t.cCn - (q.length + c)) := by omega
      refine ⟨u,?_,sized.trans size,?_⟩
      · rw [ran]
        congr 2
        omega
      rw [split,List.take_add,List.map_append,← List.append_assoc]
      exact final
    have nothing : min count.toNat (clp.cCn - q.length) = 0 := by omega
    rw [if_neg more,nothing]
    exact ⟨clp,by simp,rfl,by simpa using ring⟩

theorem bToQ_spec (holds : Holds clp q) (p : List (BitVec 8)) (count : Int) (given : count ≤ p.length) :
    ∃ t, bToQ p count clp = .ok (count.toNat - min count.toNat (clp.cCn - q.length),t) ∧ t.cCn = clp.cCn ∧
      Holds t (q ++ (p.take (min count.toNat (clp.cCn - q.length))).map fun byte => (byte,false)) := by
  have amount := holds.amount
  unfold bToQ
  split
  · rw [show count.toNat = 0 by omega,Nat.zero_min]
    exact ⟨clp,rfl,rfl,by simpa using holds⟩
  by_cases full : clp.cCc = clp.cCn
  · have nothing : min count.toNat (clp.cCn - q.length) = 0 := by omega
    rw [if_pos full,nothing]
    exact ⟨clp,by simp; omega,rfl,by simpa using holds⟩
  rw [if_neg full]
  obtain ⟨f,ring⟩ := holds.primed full
  obtain ⟨t,ran,size,final⟩ := bToQLoop_spec 3 p ring (by omega) given (demand_le _ _ _ _)
  rw [primed_size] at ran size final
  have lengths : (q ++ (p.take (min count.toNat (clp.cCn - q.length))).map fun byte => (byte,false)) ≠ [] := by
    intro none
    have := congrArg List.length none
    simp only [List.length_append,List.length_map,List.length_take,List.length_nil] at this
    omega
  refine ⟨t,?_,size,.inl ⟨⟨f,final⟩,lengths⟩⟩
  rw [ran]
  congr 2
  omega

-- The calls a caller may make: a buffer given to b_to_q holds `count` bytes.
def Legal : Op → Prop
  | .bToQ cp count => count ≤ cp.length
  | _ => True

theorem step_spec (holds : Holds clp q) (legal : Legal op) :
    ∃ t, step clp op = .ok ((answer clp.cCn q op).1,t) ∧ t.cCn = clp.cCn ∧ Holds t (answer clp.cCn q op).2 := by
  have amount := holds.amount
  cases op with
  | putc c =>
    by_cases full : q.length = clp.cCn
    · have same : answer clp.cCn q (.putc c) = (.char (-1),q) := if_pos full
      rw [same]
      refine ⟨clp,?_,rfl,holds⟩
      change (putc c clp >>= _) = _
      rw [putc,if_pos (amount.trans full)]
      rfl
    have same : answer clp.cCn q (.putc c) = (.char 0,q ++ [(c.setWidth 8,decide (c &&& ttyQuote ≠ 0))]) := if_neg full
    obtain ⟨t,ran,size,next⟩ := putc_spec holds full c
    rw [same]
    refine ⟨t,?_,size,next⟩
    change (putc c clp >>= _) = _
    rw [ran]
    rfl
  | unputc =>
    rcases List.eq_nil_or_concat q with rfl | ⟨init,x,same⟩
    · refine ⟨clp,?_,rfl,holds⟩
      change (unputc clp >>= _) = _
      rw [unputc,if_pos (show clp.cCc = 0 from amount)]
      rfl
    rw [List.concat_eq_append] at same
    subst same
    have same : answer clp.cCn (init ++ [x]) .unputc = (.char (code x),init) := by
      rw [answer,List.getLast?_concat]
      simp
    obtain ⟨t,ran,size,next⟩ := unputc_spec holds
    rw [same]
    refine ⟨t,?_,size,next⟩
    change (unputc clp >>= _) = _
    rw [ran]
    rfl
  | getc =>
    cases q with
    | nil =>
      refine ⟨clp,?_,rfl,holds⟩
      change (getc clp >>= _) = _
      rw [getc,if_pos (show clp.cCc = 0 from amount)]
      rfl
    | cons x rest =>
      obtain ⟨t,ran,size,next⟩ := getc_spec holds
      refine ⟨t,?_,size,next⟩
      change (getc clp >>= _) = _
      rw [ran]
      rfl
  | bToQ cp count =>
    obtain ⟨t,ran,size,next⟩ := bToQ_spec holds cp count legal
    refine ⟨t,?_,size,next⟩
    change (bToQ cp count clp >>= _) = _
    rw [ran]
    rfl
  | qToB count =>
    obtain ⟨t,ran,size,next⟩ := drainedLoop_spec holds count
    refine ⟨drained t,?_,?_,next⟩
    · change (qToB clp count >>= _) = _
      rw [qToB,ran]
      rfl
    rw [← size]
    unfold drained
    split <;> rfl
  | ndflush count =>
    change ∃ t, (ndflush clp count >>= _) = _ ∧ _ ∧ _
    rw [ndflush]
    by_cases all : count = clp.cCc
    · rw [if_pos all]
      refine ⟨_,rfl,rfl,.inr ⟨?_,rfl,rfl,rfl⟩⟩
      refine List.drop_eq_nil_iff.mpr ?_
      omega
    obtain ⟨t,ran,size,next⟩ := drainedLoop_spec holds count
    rw [if_neg all,ndflushLoop_eq ran]
    refine ⟨drained t,rfl,?_,next⟩
    rw [← size]
    unfold drained
    split <;> rfl

inductive Reached (size : Nat) : Clist → Queue → Prop where
  | created : Reached size (clalloc size) []
  | step : Reached size clp q → Legal op → step clp op = .ok (reply,next) → Reached size next (answer size q op).2

theorem reached_holds (reached : Reached size clp q) : clp.cCn = size ∧ Holds clp q := by
  induction reached with
  | created => exact ⟨rfl,holds_clalloc size⟩
  | step prior legal ran ih =>
    obtain ⟨same,holds⟩ := ih
    obtain ⟨t,stepped,sized,next⟩ := step_spec holds legal
    cases ran.symm.trans stepped
    rw [← same]
    exact ⟨sized,next⟩

-- Every call returns what the queue says, and the count is the queue's length.
theorem clist_refines (size : Nat) (clp : Clist) (q : Queue) (reached : Reached size clp q) :
    clp.cCc = q.length ∧ q.length ≤ size ∧
      ∀ op, Legal op → ∃ next, step clp op = .ok ((answer size q op).1,next) ∧ Reached size next (answer size q op).2 := by
  obtain ⟨rfl,holds⟩ := reached_holds reached
  refine ⟨holds.amount,holds.room,fun op legal => ?_⟩
  obtain ⟨next,ran,_,_⟩ := step_spec holds legal
  exact ⟨next,ran,.step reached legal ran⟩

theorem clist_refines_three : ∃ next, step (clalloc 3) (.bToQ [65#8,66#8] 2) = .ok (.left 0,next) := by
  obtain ⟨_,_,all⟩ := clist_refines 3 (clalloc 3) [] .created
  obtain ⟨next,ran,_⟩ := all (.bToQ [65#8,66#8] 2) (show (2 : Int) ≤ ([65#8,66#8] : List (BitVec 8)).length by decide)
  exact ⟨next,ran⟩
end NetbsdAvr32.Clist
