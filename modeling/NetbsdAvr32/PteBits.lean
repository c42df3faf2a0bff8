import Mathlib.Data.Nat.Bitwise
import NetbsdAvr32.PmapView

namespace NetbsdAvr32.Avr32
open Nat
variable {m : Machine} {w a b code prot attrs : Word} {k n pa va asid : Nat} {pmap : PmapRef}

theorem has_bit (w : Word) (k : Nat) (small : k < 32) : has w (BitVec.twoPow 32 k) = w.getLsbD k := by
  unfold has
  cases bit : w.getLsbD k with
  | true =>
    have some : w &&& BitVec.twoPow 32 k ≠ 0#32 := by
      intro none
      have here := congrArg (BitVec.getLsbD · k) none
      simp only [BitVec.getLsbD_and,bit,BitVec.getLsbD_twoPow,small,BitVec.getLsbD_zero] at here
      simp at here
    simpa using some
  | false =>
    have none : w &&& BitVec.twoPow 32 k = 0#32 := by
      apply BitVec.eq_of_getLsbD_eq
      intro j _
      by_cases here : k = j
      · subst j; simp [bit]
      · simp [here]
    simp [none]

theorem has_valid (w : Word) : has w avr32PteValid = w.getLsbD 31 := has_bit w 31 (by decide)
theorem has_wired (w : Word) : has w avr32PteWired = w.getLsbD 30 := has_bit w 30 (by decide)
theorem has_tlbValid (w : Word) : has w avr32PgValid = w.getLsbD 9 := has_bit w 9 (by decide)
theorem has_global (w : Word) : has w avr32PgGlobal = w.getLsbD 8 := has_bit w 8 (by decide)
theorem has_write (w : Word) : has w avr32PgAccessRw = w.getLsbD 5 := has_bit w 5 (by decide)
theorem has_dirty (w : Word) : has w avr32PgDirty = w.getLsbD 1 := has_bit w 1 (by decide)

theorem frame_bit (small : k < 32) : avr32PgFrame.getLsbD k = decide (12 ≤ k ∧ k < 30) := by
  have all : ∀ k : Fin 32, avr32PgFrame.getLsbD k = decide (12 ≤ k.val ∧ k.val < 30) := by decide
  exact all ⟨k,small⟩

theorem vpn_bit (small : k < 32) : avr32PgVpn.getLsbD k = decide (12 ≤ k) := by
  have all : ∀ k : Fin 32, avr32PgVpn.getLsbD k = decide (12 ≤ k.val) := by decide
  exact all ⟨k,small⟩

theorem asid_bit (small : k < 32) : avr32PgAsid.getLsbD k = decide (k < 8) := by
  have all : ∀ k : Fin 32, avr32PgAsid.getLsbD k = decide (k.val < 8) := by decide
  exact all ⟨k,small⟩

theorem frame_same (same : ∀ k, 12 ≤ k → k < 30 → a.getLsbD k = b.getLsbD k) :
    avr32TlbpfnToPaddr a = avr32TlbpfnToPaddr b := by
  apply BitVec.eq_of_getLsbD_eq
  intro k small
  simp only [avr32TlbpfnToPaddr,BitVec.getLsbD_and,frame_bit small]
  by_cases inside : 12 ≤ k ∧ k < 30
  · rw [same k inside.1 inside.2]
  · simp [inside]

theorem high_bit {a j k : Nat} (low : a < 2 ^ j) (high : j ≤ k) : a.testBit k = false :=
  Nat.testBit_eq_false_of_lt (Nat.lt_of_lt_of_le low (Nat.pow_le_pow_right (by decide) high))

theorem aligned_bit (aligned : pa % nbpg = 0) (low : k < 12) : pa.testBit k = false := by
  have shape : pa = pa / nbpg * 2 ^ 12 := by simp only [nbpg] at *; omega
  rw [shape,testBit_mul_two_pow]
  simp [low]

theorem ofNat_bit (small : k < 32) : (BitVec.ofNat 32 pa).getLsbD k = pa.testBit k := by
  rw [BitVec.getLsbD_ofNat]
  simp [small]

theorem frame_ofNat (aligned : pa % nbpg = 0) (low : pa < 2 ^ 30) :
    avr32PaddrToTlbpfn (BitVec.ofNat 32 pa) = BitVec.ofNat 32 pa := by
  apply BitVec.eq_of_getLsbD_eq
  intro k small
  simp only [avr32PaddrToTlbpfn,BitVec.getLsbD_and,frame_bit small,ofNat_bit small]
  by_cases under : k < 12
  · simp [aligned_bit aligned under]
  by_cases beyond : 30 ≤ k
  · simp [high_bit low beyond]
  have inside : 12 ≤ k ∧ k < 30 := by omega
  simp [inside]

theorem frame_aligned (w : Word) : (avr32TlbpfnToPaddr w).toNat % nbpg = 0 := by
  have zero : (avr32TlbpfnToPaddr w).toNat % 2 ^ 12 = 0 := by
    apply eq_of_testBit_eq
    intro k
    rw [testBit_mod_two_pow,zero_testBit]
    by_cases low : k < 12
    · have clear : (avr32TlbpfnToPaddr w).getLsbD k = false := by
        rw [avr32TlbpfnToPaddr,BitVec.getLsbD_and,frame_bit (by omega)]
        simp [not_le.mpr low]
      rw [← BitVec.getLsbD,clear,Bool.and_false]
    · simp [low]
  exact zero

theorem frame_page (same : (avr32TlbpfnToPaddr w).toNat / nbpg = pa / nbpg) (aligned : pa % nbpg = 0) :
    avr32TlbpfnToPaddr w = BitVec.ofNat 32 pa := by
  have mine := frame_aligned w
  have equal : (avr32TlbpfnToPaddr w).toNat = pa := by simp only [nbpg] at *; omega
  rw [← equal,BitVec.ofNat_toNat,BitVec.setWidth_eq]

section
variable (small : k < 32)
include small

theorem valid_bit : avr32PteValid.getLsbD k = decide (k = 31) := by
  have all : ∀ k : Fin 32, avr32PteValid.getLsbD k = decide (k.val = 31) := by decide
  exact all ⟨k,small⟩

theorem wired_bit : avr32PteWired.getLsbD k = decide (k = 30) := by
  have all : ∀ k : Fin 32, avr32PteWired.getLsbD k = decide (k.val = 30) := by decide
  exact all ⟨k,small⟩

theorem cached_bit : avr32PgCached.getLsbD k = decide (k = 9) := by
  have all : ∀ k : Fin 32, avr32PgCached.getLsbD k = decide (k.val = 9) := by decide
  exact all ⟨k,small⟩

theorem size_bit : avr32PgSize4K.getLsbD k = decide (k = 2) := by
  have all : ∀ k : Fin 32, avr32PgSize4K.getLsbD k = decide (k.val = 2) := by decide
  exact all ⟨k,small⟩

theorem dirty_bit : avr32PgDirty.getLsbD k = decide (k = 1) := by
  have all : ∀ k : Fin 32, avr32PgDirty.getLsbD k = decide (k.val = 1) := by decide
  exact all ⟨k,small⟩

theorem access_bit : avr32PgAccess.getLsbD k = decide (4 ≤ k ∧ k < 7) := by
  have all : ∀ k : Fin 32, avr32PgAccess.getLsbD k = decide (4 ≤ k.val ∧ k.val < 7) := by decide
  exact all ⟨k,small⟩
end
section
variable (chosen : pteProt pmap prot = .ok code)
include chosen

theorem pteProt_row :
    ∃ j : Fin 8, prot = BitVec.ofNat 32 j ∧ (protectionCodes[if pmap = .kernel then 0 else 1]?).bind (·[j.val]?) = some code := by
  unfold pteProt at chosen
  have small : prot.toNat < 8 := by
    by_contra large
    have none : (protectionCodes[if pmap = .kernel then 0 else 1]?).bind (·[prot.toNat]?) = none := by
      split <;> simp [protectionCodes] <;> omega
    rw [none] at chosen
    cases chosen
  refine ⟨⟨prot.toNat,small⟩,by simp,?_⟩
  cases row : (protectionCodes[if pmap = .kernel then 0 else 1]?).bind (·[prot.toNat]?) with
  | none => rw [row] at chosen; cases chosen
  | some c => rw [row] at chosen; cases chosen; rfl

theorem code_access : code &&& avr32PgAccess = code := by
  obtain ⟨j,_,row⟩ := pteProt_row chosen
  have all : ∀ j : Fin 8, ∀ kernel : Bool,
      ((protectionCodes[if kernel then 0 else 1]?).bind (·[j.val]?)).all (fun c => c &&& avr32PgAccess = c) := by decide
  have here := all j (pmap = .kernel)
  simp only [decide_eq_true_eq] at here
  rw [row] at here
  simpa using here

theorem code_write : has code avr32PgAccessRw = has prot vmProtWrite := by
  obtain ⟨j,rfl,row⟩ := pteProt_row chosen
  have all : ∀ j : Fin 8, ∀ kernel : Bool, ((protectionCodes[if kernel then 0 else 1]?).bind (·[j.val]?)).all
      (fun c => has c avr32PgAccessRw = has (BitVec.ofNat 32 j) vmProtWrite) := by decide
  have here := all j (pmap = .kernel)
  simp only [decide_eq_true_eq] at here
  rw [row] at here
  simpa using here

theorem code_bit (small : k < 32) (outside : k < 4 ∨ 7 ≤ k) :
    code.getLsbD k = false := by
  rw [← code_access chosen,BitVec.getLsbD_and,access_bit small]
  have out : ¬ (4 ≤ k ∧ k < 7) := by omega
  simp [out]
end

def userWord (code prot attrs : Word) (pa : Nat) (wired : Bool) : Word :=
  enterWord (userPteWord (enterBits code prot attrs) (BitVec.ofNat 32 pa)) wired

section
variable {wired : Bool} (chosen : pteProt pmap prot = .ok code) (aligned : pa % nbpg = 0) (low : pa < 2 ^ 29)
include aligned low

theorem userWord_bit (small : k < 32) : (userWord code prot attrs pa wired).getLsbD k =
    (code.getLsbD k || decide (k = 9) || (decide (has prot vmProtWrite ∧ has attrs pvModified) && decide (k = 1)) ||
      pa.testBit k || decide (k = 31) || decide (k = 2) || (wired && decide (k = 30))) := by
  have frame := frame_ofNat aligned (lt_trans low (by decide))
  have base : (userPteWord (enterBits code prot attrs) (BitVec.ofNat 32 pa)).getLsbD k =
      (code.getLsbD k || decide (k = 9) || (decide (has prot vmProtWrite ∧ has attrs pvModified) && decide (k = 1)) ||
        pa.testBit k || decide (k = 31) || decide (k = 2)) := by
    simp only [userPteWord,enterBits,frame,BitVec.getLsbD_or,valid_bit small,cached_bit small,size_bit small,ofNat_bit small]
    split
    · rename_i both
      simp only [both,and_self,decide_true,Bool.true_and,BitVec.getLsbD_or,cached_bit small,dirty_bit small]
      grind
    rename_i not
    simp only [not,decide_false,Bool.false_and,BitVec.getLsbD_or,cached_bit small]
    grind
  unfold userWord enterWord
  cases wired with
  | false => simp [base]
  | true => simp only [↓reduceIte,BitVec.getLsbD_or,base,wired_bit small,Bool.true_and]

theorem userWord_valid : has (userWord code prot attrs pa wired) avr32PteValid = true := by
  rw [has_valid,userWord_bit aligned low (by decide)]
  simp

include chosen

theorem userWord_wired : has (userWord code prot attrs pa wired) avr32PteWired = wired := by
  rw [has_wired,userWord_bit aligned low (by decide),code_bit chosen (by decide) (by decide),high_bit low (by decide)]
  simp

theorem userWord_local : has (userWord code prot attrs pa wired) avr32PgGlobal = false := by
  rw [has_global,userWord_bit aligned low (by decide),code_bit chosen (by decide) (by decide),
    aligned_bit aligned (by decide)]
  simp

theorem userWord_dirty :
    has (userWord code prot attrs pa wired) avr32PgDirty = decide (has prot vmProtWrite ∧ has attrs pvModified) := by
  rw [has_dirty,userWord_bit aligned low (by decide),code_bit chosen (by decide) (by decide),
    aligned_bit aligned (by decide)]
  simp

theorem userWord_write : has (userWord code prot attrs pa wired) avr32PgAccessRw = has prot vmProtWrite := by
  rw [← code_write chosen,has_write,has_write,userWord_bit aligned low (by decide),aligned_bit aligned (by decide)]
  simp

theorem userWord_frame : avr32TlbpfnToPaddr (userWord code prot attrs pa wired) = BitVec.ofNat 32 pa := by
  rw [← frame_ofNat aligned (lt_trans low (by decide))]
  refine frame_same ?_
  intro k above under
  have small : k < 32 := by omega
  have apart : k ≠ 9 ∧ k ≠ 1 ∧ k ≠ 31 ∧ k ≠ 2 ∧ k ≠ 30 := by omega
  rw [userWord_bit aligned low small,code_bit chosen small (by omega),ofNat_bit small]
  simp [apart]
end

-- The word it writes for the kernel pmap. AVR32_PG_VALID is the bit of
-- AVR32_PG_CACHED, and AVR32_PTE_VALID stays clear.
def kernelWord (code prot attrs : Word) (pa : Nat) (wired : Bool) : Word :=
  enterWord (kernelPte (enterBits code prot attrs) (BitVec.ofNat 32 pa)) wired

section
variable {wired : Bool} (chosen : pteProt pmap prot = .ok code) (aligned : pa % nbpg = 0) (low : pa < 2 ^ 29)
include aligned low

theorem kernelWord_bit (small : k < 32) : (kernelWord code prot attrs pa wired).getLsbD k =
    (code.getLsbD k || decide (k = 9) || (decide (has prot vmProtWrite ∧ has attrs pvModified) && decide (k = 1)) ||
      pa.testBit k || decide (k = 8) || decide (k = 2) || (wired && decide (k = 30))) := by
  have frame := frame_ofNat aligned (lt_trans low (by decide))
  have global : avr32PgGlobal.getLsbD k = decide (k = 8) := by
    have all : ∀ k : Fin 32, avr32PgGlobal.getLsbD k = decide (k.val = 8) := by decide
    exact all ⟨k,small⟩
  have valid : avr32PgValid.getLsbD k = decide (k = 9) := cached_bit small
  have base : (kernelPte (enterBits code prot attrs) (BitVec.ofNat 32 pa)).getLsbD k =
      (code.getLsbD k || decide (k = 9) || (decide (has prot vmProtWrite ∧ has attrs pvModified) && decide (k = 1)) ||
        pa.testBit k || decide (k = 8) || decide (k = 2)) := by
    simp only [kernelPte,enterBits,frame,BitVec.getLsbD_or,valid,cached_bit small,size_bit small,ofNat_bit small,global]
    split
    · rename_i both
      simp only [both,and_self,decide_true,Bool.true_and,BitVec.getLsbD_or,cached_bit small,dirty_bit small]
      grind
    rename_i not
    simp only [not,decide_false,Bool.false_and,BitVec.getLsbD_or,cached_bit small]
    grind
  unfold kernelWord enterWord
  cases wired with
  | false => simp [base]
  | true => simp only [↓reduceIte,BitVec.getLsbD_or,base,wired_bit small,Bool.true_and]

include chosen

theorem kernelWord_valid : has (kernelWord code prot attrs pa wired) avr32PteValid = false := by
  rw [has_valid,kernelWord_bit aligned low (by decide),code_bit chosen (by decide) (by decide),high_bit low (by decide)]
  simp

theorem kernelWord_dirty :
    has (kernelWord code prot attrs pa wired) avr32PgDirty = decide (has prot vmProtWrite ∧ has attrs pvModified) := by
  rw [has_dirty,kernelWord_bit aligned low (by decide),code_bit chosen (by decide) (by decide),
    aligned_bit aligned (by decide)]
  simp

theorem kernelWord_frame : avr32TlbpfnToPaddr (kernelWord code prot attrs pa wired) = BitVec.ofNat 32 pa := by
  rw [← frame_ofNat aligned (lt_trans low (by decide))]
  refine frame_same ?_
  intro k above under
  have small : k < 32 := by omega
  have apart : k ≠ 9 ∧ k ≠ 1 ∧ k ≠ 8 ∧ k ≠ 2 ∧ k ≠ 30 := by omega
  rw [kernelWord_bit aligned low small,code_bit chosen small (by omega),ofNat_bit small]
  simp [apart]
end

def cleaned (w : Word) : Word := w &&& ~~~avr32PgDirty

theorem cleaned_bit (small : k < 32) : (cleaned w).getLsbD k = (w.getLsbD k && decide (k ≠ 1)) := by
  rw [cleaned,BitVec.getLsbD_and,BitVec.getLsbD_not,dirty_bit small]
  simp [small]

theorem cleaned_dirty (w : Word) : has (cleaned w) avr32PgDirty = false := by
  rw [has_dirty,cleaned_bit (by decide)]
  simp

theorem cleaned_valid (w : Word) : has (cleaned w) avr32PteValid = has w avr32PteValid := by
  rw [has_valid,has_valid,cleaned_bit (by decide)]
  simp

theorem cleaned_frame (w : Word) : avr32TlbpfnToPaddr (cleaned w) = avr32TlbpfnToPaddr w := by
  refine frame_same (fun k above under => ?_)
  rw [cleaned_bit (by omega)]
  have apart : k ≠ 1 := by omega
  simp [apart]

theorem cleaned_clean (clean : has w avr32PgDirty = false) : cleaned w = w := by
  apply BitVec.eq_of_getLsbD_eq
  intro k small
  rw [cleaned_bit small]
  by_cases here : k = 1
  · subst k
    rw [← has_dirty,clean]
    rfl
  · simp [here]

theorem tlbehi_invalid (aligned : va % nbpg = 0) (small : asid < 512) :
    has (BitVec.ofNat 32 va ||| BitVec.ofNat 32 asid) avr32PgValid = false := by
  rw [has_tlbValid,BitVec.getLsbD_or,ofNat_bit (by decide),ofNat_bit (by decide),aligned_bit aligned (by decide),
    testBit_eq_false_of_lt (show asid < 2 ^ 9 from small)]
  rfl

section
variable (chosen : pteProt pmap prot = .ok code)
include chosen

theorem reprotected_bit (small : k < 32) (outside : k < 4 ∨ 7 ≤ k)
    (other : k ≠ 1) : (reprotected code w).getLsbD k = w.getLsbD k := by
  have out : ¬ (4 ≤ k ∧ k < 7) := by omega
  simp only [reprotected,BitVec.getLsbD_or,BitVec.getLsbD_and,BitVec.getLsbD_not,access_bit small,dirty_bit small,
    code_bit chosen small outside]
  simp [small,out,other]

theorem reprotected_dirty : has (reprotected code w) avr32PgDirty = false := by
  rw [has_dirty]
  simp only [reprotected,BitVec.getLsbD_or,BitVec.getLsbD_and,BitVec.getLsbD_not,BitVec.getLsbD_or,
    dirty_bit (show 1 < 32 by decide),code_bit chosen (show 1 < 32 by decide) (by decide)]
  simp

theorem reprotected_frame :
    avr32TlbpfnToPaddr (reprotected code w) = avr32TlbpfnToPaddr w :=
  frame_same (fun _ above under => reprotected_bit chosen (by omega) (by omega) (by omega))
end

theorem dirtied_bit (small : k < 32) (other : k ≠ 1) : (w ||| avr32PgDirty).getLsbD k = w.getLsbD k := by
  rw [BitVec.getLsbD_or,dirty_bit small]
  simp [other]

theorem dirtied_frame (w : Word) : avr32TlbpfnToPaddr (w ||| avr32PgDirty) = avr32TlbpfnToPaddr w :=
  frame_same (fun _ above under => dirtied_bit (by omega) (by omega))
end NetbsdAvr32.Avr32
