import Mathlib.Order.Interval.Finset.Nat

-- Bit maps kept in bytes, and scans over bytes that stop at the first one of a kind.
namespace NetbsdAvr32.ByteMap
open Nat Finset

abbrev Byte := BitVec 8
def NBBY : Nat := 8
def bit (i : Nat) : Byte := 1#8 <<< (i % NBBY)

def isset (a : Nat → Byte) (i : Nat) : Bool := a (i / NBBY) &&& bit i ≠ 0
def isclr (a : Nat → Byte) (i : Nat) : Bool := a (i / NBBY) &&& bit i = 0
def setbit (a : Nat → Byte) (i : Nat) : Nat → Byte := Function.update a (i / NBBY) (a (i / NBBY) ||| bit i)
def clrbit (a : Nat → Byte) (i : Nat) : Nat → Byte := Function.update a (i / NBBY) (a (i / NBBY) &&& ~~~bit i)

-- How many of the size bytes are left at the first that is not skipped.
def skip (skipped : Byte → Bool) : Nat → (Nat → Byte) → Nat
  | 0,_ => 0
  | size + 1,cp => if skipped (cp 0) then skip skipped size (fun i => cp (i + 1)) else size + 1

def free (a : Nat → Byte) (n : Nat) : Finset Nat := (Finset.range n).filter fun i => isset a i = false

variable {a : Nat → Byte} {i j n m : Nat}

theorem getLsbD_bit (i k : Nat) (low : k < NBBY) : (bit i).getLsbD k = decide (k = i % NBBY) := by
  unfold bit NBBY at *
  by_cases same : k = i % 8
  · subst same
    simp [low]
  simp only [same,decide_false,low,decide_true,Bool.true_and]
  by_cases below : k < i % 8
  · simp [below]
  have : k - i % 8 ≠ 0 := by omega
  simp [below,BitVec.getLsbD_one,this]

theorem isset_eq (a : Nat → Byte) (i : Nat) : isset a i = (a (i / NBBY)).getLsbD (i % NBBY) := by
  have low : i % NBBY < NBBY := mod_lt _ (by decide)
  unfold isset
  by_cases set : (a (i / NBBY)).getLsbD (i % NBBY) = true
  · rw [set,decide_eq_true_iff]
    intro zero
    have := congrArg (fun x : Byte => x.getLsbD (i % NBBY)) zero
    simp [getLsbD_bit _ _ low,set] at this
  rw [Bool.eq_false_iff.mpr set,decide_eq_false_iff_not,not_not]
  apply BitVec.eq_of_getLsbD_eq
  intro k here
  rw [BitVec.getLsbD_and,getLsbD_bit _ _ here]
  by_cases same : k = i % NBBY
  · simp [same,Bool.eq_false_iff.mpr set]
  · simp [same]

theorem isclr_eq (a : Nat → Byte) (i : Nat) : isclr a i = !isset a i := by
  unfold isclr isset
  simp

theorem isset_setbit (a : Nat → Byte) (i j : Nat) : isset (setbit a i) j = (isset a j || decide (j = i)) := by
  have low : j % NBBY < NBBY := mod_lt _ (by decide)
  rw [isset_eq,isset_eq,setbit]
  by_cases byte : j / NBBY = i / NBBY
  · rw [byte,Function.update_self,BitVec.getLsbD_or,getLsbD_bit _ _ low]
    congr 2
    apply propext
    constructor
    · intro bits
      rw [← div_add_mod j NBBY,← div_add_mod i NBBY,byte,bits]
    · exact fun same => congrArg (· % NBBY) same
  rw [Function.update_of_ne byte]
  have ne : j ≠ i := fun same => byte (congrArg (· / NBBY) same)
  simp [ne]

theorem isset_clrbit (a : Nat → Byte) (i j : Nat) : isset (clrbit a i) j = (isset a j && decide (j ≠ i)) := by
  have low : j % NBBY < NBBY := mod_lt _ (by decide)
  rw [isset_eq,isset_eq,clrbit]
  by_cases byte : j / NBBY = i / NBBY
  · rw [byte,Function.update_self,BitVec.getLsbD_and,BitVec.getLsbD_not,getLsbD_bit _ _ low]
    have same : (j % NBBY = i % NBBY) = (j = i) := by
      apply propext
      constructor
      · intro bits
        rw [← div_add_mod j NBBY,← div_add_mod i NBBY,byte,bits]
      · exact fun same => congrArg (· % NBBY) same
    have here : decide (j % NBBY < 8) = true := decide_eq_true low
    simp [same,here]
  rw [Function.update_of_ne byte]
  have ne : j ≠ i := fun same => byte (congrArg (· / NBBY) same)
  simp [ne]

theorem isset_byte (a : Nat → Byte) (b : Nat) {k : Nat} (low : k < NBBY) : isset a (b * NBBY + k) = (a b).getLsbD k := by
  have quotient : (b * NBBY + k) / NBBY = b := by
    rw [mul_comm,mul_add_div (by decide),div_eq_of_lt low,add_zero]
  have rest : (b * NBBY + k) % NBBY = k := by
    rw [mul_comm,mul_add_mod,mod_eq_of_lt low]
  rw [isset_eq,quotient,rest]

theorem byte_and (a : Nat → Byte) (b : Nat) {k : Nat} (low : k < NBBY) : (a b &&& 1#8 <<< k = 0) ↔ isset a (b * NBBY + k) = false := by
  have rest : (b * NBBY + k) % NBBY = k := by
    rw [mul_comm,mul_add_mod,mod_eq_of_lt low]
  have quotient : (b * NBBY + k) / NBBY = b := by
    rw [mul_comm,mul_add_div (by decide),div_eq_of_lt low,add_zero]
  unfold isset bit
  rw [quotient,rest]
  simp

theorem byte_full (a : Nat → Byte) (b : Nat) : a b = 0xff ↔ ∀ k < NBBY,isset a (b * NBBY + k) = true := by
  constructor
  · intro full k low
    rw [isset_byte a b low,full]
    decide +revert
  intro set
  apply BitVec.eq_of_getLsbD_eq
  intro k low
  rw [← isset_byte a b low,set k low]
  decide +revert

theorem skip_le (skipped : Byte → Bool) (size : Nat) (cp : Nat → Byte) : skip skipped size cp ≤ size := by
  induction size generalizing cp with
  | zero => exact le_refl 0
  | succ size ih =>
    unfold skip
    split
    · exact le_succ_of_le (ih _)
    · exact le_refl _

variable {skipped : Byte → Bool} {size : Nat} {cp : Nat → Byte}

theorem skip_passed (low : i < size - skip skipped size cp) : skipped (cp i) = true := by
  induction size generalizing cp i with
  | zero => omega
  | succ size ih =>
    unfold skip at low
    split at low
    · rename_i here
      cases i with
      | zero => exact here
      | succ i =>
        have later := ih (show i < size - skip skipped size fun i => cp (i + 1) by omega)
        exact later
    · omega

theorem skip_stops (found : skip skipped size cp ≠ 0) :
    skipped (cp (size - skip skipped size cp)) = false := by
  induction size generalizing cp with
  | zero => exact absurd rfl found
  | succ size ih =>
    unfold skip at found ⊢
    split
    · rename_i here
      rw [if_pos here] at found
      have le := skip_le skipped size fun i => cp (i + 1)
      rw [show size + 1 - skip skipped size (fun i => cp (i + 1)) = size - skip skipped size (fun i => cp (i + 1)) + 1 by omega]
      exact ih found
    rename_i here
    rw [Nat.sub_self]
    exact Bool.eq_false_iff.mpr here

theorem skip_found (low : i < size) (stop : skipped (cp i) = false) :
    skip skipped size cp ≠ 0 := by
  intro none_
  have passed : skipped (cp i) = true := skip_passed (show i < size - skip skipped size cp by omega)
  rw [stop] at passed
  cases passed

theorem skip_eq (low : i < size) (before : ∀ j < i,skipped (cp j) = true)
    (stop : skipped (cp i) = false) : skip skipped size cp = size - i := by
  have found := skip_found low stop
  have le := skip_le skipped size cp
  have stops := skip_stops found
  rcases lt_trichotomy i (size - skip skipped size cp) with past | here | short
  · rw [skip_passed past] at stop
    cases stop
  · omega
  rw [before _ short] at stops
  cases stops

theorem mem_free : i ∈ free a n ↔ i < n ∧ isset a i = false := by
  rw [free,mem_filter,mem_range]

theorem free_setbit (a : Nat → Byte) (i n : Nat) : free (setbit a i) n = (free a n).erase i := by
  ext j
  rw [mem_erase,mem_free,mem_free,isset_setbit]
  by_cases same : j = i <;> simp [same]

theorem free_clrbit (a : Nat → Byte) (low : i < n) : free (clrbit a i) n = insert i (free a n) := by
  ext j
  rw [mem_insert,mem_free,mem_free,isset_clrbit]
  by_cases same : j = i <;> simp [same,low]

theorem used_from_bottom (used : ∀ i < m,isset a i = true) (le : m ≤ n) : m ≤ n - (free a n).card := by
  have above : free a n ⊆ Finset.Ico m n := by
    intro i mem
    obtain ⟨low,clear⟩ := mem_free.mp mem
    refine mem_Ico.mpr ⟨Nat.le_of_not_lt fun below => ?_,low⟩
    rw [used i below] at clear
    cases clear
  have card := card_le_card above
  rw [card_Ico] at card
  omega

theorem used_below (used : ∀ i < n,isset a i = true → i < m) : n - (free a n).card ≤ m := by
  have above : Finset.Ico m n ⊆ free a n := by
    intro i mem
    obtain ⟨high,low⟩ := mem_Ico.mp mem
    refine mem_free.mpr ⟨low,Bool.eq_false_iff.mpr fun set => ?_⟩
    exact absurd (used i low set) (Nat.not_lt_of_le high)
  have card := card_le_card above
  rw [card_Ico] at card
  omega
end NetbsdAvr32.ByteMap
