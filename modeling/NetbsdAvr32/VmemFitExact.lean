import NetbsdAvr32.Vmem

-- When vmem_fit finds an address exactly if there is one.
namespace NetbsdAvr32.Vmem
open Outcome NextAligned Nat
variable {bt : Btag} {q : Request}

structure Fits (bt : Btag) (q : Request) (a : Nat) : Prop where
  start : bt.btStart.toNat ≤ a
  fin : a + q.size.toNat ≤ bt.btStart.toNat + bt.btSize.toNat
  minaddr : q.minaddr.toNat ≤ a
  maxaddr : q.maxaddr ≠ 0 → a + q.size.toNat ≤ q.maxaddr.toNat
  spot : a % q.align.toNat = q.phase.toNat
  uncut : Uncut q.nocross.toNat q.size.toNat a

-- It returns, an address other than zero exactly if there is one, and only one
-- that fits.
def Meets (bt : Btag) (q : Request) : Prop :=
  ∃ r, vmemFit bt q = .ok r ∧ (r ≠ VMEM_ADDR_NULL ↔ ∃ a, 0 < a ∧ Fits bt q a) ∧ (r ≠ VMEM_ADDR_NULL → Fits bt q r.toNat)

-- With no address left up to 2^32, where rounding comes round to.
def fallback (bt : Btag) (q : Request) : Nat :=
  if aligned bt q < 4294967296 then q.phase.toNat
  else if q.phase.toNat < bt.btStart.toNat then clear q.nocross.toNat q.phase.toNat q.size.toNat (q.phase.toNat + q.align.toNat) else q.phase.toNat

-- Where an address other than zero fits, the first one in place is not zero, does
-- not end at maxaddr, and the tag does not end at 2^32; where none is left up to
-- 2^32, there is no room at the fallback.
def Plain (bt : Btag) (q : Request) : Prop :=
  ((∃ a, 0 < a ∧ Fits bt q a) →
    first bt q ≠ 0 ∧ bt.btStart.toNat + bt.btSize.toNat ≠ 4294967296 ∧ first bt q + q.size.toNat ≠ q.maxaddr.toNat) ∧
  (4294967296 ≤ first bt q → lower bt q < upper bt q → upper bt q < fallback bt q + q.size.toNat)

namespace Asked
variable (asked : Asked bt q)
include asked

theorem first_spec : aligned bt q ≤ first bt q ∧ first bt q % q.align.toNat = q.phase.toNat ∧ Uncut q.nocross.toNat q.size.toNat (first bt q) :=
  clear_spec asked.base asked.some asked.nest asked.phase (next_mod asked.phase _)

theorem first_ge : lower bt q ≤ first bt q := le_trans (next_ge ..) asked.first_spec.1

theorem first_least (fits : Fits bt q a) : first bt q ≤ a := by
  have from_ : lower bt q ≤ a := Nat.max_le.mpr ⟨fits.start,fits.minaddr⟩
  exact clear_least asked.base asked.some asked.nest asked.phase (next_mod asked.phase _) fits.spot fits.uncut (next_least asked.phase fits.spot from_)

theorem landing_first (short : first bt q < 4294967296) : landing bt q = first bt q := by
  have inside := lt_of_le_of_lt asked.first_spec.1 short
  unfold landing began
  rw [if_pos inside]
  exact mod_eq_of_lt short

theorem phase_lt (past : 4294967296 ≤ first bt q) : q.phase.toNat < lower bt q := by
  by_contra above
  have least := next_least (c := lower bt q) asked.phase (mod_eq_of_lt asked.phase) (not_lt.mp above)
  have here := clear_least asked.base asked.some asked.nest asked.phase (next_mod asked.phase (lower bt q)) (mod_eq_of_lt asked.phase) asked.base least
  unfold first aligned at past
  omega

theorem landing_fallback (past : 4294967296 ≤ first bt q) : landing bt q = fallback bt q ∧ fallback bt q < lower bt q := by
  have phase := asked.phase_lt past
  have half := asked.align_half
  have half' := asked.boundary_half
  have small := asked.phase
  have top := asked.lower_lt
  unfold fallback
  split
  · next inside =>
    refine ⟨?_,phase⟩
    unfold landing began
    rw [if_pos inside]
    unfold first clear at past
    split at past
    · omega
    next cut =>
    obtain ⟨bounded,dvd,_⟩ := finer asked.base asked.some asked.nest ((next_mod asked.phase (lower bt q)).trans (mod_eq_of_lt asked.phase).symm) cut
    have wider : q.phase.toNat < q.nocross.toNat := Nat.lt_of_lt_of_le small (Nat.le_of_dvd (Nat.pos_of_ne_zero bounded) dvd)
    have near := next_lt (Nat.pos_of_ne_zero bounded) q.phase.toNat (aligned bt q)
    have spot := next_mod wider (aligned bt q)
    have cut' : ¬ Uncut q.nocross.toNat q.size.toNat (aligned bt q) := cut
    unfold clear
    rw [if_neg cut']
    obtain ⟨m,whole⟩ := asked.boundary_dvd bounded
    generalize next q.nocross.toNat q.phase.toNat (aligned bt q) = y at *
    have rest : (y - 4294967296) % q.nocross.toNat = q.phase.toNat := by
      have split : y = y - 4294967296 + q.nocross.toNat * m := by omega
      rw [← spot,split,whole,Nat.add_mul_mod_self_left,Nat.add_sub_cancel]
    rw [mod_eq_of_lt (by omega)] at rest
    omega
  next inside =>
  have pos : 0 < q.align.toNat := zero_lt_of_lt small
  have near := next_lt pos q.phase.toNat (lower bt q)
  have wrapped := asked.aligned_wrapped (not_lt.mp inside)
  have far : 4294967296 + q.phase.toNat < lower bt q + q.align.toNat := by
    unfold aligned at wrapped inside
    omega
  unfold landing began
  rw [if_neg inside]
  split
  · have room : clear q.nocross.toNat q.phase.toNat q.size.toNat (q.phase.toNat + q.align.toNat) < lower bt q := by
      unfold clear
      split
      · omega
      next cut =>
      have spot : (q.phase.toNat + q.align.toNat) % q.align.toNat = q.phase.toNat % q.align.toNat := add_mod_right ..
      obtain ⟨bounded,dvd,_⟩ := finer asked.base asked.some asked.nest spot cut
      have le := Nat.le_of_dvd (Nat.pos_of_ne_zero bounded) dvd
      have wider : q.phase.toNat < q.nocross.toNat := lt_of_lt_of_le small le
      have place : (q.phase.toNat + q.nocross.toNat) % q.nocross.toNat = q.phase.toNat := by
        rw [add_mod_right,mod_eq_of_lt wider]
      have least := next_least wider place (Nat.add_le_add_left le q.phase.toNat)
      omega
    exact ⟨mod_eq_of_lt (by omega),room⟩
  have here : clear q.nocross.toNat q.phase.toNat q.size.toNat q.phase.toNat = q.phase.toNat := if_pos asked.base
  rw [here]
  exact ⟨mod_eq_of_lt (by omega),phase⟩

theorem upper_le (some : 0 < upper bt q) : upper bt q ≤ bt.btStart.toNat + bt.btSize.toNat ∧ bt.btStart.toNat + bt.btSize.toNat ≠ 4294967296 ∧
    (q.maxaddr ≠ 0 → upper bt q < q.maxaddr.toNat) := by
  have under : upper bt q ≤ (bt.btStart.toNat + bt.btSize.toNat) % 4294967296 := min_le_left ..
  have under' : upper bt q ≤ (q.maxaddr.toNat + 4294967295) % 4294967296 := min_le_right ..
  refine ⟨by omega,by omega,fun bounded => ?_⟩
  have some' : q.maxaddr.toNat ≠ 0 := fun none => bounded (BitVec.eq_of_toNat_eq none)
  omega
end Asked

theorem vmem_fit_exact (asked : Asked bt q) : Meets bt q ↔ Plain bt q := by
  have some := asked.some
  rcases vmemFit_cases asked with ⟨open_,fits,outcome⟩ | ⟨full,ran⟩
  · obtain ⟨below,untopped,unbounded⟩ := asked.upper_le (zero_lt_of_lt open_)
    split at outcome
    · next above =>
      have short : first bt q < 4294967296 := by
        by_contra past
        have := asked.landing_fallback (not_lt.mp past)
        omega
      have same := asked.landing_first short
      rw [same] at outcome fits above
      obtain ⟨_,spot,uncut⟩ := asked.first_spec
      have place : Fits bt q (first bt q) := by
        refine ⟨le_trans (le_max_left ..) above,le_trans fits below,le_trans (le_max_right ..) above,fun bounded => ?_,spot,uncut⟩
        have := unbounded bounded
        omega
      have value : (BitVec.ofNat 32 (first bt q)).toNat = first bt q := mod_eq_of_lt short
      have zero : BitVec.ofNat 32 (first bt q) ≠ VMEM_ADDR_NULL ↔ first bt q ≠ 0 := by
        rw [ne_eq,← BitVec.toNat_inj,value]
        rfl
      have apart : first bt q + q.size.toNat ≠ q.maxaddr.toNat := by
        intro same
        have bounded : q.maxaddr ≠ 0 := fun none => by
          rw [none] at same
          have : (0 : Word).toNat = 0 := rfl
          omega
        have := unbounded bounded
        omega
      constructor
      · rintro ⟨r,ran,found,_⟩
        rw [outcome] at ran
        cases ran
        rw [zero] at found
        exact ⟨fun other => ⟨found.mpr other,untopped,apart⟩,fun past => absurd short (not_lt.mpr past)⟩
      rintro ⟨given,_⟩
      refine ⟨_,outcome,?_,fun _ => by rwa [value]⟩
      rw [zero]
      exact ⟨fun nonzero => ⟨_,Nat.pos_of_ne_zero nonzero,place⟩,fun other => (given other).1⟩
    · next low =>
      -- It has come round to an address below the tag or minaddr.
      obtain ⟨text,ran⟩ := outcome
      have past : 4294967296 ≤ first bt q := by
        by_contra short
        have same := asked.landing_first (not_le.mp short)
        have := asked.first_ge
        omega
      obtain ⟨same,_⟩ := asked.landing_fallback past
      constructor
      · rintro ⟨r,ran',_⟩
        rw [ran] at ran'
        cases ran'
      · rintro ⟨_,room⟩
        omega
  · constructor
    · rintro ⟨r,ran',found,_⟩
      rw [ran] at ran'
      cases ran'
      have none : ¬ ∃ a, 0 < a ∧ Fits bt q a := fun other => found.mpr other rfl
      refine ⟨fun other => absurd other none,fun past open_ => ?_⟩
      rw [← (asked.landing_fallback past).1]
      exact full open_
    · rintro ⟨given,_⟩
      refine ⟨_,ran,⟨fun nonzero => absurd rfl nonzero,fun other => ?_⟩,fun nonzero => absurd rfl nonzero⟩
      obtain ⟨_,untopped,apart⟩ := given other
      obtain ⟨a,_,place⟩ := other
      have least := asked.first_least place
      have fin := place.fin
      have inside := asked.inside
      have short : first bt q < 4294967296 := by omega
      have same := asked.landing_first short
      have reach : first bt q + q.size.toNat ≤ upper bt q := by
        refine Nat.le_min.mpr ⟨by omega,?_⟩
        by_cases zero : q.maxaddr = 0
        · have none : q.maxaddr.toNat = 0 := congrArg BitVec.toNat zero
          omega
        · have := place.maxaddr zero
          omega
      have low := asked.first_ge
      omega

def page : Btag := ⟨4096,4096,.free⟩
def belowEnd : Request := ⟨4096,4096,0,0,0,8192⟩

theorem page_asked : Asked page belowEnd where
  room := by decide
  some := by decide
  inside := by decide
  power := ⟨12,by decide,rfl⟩
  phase := by decide
  boundary := .inl rfl
  base := by decide
  order := .inr (by decide)

theorem vmem_fit_exact_page : Meets page belowEnd ↔ Plain page belowEnd := vmem_fit_exact page_asked

-- The page would do, and is not found.
theorem vmem_fit_short : Asked page belowEnd ∧ ¬ Meets page belowEnd := by
  refine ⟨page_asked,?_⟩
  rintro ⟨r,ran,found,_⟩
  have none : vmemFit page belowEnd = .ok VMEM_ADDR_NULL := by decide
  cases ran
  refine found.mpr ⟨4096,by decide,?_⟩ rfl
  exact ⟨by decide,by decide,by decide,fun _ => by decide,by decide,by decide⟩
end NetbsdAvr32.Vmem
