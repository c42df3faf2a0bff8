import Mathlib.Tactic.Linarith
import Mathlib.Tactic.Ring
import NetbsdAvr32.Outcome

-- sys/kern/subr_time.c: the ticks of an interval. int and long have 32 bits.
namespace NetbsdAvr32.SubrTime
open Outcome Int

def intMax : Int := 2147483647
def longMax : Int := 2147483647

structure Timeval where
  tvSec : Int
  tvUsec : Int

structure Timespec where
  tvSec : Int
  tvNsec : Int

-- What a sum or product becomes in a signed and in an unsigned long.
structure Arith where
  long : Int → Except Halt Int
  ulong : Int → Except Halt Int

-- The longs of the machine wrap. The checked ones report it.
def machine : Arith := ⟨fun x => .ok ((x + 2 ^ 31) % 2 ^ 32 - 2 ^ 31),fun x => .ok (x % 2 ^ 32)⟩
def checked : Arith where
  long x := if -2 ^ 31 ≤ x ∧ x < 2 ^ 31 then .ok x else .error (.fault "long")
  ulong x := if 0 ≤ x ∧ x < 2 ^ 32 then .ok x else .error (.fault "unsigned long")

def quot (x y : Int) : Except Halt Int := if y = 0 then .error (.fault "division by zero") else .ok (x / y)

def tvtohz (w : Arith) (hz tick : Int) (tv : Timeval) : Except Halt Int := do
  let sec ← if tv.tvUsec < 0 then w.long (tv.tvSec - 1) else .ok tv.tvSec
  let usec ← if tv.tvUsec < 0 then w.long (tv.tvUsec + 1000000) else .ok tv.tvUsec
  let ticks ←
    if sec < 0 ∨ sec = 0 ∧ usec ≤ 0 then .ok 0
    else if sec ≤ longMax / 1000000 then do
      let total ← w.long (sec * 1000000)
      let total ← w.ulong (total + usec)
      let less ← w.long (tick - 1)
      let total ← w.ulong (total + less)
      let ticks ← quot total tick
      w.ulong (ticks + 1)
    else do
      let most ← quot longMax hz
      if sec ≤ most then do
        let whole ← w.long (sec * hz)
        let less ← w.long (tick - 1)
        let part ← w.ulong (usec + less)
        let part ← quot part tick
        let ticks ← w.ulong (whole + part)
        w.ulong (ticks + 1)
      else .ok longMax
  .ok (if ticks > intMax then intMax else ticks)

-- TIMESPEC_TO_TIMEVAL rounds towards zero.
def tstohz (w : Arith) (hz tick : Int) (ts : Timespec) : Except Halt Int := tvtohz w hz tick ⟨ts.tvSec,ts.tvNsec.tdiv 1000⟩

-- tick as conf/param.c sets it.
def tickOf (hz : Int) : Int := 1000000 / hz

def Timeval.Normal (tv : Timeval) : Prop := (-2 ^ 31 ≤ tv.tvSec ∧ tv.tvSec < 2 ^ 31) ∧ 0 ≤ tv.tvUsec ∧ tv.tvUsec < 1000000
def Timespec.Normal (ts : Timespec) : Prop := (-2 ^ 31 ≤ ts.tvSec ∧ ts.tvSec < 2 ^ 31) ∧ 0 ≤ ts.tvNsec ∧ ts.tvNsec < 1000000000

def Timeval.micros (tv : Timeval) : Int := tv.tvSec * 1000000 + tv.tvUsec
def Timespec.nanos (ts : Timespec) : Int := ts.tvSec * 1000000000 + ts.tvNsec

-- n - 1 ticks of 1/hz seconds last for an interval, of which `unit` make a second.
def OnTime (hz n interval unit : Int) : Prop := 1 ≤ n ∧ (n = intMax ∨ interval * hz ≤ (n - 1) * unit)

-- What is rounded up to ticks: all the microseconds, or those beside the whole seconds.
def part (sec usec : Int) : Int := if sec ≤ longMax / 1000000 then sec * 1000000 + usec else usec
def ceil (x y : Int) : Int := (x + (y - 1)) / y

def exactTicks (hz sec usec : Int) : Int :=
  (if sec ≤ longMax / 1000000 then 0 else sec * hz) + ceil (part sec usec) (tickOf hz) + 1

-- The nanoseconds that tstohz drops are 0, or the last tick or the ticks' shortness makes up for them, or it saturates.
def Covered (hz : Int) (ts : Timespec) : Prop :=
  let usec := ts.tvNsec / 1000
  let parts := part ts.tvSec usec
  ts.tvNsec % 1000 = 0 ∨ parts % tickOf hz ≠ 0 ∨ ts.tvNsec % 1000 * hz ≤ parts / tickOf hz * (1000000 % hz) * 1000 ∨
    longMax / 1000000 < ts.tvSec ∧ intMax ≤ ts.tvSec * hz + parts / tickOf hz + 1

variable {w : Arith} {hz x y n sec usec : Int} {tv a b : Timeval} {ts : Timespec}

structure Keeps (w : Arith) : Prop where
  long : ∀ x,-2 ^ 31 ≤ x → x < 2 ^ 31 → w.long x = .ok x
  ulong : ∀ x,0 ≤ x → x < 2 ^ 32 → w.ulong x = .ok x

theorem machine_keeps : Keeps machine := by
  refine ⟨fun x low high => ?_,fun x low high => ?_⟩
  · simp only [machine]
    congr 1
    omega
  simp only [machine]
  congr 1
  omega

theorem checked_keeps : Keeps checked := ⟨fun x low high => if_pos ⟨low,high⟩,fun x low high => if_pos ⟨low,high⟩⟩

theorem ceil_le (some_ : 0 < y) : x ≤ ceil x y * y ∧ (ceil x y - 1) * y < x := by
  unfold ceil
  have split := mul_ediv_add_emod (x + (y - 1)) y
  have low := emod_nonneg (x + (y - 1)) (ne_of_gt some_)
  have high := emod_lt_of_pos (x + (y - 1)) some_
  constructor
  · linarith
  · linarith

theorem ceil_of_dvd (some_ : 0 < y) (divides : x % y = 0) : ceil x y = x / y := by
  have split := mul_ediv_add_emod x y
  have whole : x + (y - 1) = y - 1 + x / y * y := by linarith
  rw [ceil,whole,add_mul_ediv_right _ _ (ne_of_gt some_),ediv_eq_zero_of_lt (by omega) (by omega),zero_add]

theorem ceil_of_not_dvd (some_ : 0 < y) (rest : x % y ≠ 0) : x + 1 ≤ ceil x y * y := by
  have up := (ceil_le (x := x) some_).1
  have differs : x ≠ ceil x y * y := fun same => rest (by rw [same]; exact mul_emod_left ..)
  omega

theorem nanos_iff (sec usec dropped : Int) : ((sec * 1000000 + usec) * 1000 + dropped) * hz ≤ (exactTicks hz sec usec - 1) * 1000000000 ↔
    (part sec usec * 1000 + dropped) * hz ≤ ceil (part sec usec) (tickOf hz) * 1000000000 := by
  unfold exactTicks
  generalize ceil (part sec usec) (tickOf hz) = c
  unfold part
  split
  · rw [Int.zero_add,Int.add_sub_cancel]
  have whole : ((sec * 1000000 + usec) * 1000 + dropped) * hz = sec * hz * 1000000000 + (usec * 1000 + dropped) * hz := by ring
  omega

section Hz
variable (low : 1 ≤ hz) (high : hz ≤ 10000)
include low high

theorem tick_bounds : 100 ≤ tickOf hz ∧ tickOf hz ≤ 1000000 ∧ tickOf hz * hz + 1000000 % hz = 1000000 := by
  have split := mul_ediv_add_emod 1000000 hz
  refine ⟨Int.le_ediv_of_mul_le low (by omega),Int.ediv_le_self _ (by decide),?_⟩
  unfold tickOf
  linarith

theorem ceil_bounds (le : 0 ≤ x) : 0 ≤ ceil x (tickOf hz) ∧ ceil x (tickOf hz) ≤ x + 999999 := by
  obtain ⟨least,most,_⟩ := tick_bounds low high
  have up : ceil x (tickOf hz) ≤ x + (tickOf hz - 1) := ediv_le_self _ (by omega)
  exact ⟨ediv_nonneg (by omega) (by omega),by omega⟩

theorem tvtohz_spec (keeps : Keeps w) (normal : tv.Normal) :
    tvtohz w hz (tickOf hz) tv = .ok (if tv.micros ≤ 0 then 0 else min (exactTicks hz tv.tvSec tv.tvUsec) intMax) := by
  obtain ⟨⟨sec_low,sec_high⟩,usec_low,usec_high⟩ := normal
  obtain ⟨least,most,_⟩ := tick_bounds low high
  have positive : ¬tv.tvUsec < 0 := by omega
  have thousands : longMax / 1000000 = 2147 := by decide
  have past : (tv.tvSec < 0 ∨ tv.tvSec = 0 ∧ tv.tvUsec ≤ 0) ↔ tv.micros ≤ 0 := by
    unfold Timeval.micros
    omega
  have clamp : ∀ x : Int,(if x > intMax then intMax else x) = min x intMax := fun x => by
    split
    · omega
    · omega
  have less := keeps.long (tickOf hz - 1) (by omega) (by omega)
  simp only [tvtohz,positive,if_false,ok_bind,past,less]
  by_cases none_ : tv.micros ≤ 0
  · simp only [none_,if_true,ok_bind]
    rfl
  simp only [none_,if_false]
  by_cases short : tv.tvSec ≤ 2147
  · have bounds := ceil_bounds low high (x := tv.tvSec * 1000000 + tv.tvUsec) (by omega)
    have total := keeps.long (tv.tvSec * 1000000) (by omega) (by omega)
    have total' := keeps.ulong (tv.tvSec * 1000000 + tv.tvUsec) (by omega) (by omega)
    have more := keeps.ulong (tv.tvSec * 1000000 + tv.tvUsec + (tickOf hz - 1)) (by omega) (by omega)
    have ticks := keeps.ulong (ceil (tv.tvSec * 1000000 + tv.tvUsec) (tickOf hz) + 1) (by omega) (by omega)
    unfold ceil at ticks
    have some_ : ¬tickOf hz = 0 := by omega
    simp only [thousands,short,if_true,total,total',more,ok_bind,quot,some_,if_false,ticks,clamp,exactTicks,part,ceil,zero_add]
  have bounds := ceil_bounds low high (x := tv.tvUsec) usec_low
  have some_ : ¬tickOf hz = 0 := by omega
  have some' : ¬hz = 0 := by omega
  simp only [thousands,short,if_false,quot,some',ok_bind]
  by_cases fits : tv.tvSec ≤ longMax / hz
  · have whole : tv.tvSec * hz ≤ longMax := (Int.le_ediv_iff_mul_le low).mp fits
    have least : 0 ≤ tv.tvSec * hz := mul_nonneg (by omega) (by omega)
    unfold longMax at whole
    have first := keeps.long (tv.tvSec * hz) (by omega) (by omega)
    have more := keeps.ulong (tv.tvUsec + (tickOf hz - 1)) (by omega) (by omega)
    have sum := keeps.ulong (tv.tvSec * hz + ceil tv.tvUsec (tickOf hz)) (by omega) (by omega)
    have ticks := keeps.ulong (tv.tvSec * hz + ceil tv.tvUsec (tickOf hz) + 1) (by omega) (by omega)
    unfold ceil at sum ticks
    simp only [fits,if_true,first,more,ok_bind,some_,if_false,sum,ticks,clamp,exactTicks,part,thousands,short,ceil]
  have whole : longMax < tv.tvSec * hz := Int.not_le.mp fun le => fits ((Int.le_ediv_iff_mul_le low).mpr le)
  have beyond : intMax ≤ exactTicks hz tv.tvSec tv.tvUsec := by
    simp only [exactTicks,part,thousands,short,if_false]
    unfold longMax at whole
    unfold intMax
    omega
  simp only [fits,if_false,ok_bind,min_eq_right beyond]
  rfl

theorem onTime_spec (normal : tv.Normal) (some_ : 0 < tv.micros) :
    OnTime hz (min (exactTicks hz tv.tvSec tv.tvUsec) intMax) tv.micros 1000000 := by
  obtain ⟨least,most,split⟩ := tick_bounds low high
  obtain ⟨⟨_,_⟩,usec_low,usec_high⟩ := normal
  have left := emod_nonneg 1000000 (ne_of_gt low)
  have first : 0 ≤ part tv.tvSec tv.tvUsec := by
    unfold part Timeval.micros at *
    split
    · omega
    · exact usec_low
  have up := (ceil_le (x := part tv.tvSec tv.tvUsec) (show 0 < tickOf hz by omega)).1
  have bounds := ceil_bounds low high first
  have lasts : part tv.tvSec tv.tvUsec * hz ≤ ceil (part tv.tvSec tv.tvUsec) (tickOf hz) * 1000000 := by
    calc _ ≤ ceil (part tv.tvSec tv.tvUsec) (tickOf hz) * tickOf hz * hz := mul_le_mul_of_nonneg_right up (by omega)
      _ = ceil (part tv.tvSec tv.tvUsec) (tickOf hz) * (tickOf hz * hz) := mul_assoc ..
      _ ≤ _ := mul_le_mul_of_nonneg_left (by omega) bounds.1
  have whole : tv.micros * hz ≤ (exactTicks hz tv.tvSec tv.tvUsec - 1) * 1000000 := by
    unfold exactTicks
    generalize ceil (part tv.tvSec tv.tvUsec) (tickOf hz) = c at lasts ⊢
    unfold part at lasts
    unfold Timeval.micros
    split
    · next short =>
      rw [if_pos short] at lasts
      linarith
    next long =>
    rw [if_neg long] at lasts
    linarith
  have more : 0 ≤ exactTicks hz tv.tvSec tv.tvUsec - 1 := by
    have : 0 < tv.micros * hz := mul_pos some_ low
    omega
  refine ⟨by unfold intMax; omega,?_⟩
  rcases le_total (exactTicks hz tv.tvSec tv.tvUsec) intMax with le | ge
  · rw [min_eq_left le]
    exact .inr whole
  · exact .inl (min_eq_right ge)

theorem boundary_late (differs : 1000000 % hz ≠ 0) : exactTicks hz 2148 0 < exactTicks hz 2147 999999 := by
  obtain ⟨least,_,split⟩ := tick_bounds low high
  have left := emod_nonneg 1000000 (ne_of_gt low)
  have up := (ceil_le (x := 2147999999) (show 0 < tickOf hz by omega)).1
  have zero : ceil 0 (tickOf hz) = 0 := ediv_eq_zero_of_lt (by omega) (by omega)
  have first : exactTicks hz 2147 999999 = ceil 2147999999 (tickOf hz) + 1 := by
    simp only [exactTicks,part,longMax]
    norm_num
  have second : exactTicks hz 2148 0 = 2148 * hz + 1 := by
    simp only [exactTicks,part,longMax]
    norm_num [zero]
  by_contra ge
  have le : ceil 2147999999 (tickOf hz) * tickOf hz ≤ 2148 * hz * tickOf hz := mul_le_mul_of_nonneg_right (by omega) (by omega)
  have : 2148 * hz * tickOf hz = 2148 * (tickOf hz * hz) := by ring
  omega

theorem exactTicks_eq (divides : 1000000 % hz = 0) (sec usec : Int) : exactTicks hz sec usec = ceil (sec * 1000000 + usec) (tickOf hz) + 1 := by
  obtain ⟨least,_,split⟩ := tick_bounds low high
  unfold exactTicks part
  split
  · rw [zero_add]
  have million : sec * 1000000 + usec + (tickOf hz - 1) = usec + (tickOf hz - 1) + sec * hz * tickOf hz := by
    have : sec * hz * tickOf hz = sec * (tickOf hz * hz) := by ring
    rw [this,show tickOf hz * hz = 1000000 by omega]
    ring
  unfold ceil
  rw [million,add_mul_ediv_right _ _ (by omega)]
  ring

theorem ticks_mono (divides : 1000000 % hz = 0) (le : a.micros ≤ b.micros) : exactTicks hz a.tvSec a.tvUsec ≤ exactTicks hz b.tvSec b.tvUsec := by
  rw [exactTicks_eq low high divides,exactTicks_eq low high divides]
  have some_ : 0 < tickOf hz := by
    have := (tick_bounds low high).1
    omega
  unfold Timeval.micros at le
  exact Int.add_le_add_right (Int.ediv_le_ediv some_ (by omega)) 1

theorem lasts_iff (first : 0 ≤ x) (dropped : 0 ≤ y) (fewer : y < 1000) : (x * 1000 + y) * hz ≤ ceil x (tickOf hz) * 1000000000 ↔
    y = 0 ∨ x % tickOf hz ≠ 0 ∨ y * hz ≤ x / tickOf hz * (1000000 % hz) * 1000 := by
  obtain ⟨least,_,split⟩ := tick_bounds low high
  have some_ : 0 < tickOf hz := by omega
  by_cases divides : x % tickOf hz = 0
  · rw [ceil_of_dvd some_ divides]
    have whole : x * hz = x / tickOf hz * 1000000 - x / tickOf hz * (1000000 % hz) := by
      calc x * hz = x / tickOf hz * tickOf hz * hz := by rw [ediv_mul_cancel_of_emod_eq_zero divides]
        _ = x / tickOf hz * (1000000 - 1000000 % hz) := by rw [mul_assoc,show tickOf hz * hz = 1000000 - 1000000 % hz by omega]
        _ = _ := mul_sub ..
    have left : 0 ≤ x / tickOf hz * (1000000 % hz) :=
      mul_nonneg (ediv_nonneg first (le_of_lt some_)) (emod_nonneg _ (ne_of_gt low))
    have equal : (x * 1000 + y) * hz = x * hz * 1000 + y * hz := by ring
    constructor
    · intro le
      exact .inr (.inr (by omega))
    rintro (rfl | rest | le)
    · omega
    · exact absurd divides rest
    · omega
  refine iff_of_true ?_ (.inr (.inl divides))
  have up := ceil_of_not_dvd some_ divides
  have more := (ceil_bounds low high first).1
  have left := emod_nonneg 1000000 (ne_of_gt low)
  calc (x * 1000 + y) * hz ≤ (x + 1) * 1000 * hz := mul_le_mul_of_nonneg_right (by omega) (by omega)
    _ ≤ ceil x (tickOf hz) * tickOf hz * 1000 * hz := mul_le_mul_of_nonneg_right (by omega) (by omega)
    _ = ceil x (tickOf hz) * 1000 * (tickOf hz * hz) := by ring
    _ ≤ ceil x (tickOf hz) * 1000 * 1000000 := mul_le_mul_of_nonneg_left (by omega) (by omega)
    _ = _ := by ring

theorem short_ticks (le : sec ≤ 2147) (less : usec < 1000000) : exactTicks hz sec usec < intMax := by
  have thousands : longMax / 1000000 = 2147 := by decide
  obtain ⟨least,_,_⟩ := tick_bounds low high
  have few := (ceil_le (x := sec * 1000000 + usec) (show 0 < tickOf hz by omega)).2
  simp only [exactTicks,part,thousands,le,if_true,intMax]
  by_contra ge
  have : 2147483645 * 100 ≤ (ceil (sec * 1000000 + usec) (tickOf hz) - 1) * tickOf hz :=
    mul_le_mul (by omega) least (by decide) (by omega)
  omega

theorem covered_iff (normal : ts.Normal) (some_ : 0 < ts.nanos) :
    OnTime hz (if (Timeval.mk ts.tvSec (ts.tvNsec / 1000)).micros ≤ 0 then 0 else min (exactTicks hz ts.tvSec (ts.tvNsec / 1000)) intMax) ts.nanos 1000000000 ↔
      Covered hz ts := by
  obtain ⟨⟨sec_low,sec_high⟩,nsec_low,nsec_high⟩ := normal
  have micro : Timeval.Normal ⟨ts.tvSec,ts.tvNsec / 1000⟩ := ⟨⟨sec_low,sec_high⟩,show 0 ≤ ts.tvNsec / 1000 by omega,show ts.tvNsec / 1000 < 1000000 by omega⟩
  have thousands : longMax / 1000000 = 2147 := by decide
  have nanos : ts.nanos = (ts.tvSec * 1000000 + ts.tvNsec / 1000) * 1000 + ts.tvNsec % 1000 := by
    unfold Timespec.nanos
    omega
  unfold Covered
  by_cases none_ : (Timeval.mk ts.tvSec (ts.tvNsec / 1000)).micros ≤ 0
  · -- Less than a microsecond, which tstohz takes for no time at all.
    rw [if_pos none_]
    unfold Timeval.micros at none_
    dsimp only at none_
    have zero : ts.tvSec = 0 := by omega
    have zero' : ts.tvNsec / 1000 = 0 := by omega
    refine iff_of_false (fun onTime => absurd onTime.1 (by decide)) ?_
    have some' : 0 < ts.tvNsec % 1000 * hz := mul_pos (by omega) low
    simp only [zero,zero',part,thousands]
    norm_num
    omega
  rw [if_neg none_]
  have early := (onTime_spec low high micro (not_le.mp none_)).1
  have first : 0 ≤ part ts.tvSec (ts.tvNsec / 1000) := by
    unfold part Timeval.micros at *
    split
    · omega
    · omega
  have lasts := lasts_iff low high first (show 0 ≤ ts.tvNsec % 1000 by omega) (by omega)
  rw [← nanos_iff,← nanos] at lasts
  rcases Int.lt_or_le (exactTicks hz ts.tvSec (ts.tvNsec / 1000)) intMax with less | ge
  · rw [min_eq_left (le_of_lt less)] at early ⊢
    have here : ∀ q,ceil (part ts.tvSec (ts.tvNsec / 1000)) (tickOf hz) = q → ¬(longMax / 1000000 < ts.tvSec ∧ intMax ≤ ts.tvSec * hz + q + 1) := by
      rintro q rfl ⟨long,ge⟩
      rw [exactTicks,if_neg (not_le.mpr long)] at less
      omega
    unfold OnTime
    rw [or_iff_right (ne_of_lt less),and_iff_right early,lasts]
    constructor
    · rintro (zero | rest | le)
      · exact .inl zero
      · exact .inr (.inl rest)
      · exact .inr (.inr (.inl le))
    rintro (zero | rest | le | saturated)
    · exact .inl zero
    · exact .inr (.inl rest)
    · exact .inr (.inr le)
    refine .inr (.inl fun divides => ?_)
    exact here _ (ceil_of_dvd (by have := (tick_bounds low high).1; omega) divides) saturated
  rw [min_eq_right ge] at early ⊢
  refine iff_of_true ⟨early,.inl rfl⟩ ?_
  by_cases divides : part ts.tvSec (ts.tvNsec / 1000) % tickOf hz = 0
  · have long : ¬ts.tvSec ≤ 2147 := fun le => by
      have := short_ticks low high le (show ts.tvNsec / 1000 < 1000000 by omega)
      omega
    rw [exactTicks,ceil_of_dvd (by have := (tick_bounds low high).1; omega) divides,thousands,if_neg long] at ge
    exact .inr (.inr (.inr ⟨by omega,ge⟩))
  · exact .inr (.inl divides)
end Hz

-- tvtohz is never early, and monotone exactly where hz divides a million. tstohz is in time exactly
-- where the nanoseconds it drops are covered.
theorem ticks_exact (hz : Int) (low : 1 ≤ hz) (high : hz ≤ 10000) :
    (∀ tv,tv.Normal → ∃ n,tvtohz machine hz (tickOf hz) tv = .ok n ∧ tvtohz checked hz (tickOf hz) tv = .ok n ∧
      (0 < tv.micros → OnTime hz n tv.micros 1000000) ∧ (tv.micros ≤ 0 → n = 0)) ∧
    ((∀ a b n n',a.Normal → b.Normal → a.micros ≤ b.micros → tvtohz machine hz (tickOf hz) a = .ok n →
      tvtohz machine hz (tickOf hz) b = .ok n' → n ≤ n') ↔ 1000000 % hz = 0) ∧
    ∀ ts,ts.Normal → ∃ n,tstohz machine hz (tickOf hz) ts = .ok n ∧ tstohz checked hz (tickOf hz) ts = .ok n ∧
      (0 < ts.nanos → (OnTime hz n ts.nanos 1000000000 ↔ Covered hz ts)) ∧ (ts.nanos ≤ 0 → n = 0) := by
  refine ⟨fun tv normal => ?_,?_,fun ts normal => ?_⟩
  · refine ⟨_,tvtohz_spec low high machine_keeps normal,tvtohz_spec low high checked_keeps normal,fun some_ => ?_,fun none_ => if_pos none_⟩
    rw [if_neg (not_le.mpr some_)]
    exact onTime_spec low high normal some_
  · constructor
    · intro mono
      by_contra differs
      have normal : Timeval.Normal ⟨2147,999999⟩ := ⟨by decide,by decide⟩
      have normal' : Timeval.Normal ⟨2148,0⟩ := ⟨by decide,by decide⟩
      have le := mono _ _ _ _ normal normal' (by decide) (tvtohz_spec low high machine_keeps normal) (tvtohz_spec low high machine_keeps normal')
      have late := boundary_late low high differs
      have less := short_ticks low high (show 2147 ≤ (2147 : Int) by decide) (show 999999 < (1000000 : Int) by decide)
      simp only [Timeval.micros] at le
      omega
    · intro divides a b n n' normal normal' le ran ran'
      rw [tvtohz_spec low high machine_keeps normal] at ran
      rw [tvtohz_spec low high machine_keeps normal'] at ran'
      cases ran
      cases ran'
      have ticks := ticks_mono low high divides le
      split
      · split
        · exact le_refl _
        · next some_ =>
          have := (onTime_spec low high normal' (not_le.mp some_)).1
          omega
      · omega
  · have nsec : ts.tvNsec.tdiv 1000 = ts.tvNsec / 1000 := tdiv_eq_ediv_of_nonneg normal.2.1
    have micro : Timeval.Normal ⟨ts.tvSec,ts.tvNsec / 1000⟩ := by
      obtain ⟨sec,low,high⟩ := normal
      exact ⟨sec,show 0 ≤ ts.tvNsec / 1000 by omega,show ts.tvNsec / 1000 < 1000000 by omega⟩
    unfold tstohz
    rw [nsec]
    refine ⟨_,tvtohz_spec low high machine_keeps micro,tvtohz_spec low high checked_keeps micro,covered_iff low high normal,fun none_ => if_pos ?_⟩
    unfold Timespec.nanos at none_
    unfold Timeval.micros
    dsimp only
    omega

theorem ticks_exact_hundred : ∃ n,tvtohz machine 100 (tickOf 100) ⟨1,5⟩ = .ok n ∧ OnTime 100 n 1000005 1000000 := by
  obtain ⟨n,ran,_,onTime,_⟩ := (ticks_exact 100 (by decide) (by decide)).1 ⟨1,5⟩ ⟨by decide,by decide⟩
  exact ⟨n,ran,onTime (by decide)⟩

-- A nanosecond is no time at all.
theorem ticks_early : ¬∀ hz,1 ≤ hz → hz ≤ 10000 →
    (∀ ts n,ts.Normal → 0 < ts.nanos → tstohz machine hz (tickOf hz) ts = .ok n → OnTime hz n ts.nanos 1000000000) ∧
    ∀ a b n n',a.Normal → b.Normal → a.micros ≤ b.micros → tvtohz machine hz (tickOf hz) a = .ok n →
      tvtohz machine hz (tickOf hz) b = .ok n' → n ≤ n' := by
  intro claim
  have onTime := (claim 100 (by decide) (by decide)).1 ⟨0,1⟩ 0 ⟨by decide,by decide⟩ (by decide) (by decide)
  exact absurd onTime.1 (by decide)
end NetbsdAvr32.SubrTime
