import Mathlib.Tactic.Ring
import NetbsdAvr32.MatchTimer

-- The COUNT/COMPARE clock, arch/avr32/avr32/at32clock.c.
namespace NetbsdAvr32.At32Clock
open MatchTimer BitVec

abbrev Word := BitVec 32

-- `ci_cycles_per_hz` for a core of `freq` cycles a second.
def cyclesPerHz (freq hz : Nat) : Nat := (freq + hz / 2) / hz

structure Clock where
  timer : Timer 32
  nextClkIntr : Word
  -- The counts of at32clock_evcnt and at32clock_missed_evcnt.
  ticks : Nat
  missed : Nat
  deriving DecidableEq

-- Cycles spent inside one call: up to the first COMPARE write, from there to
-- the COUNT read, from there to the second write, and from there to the return.
structure Delays where
  enter : Nat
  read : Nat
  rewrite : Nat
  leave : Nat

def Delays.total (d : Delays) : Nat := d.enter + d.read + d.rewrite + d.leave

def at32clockIntr (cyclesPerHz : Nat) (d : Delays) (s : Clock) : Clock :=
  let nextClkIntr := s.nextClkIntr + BitVec.ofNat 32 cyclesPerHz
  let timer := ((s.timer.elapse d.enter).write nextClkIntr).elapse d.read
  let newCnt := timer.count
  if (nextClkIntr - newCnt) &&& 0x80000000#32 ≠ 0 then
    let nextClkIntr := newCnt + BitVec.ofNat 32 cyclesPerHz
    {timer := ((timer.elapse d.rewrite).write nextClkIntr).elapse d.leave, nextClkIntr, ticks := s.ticks + 1, missed := s.missed + 1}
  else
    {timer := timer.elapse d.leave, nextClkIntr, ticks := s.ticks + 1, missed := s.missed}

-- The tail of at32clock_init: `delay` cycles lie between the read and the write.
def at32clockInit (cyclesPerHz delay : Nat) (boot : Timer 32) : Clock :=
  let nextClkIntr := boot.count + BitVec.ofNat 32 cyclesPerHz
  {timer := (boot.elapse delay).write nextClkIntr, nextClkIntr, ticks := 0, missed := 0}

-- The latency counts from the cycle at which the request became pending.
structure Served (cyclesPerHz : Nat) (s : Clock) (since : Nat) (d : Delays) : Prop where
  pending : s.timer.pending = some since
  total : s.timer.now - since + d.total < cyclesPerHz + 2 ^ 30
  rewrite : d.rewrite < cyclesPerHz

inductive Run (cyclesPerHz delay : Nat) (boot : Timer 32) : Clock → Prop
  | init : Run cyclesPerHz delay boot (at32clockInit cyclesPerHz delay boot)
  | wait {s : Clock} (before : Run cyclesPerHz delay boot s) : Run cyclesPerHz delay boot {s with timer := s.timer.cycle}
  | intr {s : Clock} {since : Nat} {d : Delays} (before : Run cyclesPerHz delay boot s) (served : Served cyclesPerHz s since d) :
      Run cyclesPerHz delay boot (at32clockIntr cyclesPerHz d s)

variable {cph delay since goal : Nat} {boot : Timer 32} {s : Clock} {d : Delays}

def target (cph : Nat) (d : Delays) (s : Clock) (goal : Nat) : Nat :=
  let read := s.timer.now + d.enter + d.read
  if goal + cph < read then read + cph else goal + cph

theorem sign_bit (x : Word) : x &&& 0x80000000#32 ≠ 0 ↔ 2 ^ 31 ≤ x.toNat := by
  have power : 0x80000000#32 = twoPow 32 31 := by decide
  have top : x.getLsbD 31 = decide (2 ^ 31 ≤ x.toNat) := by
    exact (msb_eq_getLsbD_last x).symm.trans (msb_eq_decide x)
  rw [power,and_twoPow,top]
  by_cases high : 2 ^ 31 ≤ x.toNat
  · simp only [high,decide_true,if_true,iff_true]
    decide
  simp only [high,decide_false,iff_false,ne_eq]
  decide

theorem missed_iff {t : Timer 32} {next read : Nat} (ahead : next < read + 2 ^ 31) (behind : read ≤ next + 2 ^ 31) :
    (t.reads next - t.reads read) &&& 0x80000000#32 ≠ 0 ↔ next < read := by
  rw [sign_bit]
  rcases Nat.lt_or_ge next read with late | early
  · rw [← reads_turn,reads_sub t (by omega),toNat_ofNat,Nat.mod_eq_of_lt (by omega)]
    omega
  rw [reads_sub t early,toNat_ofNat,Nat.mod_eq_of_lt (by omega)]
  omega

theorem init_armed (slow : delay < cph) (high : cph < 2 ^ 30) : Armed (at32clockInit cph delay boot).timer (boot.now + cph) := by
  refine write_armed ?_ ?_ ?_
  · rw [reads_elapse]
    exact reads_add boot boot.now cph
  · rw [elapse_now]
    omega
  rw [elapse_now]
  omega

theorem intr_spec (armed : Armed s.timer goal) (same : s.timer.compare = s.nextClkIntr) (served : Served cph s goal d) (high : cph < 2 ^ 30) :
    let s' := at32clockIntr cph d s
    let goal' := target cph d s goal
    Armed s'.timer goal' ∧ s'.timer.compare = s'.nextClkIntr ∧ goal' ≤ s'.timer.now + cph ∧ s'.ticks = s.ticks + 1 ∧
      (s'.missed = s.missed ∧ goal' = goal + cph ∨ s'.missed = s.missed + 1) := by
  obtain ⟨pending,total,rewrite⟩ := served
  have past : goal ≤ s.timer.now := by
    rcases armed.when with ⟨_,past⟩ | ⟨clear,_⟩
    · exact past
    rw [clear] at pending
    cases pending
  simp only [Delays.total] at total
  have next : s.nextClkIntr + BitVec.ofNat 32 cph = s.timer.reads (goal + cph) := by
    rw [reads_add,armed.due,same]
  -- The timer at the COUNT read: its counter still reads as before the call.
  have now : (((s.timer.elapse d.enter).write (s.timer.reads (goal + cph))).elapse d.read).now = s.timer.now + d.enter + d.read := by simp
  have count : (((s.timer.elapse d.enter).write (s.timer.reads (goal + cph))).elapse d.read).count =
      s.timer.reads (s.timer.now + d.enter + d.read) := by
    unfold Timer.count
    rw [now,reads_elapse,reads_write,reads_elapse]
  have test := @missed_iff s.timer (goal + cph) (s.timer.now + d.enter + d.read) (by omega) (by omega)
  unfold at32clockIntr target
  simp only [next,count,test]
  by_cases late : goal + cph < s.timer.now + d.enter + d.read
  · simp only [if_pos late,← reads_add]
    refine ⟨Armed.elapse (write_armed ?_ ?_ ?_) _,?_,?_,trivial,.inr trivial⟩
    · simp only [reads_elapse,reads_write]
    · rw [elapse_now,now]
      omega
    · rw [elapse_now,now]
      omega
    · rw [elapse_compare,write_compare]
    simp only [elapse_now,write_now]
    omega
  simp only [if_neg late]
  refine ⟨Armed.elapse (Armed.elapse (write_armed ?_ ?_ ?_) _) _,?_,?_,trivial,.inl ⟨trivial,trivial⟩⟩
  · rw [reads_elapse]
  · rw [elapse_now]
    omega
  · rw [elapse_now]
    omega
  · rw [elapse_compare,elapse_compare,write_compare]
  simp only [elapse_now,write_now]
  omega

theorem run_armed (high : cph < 2 ^ 30) (run : Run cph delay boot s) : s.timer.compare = s.nextClkIntr ∧ ∃ goal, Armed s.timer goal := by
  induction run with
  | init =>
    obtain ⟨goal,due,low,top⟩ := exists_due (boot.elapse delay) (boot.count + BitVec.ofNat 32 cph)
    exact ⟨write_compare _ _,goal,write_armed due low top⟩
  | wait before ih =>
    obtain ⟨same,goal,armed⟩ := ih
    exact ⟨(cycle_compare _).trans same,goal,armed.cycle⟩
  | intr before served ih =>
    obtain ⟨same,goal,armed⟩ := ih
    obtain rfl := armed.raised served.pending
    obtain ⟨armed',same',_⟩ := intr_spec armed same served high
    exact ⟨same',_,armed'⟩

theorem run_steady (high : cph < 2 ^ 30) (run : Run cph delay boot s) (slow : delay < cph) (steady : s.missed = 0) :
    Armed s.timer (boot.now + (s.ticks + 1) * cph) := by
  induction run with
  | init => simpa [at32clockInit] using @init_armed cph delay boot slow high
  | wait before ih => exact (ih steady).cycle
  | @intr s since d before served ih =>
    obtain ⟨same,goal,armed⟩ := run_armed high before
    obtain rfl := armed.raised served.pending
    obtain ⟨armed',_,_,ticks,rest⟩ := intr_spec armed same served high
    rcases rest with ⟨missed,exactly⟩ | missed
    · have scheduled := (ih (missed.symm.trans steady)).raised served.pending
      have turns : boot.now + (s.ticks + 1 + 1) * cph = goal + cph := by
        rw [← scheduled]
        ring
      rw [ticks,turns,← exactly]
      exact armed'
    rw [steady] at missed
    cases missed

theorem run_next (run : Run cph delay boot s) (steady : s.missed = 0) :
    s.nextClkIntr = boot.count + BitVec.ofNat 32 ((s.ticks + 1) * cph) := by
  induction run with
  | init => simp [at32clockInit]
  | wait before ih => exact ih steady
  | @intr s since d before served ih =>
    unfold at32clockIntr at steady ⊢
    dsimp only at steady ⊢
    split_ifs with late
    · rw [if_pos late] at steady
      cases steady
    rw [if_neg late] at steady
    rw [ih steady,Nat.add_mul (s.ticks + 1),Nat.one_mul,BitVec.ofNat_add,BitVec.add_assoc]

theorem clock_never_stalls (freq hz delay : Nat) (boot : Timer 32) (s : Clock) (_ : 2 ≤ cyclesPerHz freq hz)
    (high : cyclesPerHz freq hz < 2 ^ 30) (run : Run (cyclesPerHz freq hz) delay boot s) :
    (∀ since d, Served (cyclesPerHz freq hz) s since d →
      let s' := at32clockIntr (cyclesPerHz freq hz) d s
      s'.timer.pending.isSome ∨ 0 < (s'.timer.compare - s'.timer.count).toNat ∧ (s'.timer.compare - s'.timer.count).toNat ≤ cyclesPerHz freq hz) ∧
    (s.missed = 0 → s.timer.compare = boot.count + BitVec.ofNat 32 ((s.ticks + 1) * cyclesPerHz freq hz) ∧
      (delay < cyclesPerHz freq hz → Armed s.timer (boot.now + (s.ticks + 1) * cyclesPerHz freq hz))) := by
  obtain ⟨same,goal,armed⟩ := run_armed high run
  refine ⟨fun since d served => ?_,fun steady => ⟨?_,fun slow => run_steady high run slow steady⟩⟩
  · obtain rfl := armed.raised served.pending
    obtain ⟨armed',_,near,_⟩ := intr_spec armed same served high
    refine armed'.ahead.imp_right fun later => ?_
    omega
  · rw [same]
    exact run_next run steady

theorem clock_never_stalls_first :
    let boot : Timer 32 := ⟨0,0,0,none⟩
    let s : Clock := {at32clockInit 13 12 boot with timer := (at32clockInit 13 12 boot).timer.cycle}
    let s' := at32clockIntr 13 ⟨1,1,0,1⟩ s
    (s'.timer.pending.isSome ∨ 0 < (s'.timer.compare - s'.timer.count).toNat ∧ (s'.timer.compare - s'.timer.count).toNat ≤ 13) ∧
      Armed s.timer 13 := by
  have whole := clock_never_stalls 130 10 12 ⟨0,0,0,none⟩ _ (by decide) (by decide) (.wait .init)
  exact ⟨whole.1 13 ⟨1,1,0,1⟩ ⟨by decide,by decide,by decide⟩,(whole.2 rfl).2 (by decide)⟩
end NetbsdAvr32.At32Clock
