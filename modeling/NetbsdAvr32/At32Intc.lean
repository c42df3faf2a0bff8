import NetbsdAvr32.Outcome
import NetbsdAvr32.PowerMask

-- Interrupt registration and dispatch, arch/avr32/avr32/at32intc.c. `H` and `A`
-- stand for the pointers to handlers and to their arguments.
namespace NetbsdAvr32.At32Intc
open Outcome List Function Except

abbrev Word := BitVec 32

def AT32INTC_NR_IRQS : Int := 2048
def AT32INTC_NR_IPR : Nat := 64
def AT32INTC_IRQ_LEVEL_3 : Int := 3
def AT32AP7000_IPR_GROUP_COUNT : Nat := 0
def AT32INTC_ICR_CAUSE_MASK : Word := 0x3f
def AT32INTC_IPR_VECTOR_MASK : Word := 0x3fff

variable {H A : Type}

structure Line (H A : Type) where
  line : Int
  level : Int
  group : Int
  handler : Option H
  arg : Option A

-- `at32intc_lines` as the program starts.
def Line.unused : Line H A := ⟨0,0,0,none,none⟩

structure State (H A : Type) where
  found : Bool
  ipr : Nat → Word
  lines : Nat → Line H A
  idepth : Int
  intrs : Nat

-- `vector l` is the distance of avr32_intr_l from _evba.
def AT32INTC_IPR_LEVEL (vector : Nat → Word) (l : Nat) : Word :=
  BitVec.ofNat 32 l <<< 30 ||| (vector l &&& AT32INTC_IPR_VECTOR_MASK)

-- `mapped` and `clocked`: bus_space_alloc and at32pm_alloc_clk succeed.
def at32intcAttach (vector : Nat → Word) (mapped clocked : Bool) (s : State H A) : Except Halt (State H A) :=
  if mapped = false then .error (.panic "at32intc_attach: cannot alloc device registers")
  else if clocked = false then .error (.panic "at32intc_attach: cannot allocate device clock")
  else
    let ipr := fun i => if i < AT32INTC_NR_IPR then AT32INTC_IPR_LEVEL vector 0 else s.ipr i
    .ok {s with ipr := Function.update ipr AT32AP7000_IPR_GROUP_COUNT (AT32INTC_IPR_LEVEL vector 2), found := true}

-- The arguments of at32intc_intr_establish.
structure Request (H A : Type) where
  group : Int
  line : Int
  ilvl : Int
  ihnd : H
  iarg : Option A

def Request.index (r : Request H A) : Int := r.line + r.group * 32

def at32intcIntrEstablish (s : State H A) (r : Request H A) : Except Halt (State H A) :=
  if s.found = false then .error (.panic "at32intc_intr_establish: unconfigured")
  else if r.index ≥ AT32INTC_NR_IRQS then .error (.panic "at32intc_intr_establish: bogus interrupt spec")
  else if r.ilvl > AT32INTC_IRQ_LEVEL_3 then .error (.panic "at32intc_intr_establish: bogus interrupt level")
  else if r.index < 0 then .error (.fault "at32intc_lines[index]")
  else if (s.lines r.index.toNat).handler.isSome then .error (.panic "at32intc_intr_establish: line already registered")
  else .ok {s with lines := Function.update s.lines r.index.toNat ⟨r.line,r.ilvl,r.group,some r.ihnd,r.iarg⟩}

structure Ictx where
  st : Word
  pc : Word

structure Called (H A : Type) where
  handler : H
  ictx : Ictx
  arg : Option A

-- The loop over the pending lines. What the handlers do is not looked into.
def service (s : State H A) (ilvl igrp : Nat) (irrx : Word) (ictx : Ictx) : List Nat → Except Halt (List (Called H A))
  | [] => .ok []
  | b :: rest =>
    if irrx &&& 1#32 <<< b = 0 then service s ilvl igrp irrx ictx rest
    else
      let il := s.lines (b + igrp * 32)
      match il.handler with
      | none => .error (.panic "at32_intc_cpu_intr: no irq handler")
      | some handler =>
        if il.level ≠ ilvl then .error (.panic "at32intc_cpu_intr: interrupt level mismatch")
        else if il.group ≠ igrp then .error (.panic "at32intc_cpu_intr: interrupt level mismatch")
        else do
          let calls ← service s ilvl igrp irrx ictx rest
          .ok (⟨handler,ictx,il.arg⟩ :: calls)

-- `icr` and `irr` are the controller's registers at the time of the call.
def at32intcCpuIntr (icr irr : Nat → Word) (ilvl : Nat) (st pc : Word) (s : State H A) : Except Halt (State H A × List (Called H A)) :=
  let s := {s with idepth := s.idepth + 1, intrs := s.intrs + 1}
  if ilvl ≥ 4 then .error (.panic "at32intc_cpu_intr: bad interrupt level")
  else
    let igrp := (icr ilvl &&& AT32INTC_ICR_CAUSE_MASK).toNat
    let irrx := irr igrp
    if irrx = 0 then .error (.panic "cpu_intr: no pending interrupts")
    else do
      let calls ← service s ilvl igrp irrx ⟨st,pc⟩ (List.range 32)
      .ok ({s with idepth := s.idepth - 1},calls)

-- The level a group's priority register asks for.
def State.level (s : State H A) (g : Nat) : Nat := (s.ipr g >>> 30).toNat
def programmed (g : Nat) : Nat := if g = AT32AP7000_IPR_GROUP_COUNT then 2 else 0
def registered (rs : List (Request H A)) (g b : Nat) : Option (Request H A) := rs.find? fun r => r.index = (b + g * 32 : Nat)

def expected (rs : List (Request H A)) (g : Nat) (irrx : Word) (ictx : Ictx) : List Nat → List (Called H A)
  | [] => []
  | b :: rest =>
    if irrx.getLsbD b = false then expected rs g irrx ictx rest
    else match registered rs g b with
      | none => expected rs g irrx ictx rest
      | some r => ⟨r.ihnd,ictx,r.iarg⟩ :: expected rs g irrx ictx rest

variable {vector : Nat → Word} {mapped clocked : Bool} {s s' s₀ s₁ : State H A} {r : Request H A} {rs : List (Request H A)}
  {g b n : Nat} {icr irr : Nat → Word} {irrx : Word} {ictx : Ictx} {bits : List Nat}

theorem level_bits (vector : Nat → Word) (l : Nat) (small : l < 4) : (AT32INTC_IPR_LEVEL vector l >>> 30).toNat = l := by
  have low : (vector l &&& AT32INTC_IPR_VECTOR_MASK) >>> 30 = 0 := by
    have mask : AT32INTC_IPR_VECTOR_MASK >>> 30 = 0 := by decide
    rw [BitVec.ushiftRight_and_distrib,mask]
    exact BitVec.and_zero
  unfold AT32INTC_IPR_LEVEL
  rw [BitVec.ushiftRight_or_distrib,low]
  obtain rfl | rfl | rfl | rfl : l = 0 ∨ l = 1 ∨ l = 2 ∨ l = 3 := by omega
  all_goals decide

theorem attach_level (attached : at32intcAttach vector mapped clocked s₀ = .ok s₁) (group : g < AT32INTC_NR_IPR) : s₁.level g = programmed g := by
  unfold at32intcAttach at attached
  split_ifs at attached
  obtain rfl := ok.inj attached
  unfold State.level programmed
  dsimp only
  by_cases clock : g = AT32AP7000_IPR_GROUP_COUNT
  · rw [clock,update_self,if_pos rfl]
    exact level_bits vector 2 (by decide)
  rw [update_of_ne clock,if_pos group,if_neg clock]
  exact level_bits vector 0 (by decide)

theorem attach_lines (attached : at32intcAttach vector mapped clocked s₀ = .ok s₁) : s₁.lines = s₀.lines := by
  unfold at32intcAttach at attached
  split_ifs at attached
  obtain rfl := ok.inj attached
  rfl

theorem establish_spec (ran : at32intcIntrEstablish s r = .ok s') :
    0 ≤ r.index ∧ (s.lines r.index.toNat).handler = none ∧
      s' = {s with lines := update s.lines r.index.toNat ⟨r.line,r.ilvl,r.group,some r.ihnd,r.iarg⟩} := by
  unfold at32intcIntrEstablish at ran
  split_ifs at ran with _ _ _ negative taken
  exact ⟨Int.not_lt.mp negative,Option.not_isSome_iff_eq_none.mp taken,(ok.inj ran).symm⟩

def establishAll (s : State H A) (rs : List (Request H A)) : Except Halt (State H A) := rs.foldlM at32intcIntrEstablish s

-- What a slot holds after a run of registrations: the one made for it, which
-- is the only one, or what it held before.
theorem establishAll_lines (ran : establishAll s rs = .ok s') (n : Nat) :
    s'.ipr = s.ipr ∧ s'.lines n = ((rs.find? fun r => r.index = (n : Int)).map fun r => ⟨r.line,r.ilvl,r.group,some r.ihnd,r.iarg⟩).getD (s.lines n) ∧
      (∀ r ∈ rs, r.index = (n : Int) → (s.lines n).handler = none ∧ rs.find? (fun r => r.index = (n : Int)) = some r) := by
  induction rs generalizing s with
  | nil =>
    obtain rfl := ok.inj ran
    exact ⟨rfl,rfl,nofun⟩
  | cons r rs ih =>
    obtain ⟨s₁,first,rest⟩ := bind_ok (show (at32intcIntrEstablish s r >>= fun s => establishAll s rs) = .ok s' from ran)
    obtain ⟨low,free,rfl⟩ := establish_spec first
    obtain ⟨ipr,lines,once⟩ := ih rest
    by_cases here : r.index = (n : Int)
    · have slot : r.index.toNat = n := by omega
      have later : rs.find? (fun r => r.index = (n : Int)) = none := by
        refine find?_eq_none.mpr fun r' member same => ?_
        have taken := (once r' member (of_decide_eq_true same)).1
        dsimp only at taken
        rw [slot,update_self] at taken
        cases taken
      rw [find?_cons_of_pos (by simpa using here)]
      refine ⟨ipr,?_,fun r' member same => ?_⟩
      · rw [lines,later,slot]
        exact update_self _ _ _
      rw [slot] at free
      rcases mem_cons.mp member with rfl | member
      · exact ⟨free,rfl⟩
      · exact absurd (decide_eq_true same) (find?_eq_none.mp later r' member)
    have slot : n ≠ r.index.toNat := by omega
    dsimp only at lines once
    rw [update_of_ne slot] at lines once
    rw [find?_cons_of_neg (by simpa using here)]
    refine ⟨ipr,lines,fun r' member same => ?_⟩
    rcases mem_cons.mp member with rfl | member
    · exact absurd same here
    · exact once r' member same

def Holds (s : State H A) (rs : List (Request H A)) (g b : Nat) : Prop :=
  ∃ r, registered rs g b = some r ∧ s.lines (b + g * 32) = ⟨r.line,r.ilvl,r.group,some r.ihnd,r.iarg⟩

-- The loop gets through exactly when every pending line agrees on its level
-- and its group, and then it has called what was asked for.
theorem service_exact (small : ∀ b ∈ bits, b < 32) (holds : ∀ b ∈ bits, irrx.getLsbD b = true → Holds s rs g b) (ilvl : Nat) :
    service s ilvl g irrx ictx bits = .ok (expected rs g irrx ictx bits) ↔
      ∀ b ∈ bits, irrx.getLsbD b = true → ∀ r, registered rs g b = some r → r.ilvl = ilvl ∧ r.group = g := by
  induction bits with
  | nil => exact iff_of_true rfl nofun
  | cons b rest ih =>
    have tail := ih (fun b member => small b (mem_cons_of_mem _ member)) fun b member => holds b (mem_cons_of_mem _ member)
    have bit := PowerMask.bit_clear irrx (small b mem_cons_self)
    unfold service expected
    by_cases clear : irrx.getLsbD b = false
    · rw [if_pos (bit.mpr clear),if_pos clear,tail]
      refine ⟨fun all b' member set => ?_,fun all b' member => all b' (mem_cons_of_mem _ member)⟩
      rcases mem_cons.mp member with rfl | member
      · rw [clear] at set
        cases set
      · exact all b' member set
    rw [Bool.not_eq_false] at clear
    obtain ⟨r,found,slot⟩ := holds b mem_cons_self clear
    rw [if_neg (by rw [bit]; simp [clear]),if_neg (by simp [clear]),found,slot]
    dsimp only
    by_cases agree : r.ilvl = ilvl ∧ r.group = g
    · rw [if_neg (not_not_intro agree.1),if_neg (not_not_intro agree.2)]
      constructor
      · intro ran
        obtain ⟨calls,first,last⟩ := bind_ok ran
        have same := (cons.inj (ok.inj last)).2
        rw [same] at first
        intro b' member set r' found'
        rcases mem_cons.mp member with rfl | member
        · obtain rfl := Option.some.inj (found.symm.trans found')
          exact agree
        · exact tail.mp first b' member set r' found'
      intro all
      rw [tail.mpr fun b' member => all b' (mem_cons_of_mem _ member)]
      rfl
    refine iff_of_false (fun ran => ?_) fun all => agree (all b mem_cons_self clear r found)
    split_ifs at ran with level group
    exact agree ⟨not_not.mp level,not_not.mp group⟩

-- A delivery of pending lines at the level of their group, after any run of
-- registrations: it calls what was registered for these lines, and returns,
-- exactly when the lines were registered under their group and at the level
-- attach had programmed.
theorem dispatch_exact (vector : Nat → Word) (mapped clocked : Bool) (ipr : Nat → Word) (idepth : Int) (intrs : Nat) (s₁ s : State H A)
    (rs : List (Request H A)) (g : Nat) (icr irr : Nat → Word) (st pc : Word)
    (attached : at32intcAttach vector mapped clocked ⟨false,ipr,fun _ => Line.unused,idepth,intrs⟩ = .ok s₁)
    (established : establishAll s₁ rs = .ok s) (cause : (icr (s.level g) &&& AT32INTC_ICR_CAUSE_MASK).toNat = g)
    (pending : irr g ≠ 0) (known : ∀ b < 32, (irr g).getLsbD b = true → ∃ r ∈ rs, r.index = (b + g * 32 : Nat)) :
    at32intcCpuIntr icr irr (s.level g) st pc s = .ok ({s with intrs := s.intrs + 1},expected rs g (irr g) ⟨st,pc⟩ (List.range 32)) ↔
      ∀ b < 32, (irr g).getLsbD b = true → ∀ r ∈ rs, r.index = (b + g * 32 : Nat) → r.ilvl = programmed g ∧ r.group = g := by
  have group : g < AT32INTC_NR_IPR := by
    rw [← cause,BitVec.toNat_and]
    exact Nat.and_lt_two_pow _ (show AT32INTC_ICR_CAUSE_MASK.toNat < 2 ^ 6 by decide)
  have level : s.level g = programmed g := by
    rw [← attach_level attached group]
    unfold State.level
    rw [(establishAll_lines established 0).1]
  have slot (b : Nat) : s.lines (b + g * 32) = ((registered rs g b).map fun r => ⟨r.line,r.ilvl,r.group,some r.ihnd,r.iarg⟩).getD Line.unused := by
    rw [(establishAll_lines established (b + g * 32)).2.1,attach_lines attached]
    rfl
  have only (b : Nat) (r : Request H A) (member : r ∈ rs) (index : r.index = (b + g * 32 : Nat)) : registered rs g b = some r :=
    ((establishAll_lines established (b + g * 32)).2.2 r member index).2
  have holds (b : Nat) (member : b ∈ range 32) (set : (irr g).getLsbD b = true) : Holds s rs g b := by
    obtain ⟨r,known,index⟩ := known b (mem_range.mp member) set
    have found := only b r known index
    refine ⟨r,found,?_⟩
    rw [slot,found]
    rfl
  have exactly := @service_exact H A {s with idepth := s.idepth + 1, intrs := s.intrs + 1} rs g (irr g) ⟨st,pc⟩ (range 32)
    (fun b => mem_range.mp) holds (s.level g)
  have small : ¬ s.level g ≥ 4 := by
    rw [level]
    unfold programmed
    split_ifs <;> decide
  unfold at32intcCpuIntr
  rw [if_neg small,cause,if_neg pending]
  rw [← level]
  constructor
  · intro ran b low set r member index
    obtain ⟨calls,first,last⟩ := bind_ok ran
    have same : calls = expected rs g (irr g) ⟨st,pc⟩ (range 32) := (Prod.ext_iff.mp (ok.inj last)).2
    rw [same] at first
    exact exactly.mp first b (mem_range.mpr low) set r (only b r member index)
  intro all
  rw [exactly.mpr fun b member set r found => ?_]
  · show ok _ = _
    rw [Int.add_sub_cancel]
  · have facts := find?_some found
    exact all b (mem_range.mp member) set r (mem_of_find?_eq_some found) (of_decide_eq_true facts)

def attached : State Unit Unit :=
  ⟨true,Function.update (fun i => if i < AT32INTC_NR_IPR then AT32INTC_IPR_LEVEL (fun _ => 0) 0 else 0) 0 (AT32INTC_IPR_LEVEL (fun _ => 0) 2),
    fun _ => Line.unused,0,0⟩

def attachedWith (r : Request Unit Unit) : State Unit Unit :=
  {attached with lines := Function.update attached.lines r.index.toNat ⟨r.line,r.ilvl,r.group,some r.ihnd,r.iarg⟩}

theorem only_line : ∀ b < 32, (1 : Word).getLsbD b = true → b = 0 := by decide

theorem dispatch_exact_usart :
    at32intcCpuIntr (fun _ => 7) (fun _ => 1) ((attachedWith ⟨7,0,0,(),none⟩).level 7) 0 0 (attachedWith ⟨7,0,0,(),none⟩) =
      .ok ({attachedWith ⟨7,0,0,(),none⟩ with intrs := 1},expected [⟨7,0,0,(),none⟩] 7 1 ⟨0,0⟩ (List.range 32)) :=
  (dispatch_exact (fun _ => 0) true true (fun _ => 0) 0 0 attached (attachedWith ⟨7,0,0,(),none⟩) [⟨7,0,0,(),none⟩] 7 (fun _ => 7) (fun _ => 1) 0 0
    rfl rfl (by decide) (by decide) fun b low set => ⟨_,mem_singleton.mpr rfl,by
      rw [only_line b low set]
      rfl⟩).mpr fun b low set r member _ => by
    obtain rfl := mem_singleton.mp member
    exact ⟨rfl,rfl⟩

-- A handler of level 1 in any group but that of COUNT brings down the system.
theorem dispatch_mismatch : ¬ ∀ (s₁ s : State Unit Unit) (rs : List (Request Unit Unit)) (g : Nat) (icr irr : Nat → Word),
    at32intcAttach (fun _ => 0) true true ⟨false,fun _ => 0,fun _ => Line.unused,0,0⟩ = .ok s₁ → establishAll s₁ rs = .ok s →
    (∀ r ∈ rs, 0 ≤ r.ilvl ∧ r.ilvl ≤ 3) → (icr (s.level g) &&& AT32INTC_ICR_CAUSE_MASK).toNat = g → irr g ≠ 0 →
    (∀ b < 32, (irr g).getLsbD b = true → ∃ r ∈ rs, r.index = (b + g * 32 : Nat)) →
    ∃ s', at32intcCpuIntr icr irr (s.level g) 0 0 s = .ok (s',expected rs g (irr g) ⟨0,0⟩ (List.range 32)) := by
  intro right
  obtain ⟨s',ran⟩ := right attached (attachedWith ⟨7,0,1,(),none⟩) [⟨7,0,1,(),none⟩] 7 (fun _ => 7) (fun _ => 1) rfl rfl
    (fun r member => by
      obtain rfl := mem_singleton.mp member
      exact ⟨by decide,by decide⟩)
    (by decide) (by decide) fun b low set => ⟨_,mem_singleton.mpr rfl,by
      rw [only_line b low set]
      rfl⟩
  have panics : at32intcCpuIntr (fun _ => 7) (fun _ => 1) ((attachedWith ⟨7,0,1,(),none⟩).level 7) 0 0 (attachedWith ⟨7,0,1,(),none⟩) =
      .error (.panic "at32intc_cpu_intr: interrupt level mismatch") := rfl
  cases ran
end NetbsdAvr32.At32Intc
