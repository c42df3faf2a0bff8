import Mathlib.Data.Nat.Find
import NetbsdAvr32.ClistQueue

-- ndqb: how many characters lie side by side in front.
namespace NetbsdAvr32.Clist
open List BitVec

-- isset on c_cq, which is NULL unless the clist is `quot`. Without it the calls leave out the
-- bitmap and do the same with the rest of the clist.
def issetCq (quot : Bool) (clp : Clist) (i : Nat) : Except Halt Bool := if quot then isset clp i else .error (.fault "NULL pointer")

-- Both while loops of ndqb: `quote` is what they ask of the index after its increment.
def ndqbLoop (clp : Clist) (mask : BitVec 32) (quote : Nat → Except Halt Bool) : Nat → Nat → Nat → Except Halt Nat
  | 0, _, count => .ok count
  | cc + 1, i, count => do
    let byte ← readByte clp i
    let i := i + 1
    let stop ← (if byte.setWidth 32 &&& mask ≠ 0 then .ok true else quote i)
    if stop then .ok count
    else if i = clp.cCn then .ok (count + 1)
    else ndqbLoop clp mask quote cc i (count + 1)

def ndqb (quot : Bool) (clp : Clist) (flag : BitVec 32) : Except Halt Int :=
  if clp.cCc = 0 then .ok 0
  else do
    let cf ← deref clp.cCf
    if flag = 0 then do
      let cl ← deref clp.cCl
      let count := (cl : Int) - cf
      .ok (if count ≤ 0 then (clp.cCn : Int) - cf else count)
    else do
      let count ← (if flag &&& ttyQuote ≠ 0 then ndqbLoop clp (flag &&& ~~~ttyQuote) (issetCq quot clp) clp.cCc cf 0
        else ndqbLoop clp flag (fun _ => .ok false) clp.cCc cf 0)
      .ok count

-- A character as it was put into the list, if the list keeps quote bits.
def quotedChar (quot : Bool) (x : BitVec 8 × Bool) : BitVec 8 × Bool := (x.1,quot && x.2)

def front (clp : Clist) (q : Queue) : Queue :=
  match clp.cCf with
  | some f => q.take (clp.cCn - f)
  | none => []

-- How many of them have no bit of the flag, up to the first that has one.
def clear (quot : Bool) (flag : BitVec 32) (q : Queue) : Nat := (q.takeWhile fun x => code (quotedChar quot x) &&& flag == 0).length
def clearBytes (mask : BitVec 32) (q : Queue) : Nat := (q.takeWhile fun x => x.1.setWidth 32 &&& mask == 0).length

-- What ndqb asks of the bitmap does not matter: the first byte has a bit of the flag, or the first
-- two places have their quote bits, or none does up to the place behind the bytes that are passed.
def Harmless (quot : Bool) (clp : Clist) (flag : BitVec 32) (f : Nat) (q : Queue) : Prop :=
  clearBytes (flag &&& ~~~ttyQuote) (front clp q) = 0 ∨ issetCq quot clp f = .ok true ∧ issetCq quot clp (f + 1) = .ok true ∨
    ∀ k ≤ clearBytes (flag &&& ~~~ttyQuote) (front clp q),issetCq quot clp (f + k) = .ok false

variable {clp : Clist} {flag mask : BitVec 32} {quote : Nat → Except Halt Bool} {f i cc count : Nat} {q l : Queue} {x : BitVec 8 × Bool} {quot : Bool} {p : BitVec 8 × Bool → Bool}

structure Beside (clp : Clist) (l : Queue) (i cc : Nat) : Prop where
  bytes : ∀ k x,l[k]? = some x → clp.cs (i + k) = x.1
  inside : i + l.length ≤ clp.cCn
  ends : cc = l.length ∨ i + l.length = clp.cCn ∧ l.length ≤ cc
  some : l = [] → cc = 0

theorem Beside.read (beside : Beside clp (x :: l) i cc) : readByte clp i = .ok x.1 := by
  have inside := beside.inside
  have byte := beside.bytes 0 x rfl
  simp only [length_cons] at inside
  unfold readByte
  rw [if_pos (by omega)]
  exact congrArg _ byte

theorem Beside.next (beside : Beside clp (x :: l) i (cc + 1)) (more : i + 1 ≠ clp.cCn) : Beside clp l (i + 1) cc := by
  obtain ⟨bytes,inside,ends,_⟩ := beside
  simp only [length_cons] at inside ends
  refine ⟨fun k y mem => ?_,by omega,by omega,fun none => ?_⟩
  · have := bytes (k + 1) y mem
    rwa [show i + 1 + k = i + (k + 1) by omega]
  subst none
  simp only [length_nil] at inside ends
  omega

theorem clearBytes_cons : clearBytes mask (x :: l) = if x.1.setWidth 32 &&& mask = 0 then clearBytes mask l + 1 else 0 := by
  unfold clearBytes
  rw [takeWhile_cons]
  by_cases zero : x.1.setWidth 32 &&& mask = 0
  · rw [if_pos zero,if_pos (beq_iff_eq.mpr zero),length_cons]
  · rw [if_neg zero,if_neg fun same => zero (beq_iff_eq.mp same),length_nil]

theorem ndqbLoop_cons (beside : Beside clp (x :: l) i cc) : ∃ cc',cc = cc' + 1 ∧ ndqbLoop clp mask quote cc i count =
    (if x.1.setWidth 32 &&& mask ≠ 0 then .ok true else quote (i + 1)) >>= fun stop =>
      if stop then .ok count else if i + 1 = clp.cCn then .ok (count + 1) else ndqbLoop clp mask quote cc' (i + 1) (count + 1) := by
  obtain ⟨cc',rfl⟩ : ∃ n,cc = n + 1 := by
    have ends := beside.ends
    simp only [length_cons] at ends
    exact ⟨cc - 1,by omega⟩
  refine ⟨cc',rfl,?_⟩
  rw [ndqbLoop,beside.read]
  rfl

theorem ndqbLoop_clear (beside : Beside clp l i cc) (none : ∀ k < clearBytes mask l,quote (i + k + 1) = .ok false) :
    ndqbLoop clp mask quote cc i count = .ok (count + clearBytes mask l) := by
  induction l generalizing i cc count with
  | nil =>
    rw [beside.some rfl]
    rfl
  | cons x l ih =>
    obtain ⟨cc',rfl,turn⟩ := @ndqbLoop_cons clp mask quote i cc count l x beside
    rw [turn]
    rw [clearBytes_cons] at none ⊢
    by_cases zero : x.1.setWidth 32 &&& mask = 0
    · rw [if_pos zero] at none ⊢
      rw [if_neg (not_not.mpr zero),none 0 (Nat.succ_pos _)]
      simp only [Outcome.ok_bind]
      by_cases wrap : i + 1 = clp.cCn
      · have inside := beside.inside
        have empty : l = [] := eq_nil_of_length_eq_zero (by simp only [length_cons] at inside; omega)
        rw [if_neg Bool.false_ne_true,if_pos wrap,empty]
        rfl
      rw [if_neg Bool.false_ne_true,if_neg wrap,ih (beside.next wrap) fun k lt => ?_]
      · congr 1
        omega
      have := none (k + 1) (by omega)
      rwa [show i + (k + 1) + 1 = i + 1 + k + 1 by omega] at this
    rw [if_neg zero,if_pos zero]
    rfl

theorem ndqbLoop_stops {j : Nat} (beside : Beside clp l i cc) (none : ∀ k < j,quote (i + k + 1) = .ok false) (less : j < clearBytes mask l)
    (met : quote (i + j + 1) ≠ .ok false) : ndqbLoop clp mask quote cc i count = .ok (count + j) ∧ quote (i + j + 1) = .ok true ∨
      ∃ halt,quote (i + j + 1) = .error halt ∧ ndqbLoop clp mask quote cc i count = .error halt := by
  induction l generalizing i cc count j with
  | nil => simp [clearBytes] at less
  | cons x l ih =>
    obtain ⟨cc',rfl,turn⟩ := @ndqbLoop_cons clp mask quote i cc count l x beside
    rw [turn]
    rw [clearBytes_cons] at less
    split_ifs at less with zero
    · rw [if_neg (not_not.mpr zero)]
      cases j with
      | zero =>
        cases asked : quote (i + 1) with
        | error halt => exact .inr ⟨halt,asked ▸ rfl,rfl⟩
        | ok stop =>
          cases stop with
          | false => exact absurd asked met
          | true => exact .inl ⟨rfl,asked ▸ rfl⟩
      | succ j =>
        rw [none 0 (Nat.succ_pos _)]
        simp only [Outcome.ok_bind]
        have wrap : i + 1 ≠ clp.cCn := fun wrap => by
          have inside := beside.inside
          have empty : l = [] := eq_nil_of_length_eq_zero (by simp only [length_cons] at inside; omega)
          simp [empty,clearBytes] at less
        rw [if_neg Bool.false_ne_true,if_neg wrap]
        have same : ∀ k,i + 1 + k + 1 = i + (k + 1) + 1 := fun k => by omega
        rw [← same]
        rw [← same] at met
        have rest := @ih (i + 1) cc' (count + 1) j (beside.next wrap) (fun k lt => by rw [same]; exact none (k + 1) (by omega)) (by omega) met
        rwa [show count + 1 + j = count + (j + 1) by omega] at rest
    · omega

theorem setWidth_quote : ∀ byte : BitVec 8,byte.setWidth 32 &&& ~~~ttyQuote = byte.setWidth 32 := by decide

theorem byte_mask (byte : BitVec 8) (flag : BitVec 32) : byte.setWidth 32 &&& (flag &&& ~~~ttyQuote) = byte.setWidth 32 &&& flag := by
  rw [BitVec.and_comm flag,← BitVec.and_assoc,setWidth_quote]

theorem code_clear (asked : flag &&& ttyQuote ≠ 0) : (code (quotedChar quot x) &&& flag == 0) =
    ((x.1.setWidth 32 &&& (flag &&& ~~~ttyQuote) == 0) && !(quot && x.2)) := by
  have other : ttyQuote &&& flag ≠ 0 := by rwa [BitVec.and_comm]
  rw [byte_mask]
  unfold code quotedChar
  cases quoted : quot && x.2 with
  | false => simp
  | true =>
    rw [Bool.not_true,Bool.and_false,beq_eq_false_iff_ne]
    intro zero
    rw [if_pos rfl,and_or_distrib_right] at zero
    exact other (or_eq_zero_iff.mp zero).2

theorem takeWhile_more {l : Queue} (p r : BitVec 8 × Bool → Bool) : (l.takeWhile fun x => p x && !r x).length ≤ (l.takeWhile p).length ∧
    (∀ k < (l.takeWhile fun x => p x && !r x).length,∃ x,l[k]? = some x ∧ r x = false) ∧
    ((l.takeWhile fun x => p x && !r x).length < (l.takeWhile p).length → ∃ x,l[(l.takeWhile fun x => p x && !r x).length]? = some x ∧ r x = true) := by
  induction l with
  | nil => simp
  | cons x l ih =>
    obtain ⟨le,none,some⟩ := ih
    rw [takeWhile_cons,takeWhile_cons]
    cases one : p x with
    | false => simp
    | true =>
      cases two : r x with
      | true => simp [two]
      | false =>
        simp only [Bool.not_false,Bool.and_self,if_true,length_cons]
        refine ⟨by omega,fun k lt => ?_,fun less => ?_⟩
        · cases k with
          | zero => exact ⟨x,rfl,two⟩
          | succ k => exact none k (by omega)
        · exact some (by omega)

theorem Ring.beside (ring : Ring clp q f) : Beside clp (Clist.front clp q) f q.length := by
  have inside := ring.inside
  have shape : Clist.front clp q = q.take (clp.cCn - f) := by
    unfold Clist.front
    rw [ring.front]
  rw [shape]
  refine ⟨fun k x mem => ?_,?_,?_,fun none => ?_⟩
  · rw [getElem?_take] at mem
    split at mem
    · next lt =>
      have here := ring.slots k x mem
      rw [place,if_pos (by omega)] at here
      exact congrArg Prod.fst here
    · cases mem
  · rw [length_take]
    omega
  · rw [length_take]
    omega
  rcases take_eq_nil_iff.mp none with past | empty
  · omega
  · exact length_eq_zero_iff.mpr empty

theorem Ring.quotes (ring : Ring clp q f) {k : Nat} (mem : (Clist.front clp q)[k]? = some x) : issetCq true clp (f + k) = .ok x.2 := by
  have old := mem
  unfold Clist.front at old
  rw [ring.front] at old
  rw [getElem?_take] at old
  split at old
  · have here := ring.slots k x old
    rw [place,if_pos (by omega)] at here
    rw [issetCq,if_pos rfl,isset_ok (by omega),here]
  · cases old

theorem clear_asked (asked : flag &&& ttyQuote ≠ 0) (l : Queue) : clear quot flag l ≤ clearBytes (flag &&& ~~~ttyQuote) l ∧
    (∀ k < clear quot flag l,∃ x,l[k]? = some x ∧ (quot && x.2) = false) ∧
    (clear quot flag l < clearBytes (flag &&& ~~~ttyQuote) l → ∃ x,l[clear quot flag l]? = some x ∧ (quot && x.2) = true) := by
  have same : clear quot flag l = (l.takeWhile fun x => (x.1.setWidth 32 &&& (flag &&& ~~~ttyQuote) == 0) && !(quot && x.2)).length := by
    unfold clear
    simp only [code_clear asked]
  rw [same]
  exact takeWhile_more (fun x => x.1.setWidth 32 &&& (flag &&& ~~~ttyQuote) == 0) fun x => quot && x.2

theorem clear_bytes (asked : flag &&& ttyQuote = 0) (l : Queue) : clear quot flag l = clearBytes flag l := by
  have none : ttyQuote &&& flag = 0 := by rwa [BitVec.and_comm]
  unfold clear clearBytes
  congr 2
  funext x
  unfold code quotedChar
  rw [and_or_distrib_right]
  cases quot && x.2 with
  | false => simp
  | true =>
    rw [if_pos rfl,none]
    simp

-- Where the flag asks for quote bits the loop counts right only by chance.
theorem loop_exact (ring : Ring clp q f) (asked : flag &&& ttyQuote ≠ 0) :
    ndqbLoop clp (flag &&& ~~~ttyQuote) (issetCq quot clp) q.length f 0 = .ok (clear quot flag (Clist.front clp q)) ↔
      Harmless quot clp flag f q := by
  have beside := ring.beside
  obtain ⟨le,unset,set⟩ := @clear_asked flag quot asked (Clist.front clp q)
  unfold Harmless
  generalize clear quot flag (Clist.front clp q) = m at le unset set ⊢
  generalize passed : clearBytes (flag &&& ~~~ttyQuote) (Clist.front clp q) = b at le set ⊢
  have own : ∀ {k x},quot = true → (Clist.front clp q)[k]? = some x → issetCq quot clp (f + k) = .ok x.2 := fun yes mem => by
    rw [yes]
    exact ring.quotes mem
  have whole : (∀ k < b,issetCq quot clp (f + k + 1) = .ok false) →
      ndqbLoop clp (flag &&& ~~~ttyQuote) (issetCq quot clp) q.length f 0 = .ok b := fun none => by
    rw [ndqbLoop_clear beside (by rwa [passed]),passed,Nat.zero_add]
  have ends : m < b → quot = true ∧ issetCq quot clp (f + m) = .ok true := fun less => by
    obtain ⟨x,mem,quoted⟩ := set less
    obtain ⟨yes,bit⟩ := Bool.and_eq_true_iff.mp quoted
    exact ⟨yes,bit ▸ own yes mem⟩
  constructor
  · intro ran
    by_cases zero : b = 0
    · exact .inl zero
    by_cases met : ∃ j,j < b ∧ issetCq quot clp (f + j + 1) ≠ .ok false
    · -- the first place that is set ends the loop
      classical
      obtain ⟨less,stop⟩ := Nat.find_spec met
      have before : ∀ k < Nat.find met,issetCq quot clp (f + k + 1) = .ok false := fun k lt => by
        by_contra here
        exact Nat.find_min met lt ⟨Nat.lt_trans lt less,here⟩
      generalize Nat.find met = j at less stop before
      rcases @ndqbLoop_stops clp _ _ f q.length 0 _ j beside before (by rwa [passed]) stop with ⟨ended,here⟩ | ⟨halt,_,faults⟩
      · rw [ended,Nat.zero_add] at ran
        obtain rfl := Except.ok.inj ran
        have bit := (ends less).2
        cases j with
        | zero => exact .inr (.inl ⟨bit,here⟩)
        | succ j =>
          have := before j (Nat.lt_succ_self j)
          rw [show f + j + 1 = f + (j + 1) by omega,bit] at this
          cases this
      rw [faults] at ran
      cases ran
    have none : ∀ k < b,issetCq quot clp (f + k + 1) = .ok false := fun k lt => by
      by_contra here
      exact met ⟨k,lt,here⟩
    rw [whole none] at ran
    obtain rfl := Except.ok.inj ran
    refine .inr (.inr fun k le => ?_)
    cases k with
    | zero =>
      obtain ⟨x,mem,clean⟩ := unset 0 (by omega)
      cases quot with
      | false => cases none 0 (by omega)
      | true => exact (own rfl mem).trans (congrArg _ clean)
    | succ k => exact none k le
  rintro (zero | ⟨first,second⟩ | none)
  · rw [whole (by omega)]
    congr 1
    omega
  · by_cases zero : b = 0
    · rw [whole (by omega)]
      congr 1
      omega
    have empty : m = 0 := by
      by_contra some
      obtain ⟨x,mem,clean⟩ := unset 0 (by omega)
      cases quot with
      | false => cases first
      | true =>
        have here := own rfl mem
        rw [Nat.add_zero,first] at here
        rw [← Except.ok.inj here] at clean
        cases clean
    have stop : issetCq quot clp (f + 0 + 1) ≠ .ok false := by
      rw [Nat.add_zero,second]
      intro same
      cases same
    rcases @ndqbLoop_stops clp _ _ f q.length 0 _ 0 beside (fun k lt => absurd lt (Nat.not_lt_zero k)) (by rw [passed]; omega) stop with
      ⟨ended,_⟩ | ⟨halt,faults,_⟩
    · rw [ended,empty]
    rw [Nat.add_zero,second] at faults
    cases faults
  have all : m = b := by
    by_contra other
    obtain ⟨_,bit⟩ := ends (by omega)
    rw [none m le] at bit
    cases bit
  rw [whole fun k lt => none (k + 1) lt,all]

-- The count is the claimed one exactly where the bitmap is not asked or asking it does no harm.
theorem ndqb_exact (size : Nat) (clp : Clist) (q : Queue) (reached : Reached size clp q) (quot : Bool) (flag : BitVec 32) (nonzero : flag ≠ 0) :
    ndqb quot clp flag = .ok (clear quot flag (front clp q)) ↔
      flag &&& ttyQuote = 0 ∨ ∀ f,clp.cCf = some f → Harmless quot clp flag f q := by
  obtain ⟨rfl,holds⟩ := reached_holds reached
  by_cases zero : clp.cCc = 0
  · have none : q = [] := length_eq_zero_iff.mp (holds.amount.symm.trans zero)
    subst none
    have empty : front clp [] = [] := by
      unfold front
      split <;> simp
    refine iff_of_true ?_ (.inr fun f _ => .inl ?_)
    · rw [ndqb,if_pos zero,empty]
      rfl
    · rw [empty]
      rfl
  · obtain ⟨f,ring⟩ := holds.ring zero
    have amount := ring.amount
    have only : (∀ g,clp.cCf = some g → Harmless quot clp flag g q) ↔ Harmless quot clp flag f q := by
      rw [ring.front]
      exact ⟨fun all => all f rfl,fun here g same => Option.some.inj same ▸ here⟩
    rw [ndqb,if_neg zero,ring.derefFront,Outcome.ok_bind,if_neg nonzero,only]
    by_cases asked : flag &&& ttyQuote = 0
    · rw [if_neg (not_not.mpr asked),amount,ndqbLoop_clear ring.beside fun _ _ => rfl,Nat.zero_add,clear_bytes asked]
      exact iff_of_true rfl (.inl asked)
    rw [if_pos asked,amount,or_iff_right asked,← loop_exact ring asked]
    cases ndqbLoop clp (flag &&& ~~~ttyQuote) (issetCq quot clp) q.length f 0 with
    | error halt => exact iff_of_false (fun same => by cases same) fun same => by cases same
    | ok count =>
      rw [Outcome.ok_bind]
      constructor
      · intro same
        rw [Int.natCast_inj.mp (Except.ok.inj same)]
      · intro same
        rw [Except.ok.inj same]

theorem ndqb_exact_two : ∃ clp q,Reached 3 clp q ∧ (ndqb true clp ttyQuote = .ok (clear true ttyQuote (front clp q)) ↔
    ttyQuote &&& ttyQuote = 0 ∨ ∀ f,clp.cCf = some f → Harmless true clp ttyQuote f q) := by
  have one : Reached 3 _ _ := @Reached.step _ _ _ (.putc 0x161#32) _ _ .created trivial rfl
  have two : Reached 3 _ _ := @Reached.step _ _ _ (.putc 0x62#32) _ _ one trivial rfl
  exact ⟨_,_,two,ndqb_exact 3 _ _ two true ttyQuote (by decide)⟩

theorem ndqb_next : ¬∀ size clp q,Reached size clp q → ∀ quot flag,flag ≠ 0 → ndqb quot clp flag = .ok (clear quot flag (front clp q)) := by
  intro all
  have one : Reached 3 _ _ := @Reached.step _ _ _ (.putc 0x161#32) _ _ .created trivial rfl
  have two : Reached 3 _ _ := @Reached.step _ _ _ (.putc 0x62#32) _ _ one trivial rfl
  have here := all 3 _ _ two true ttyQuote (by decide)
  have counted : (2 : Int) = 0 := Except.ok.inj here
  cases counted

-- firstc and nextc: the pointer and the character that they give, and the static cc that they leave.

def charAt (quot : Bool) (clp : Clist) (cp : Nat) : Except Halt (BitVec 32) := do
  let byte ← readByte clp cp
  let quoted ← (if quot then isset clp cp else .ok false)
  .ok (byte.setWidth 32 ||| (if quoted then ttyQuote else 0))

def firstc (quot : Bool) (clp : Clist) : Except Halt (Option (Nat × BitVec 32) × Nat) :=
  if clp.cCc = 0 then .ok (none,clp.cCc)
  else do
    let cp ← deref clp.cCf
    let c ← charAt quot clp cp
    .ok (some (cp,c),clp.cCc)

def nextc (quot : Bool) (clp : Clist) (cc cp : Nat) : Except Halt (Option (Nat × BitVec 32) × Nat) :=
  let cc := if clp.cCf = some cp then clp.cCc else cc
  if cc = 0 then .ok (none,cc)
  else if cc - 1 = 0 then .ok (none,cc - 1)
  else do
    let cp := wrap clp (cp + 1)
    let c ← charAt quot clp cp
    .ok (some (cp,c),cc - 1)

-- The for loop of ttyretype.
def walkLoop (quot : Bool) (clp : Clist) : Nat → Nat → Option (Nat × BitVec 32) → Except Halt (List (BitVec 32))
  | 0, _, _ => .error .fuel
  | _ + 1, _, none => .ok []
  | rounds + 1, cc, some (cp,c) => do
    let (next,cc) ← nextc quot clp cc cp
    let rest ← walkLoop quot clp rounds cc next
    .ok (c :: rest)

def walk (quot : Bool) (clp : Clist) : Except Halt (List (BitVec 32)) := do
  let (first,cc) ← firstc quot clp
  walkLoop quot clp (clp.cCc + 1) cc first

theorem charAt_ok (quot : Bool) (lt : i < clp.cCn) : charAt quot clp i = .ok (code (quotedChar quot (slot clp i))) := by
  rw [charAt,readByte_ok lt,Outcome.ok_bind]
  cases quot with
  | false => rfl
  | true => rw [if_pos rfl,isset_ok lt,Outcome.ok_bind]; rfl

theorem Ring.charAt (ring : Ring clp q f) (quot : Bool) (at_ : q[i]? = some x) :
    charAt quot clp (place clp.cCn f i) = .ok (code (quotedChar quot x)) := by
  have room := ring.room
  have lt := (List.getElem?_eq_some_iff.mp at_).1
  rw [charAt_ok quot (place_lt ring.inside (by omega)),ring.slots i x at_]

-- The pointer is at x, and cc counts x and what is behind it. At the front cc is set anew.
theorem Ring.remaining (ring : Ring clp q f) (left : q.drop i = x :: l) (counted : i = 0 ∨ cc = l.length + 1) :
    (if clp.cCf = some (place clp.cCn f i) then clp.cCc else cc) = l.length + 1 := by
  have room := ring.room
  have amount := ring.amount
  have length := congrArg List.length left
  rw [length_drop,length_cons] at length
  split_ifs with front
  · rw [ring.front] at front
    have zero := place_injective ring.inside (by omega) (by omega) ((place_zero ring.inside).trans (Option.some.inj front))
    omega
  refine counted.resolve_left ?_
  rintro rfl
  exact front (by rw [ring.front,place_zero ring.inside])

theorem Ring.walk (ring : Ring clp q f) (quot : Bool) (left : q.drop i = x :: l) (counted : i = 0 ∨ cc = l.length + 1) :
    walkLoop quot clp (l.length + 2) cc (some (place clp.cCn f i,code (quotedChar quot x))) =
      .ok ((x :: l).map fun x => code (quotedChar quot x)) := by
  induction l generalizing x i cc with
  | nil =>
    rw [walkLoop,nextc,ring.remaining left counted]
    rfl
  | cons y l ih =>
    have length := congrArg List.length left
    have room := ring.room
    simp only [length_drop,length_cons] at length
    have behind : q.drop (i + 1) = y :: l := by rw [← drop_drop,left]; rfl
    have second : q[i + 1]? = some y := by rw [← head?_drop,behind]; rfl
    have inside := place_lt (k := i) ring.inside (by omega)
    have moved : wrap clp (place clp.cCn f i + 1) = place clp.cCn f (i + 1) := by
      rw [wrap_eq inside inside,place_add ring.inside (by omega)]
    rw [walkLoop,nextc,ring.remaining left counted,if_neg (Nat.succ_ne_zero _),Nat.add_sub_cancel,length_cons,if_neg (Nat.succ_ne_zero _),moved]
    dsimp only
    rw [ring.charAt quot second,Outcome.ok_bind,Outcome.ok_bind]
    dsimp only
    rw [ih behind (.inr rfl),Outcome.ok_bind]
    rfl

-- A walk gives the characters that getc would take out, and then NULL.
theorem walk_reads (size : Nat) (clp : Clist) (q : Queue) (reached : Reached size clp q) (quot : Bool) :
    walk quot clp = .ok (q.map fun x => code (quotedChar quot x)) := by
  obtain ⟨_,holds⟩ := reached_holds reached
  have amount := holds.amount
  cases q with
  | nil =>
    rw [length_nil] at amount
    rw [walk,firstc,if_pos amount,amount]
    rfl
  | cons x q =>
    have nonzero : clp.cCc ≠ 0 := fun zero => by simp [zero] at amount
    obtain ⟨f,ring⟩ := holds.ring nonzero
    have first := ring.charAt (i := 0) quot rfl
    have walked := @Ring.walk _ _ 0 clp.cCc _ _ _ ring quot rfl (.inl rfl)
    rw [place_zero ring.inside] at first walked
    rw [walk,firstc,if_neg nonzero,ring.derefFront,Outcome.ok_bind,first,Outcome.ok_bind,Outcome.ok_bind,← walked,amount]
    rfl

theorem walk_reads_wrapped : ∃ clp,clp.cCf = some 1 ∧ walk true clp = .ok [0x62#32,0x163#32] := by
  have one : Reached 2 _ _ := @Reached.step _ _ _ (.bToQ [0x61#8,0x62#8] 2) _ _ .created (show (2 : Int) ≤ 2 by decide) rfl
  have two : Reached 2 _ _ := @Reached.step _ _ _ .getc _ _ one trivial rfl
  have three : Reached 2 _ _ := @Reached.step _ _ _ (.putc 0x163#32) _ _ two trivial rfl
  exact ⟨_,rfl,walk_reads 2 _ _ three true⟩
end NetbsdAvr32.Clist
