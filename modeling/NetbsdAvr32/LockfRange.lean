import NetbsdAvr32.LockfOps

-- The byte range of a request: what lf_advlock's conversion makes of every
-- l_whence, l_start, l_len and file size.
namespace NetbsdAvr32.Lockf
variable {fl : Flock} {size start fin : Int} {r : Option (Int × Int)}

def InOffT (x : Int) : Prop := -2 ^ 63 ≤ x ∧ x < 2 ^ 63
instance (x : Int) : Decidable (InOffT x) := inferInstanceAs (Decidable (_ ∧ _))

-- off_t arithmetic as the machine does it, on 64-bit words.
def wrapOff (x : Int) : Int := (x + 2 ^ 63) % 2 ^ 64 - 2 ^ 63

def startWords (fl : Flock) (size : Int) : Int :=
  match fl.lWhence with
  | .seekEnd => wrapOff (size + fl.lStart)
  | _ => fl.lStart

def endsWords (fl : Flock) (start : Int) : Int × Int :=
  if fl.lLen = 0 then (start,-1)
  else if fl.lLen > 0 then (start,wrapOff (wrapOff (start + fl.lLen) - 1))
  else (wrapOff (start + fl.lLen),wrapOff (start - 1))

-- The conversion on a machine whose words wrap; `none` is EINVAL.
def flockWords (fl : Flock) (size : Int) : Option (Int × Int) :=
  if fl.lWhence = .other then none
  else if (endsWords fl (startWords fl size)).1 < 0 then none
  else some (endsWords fl (startWords fl size))

-- The request's first byte as an unbounded integer, and the bytes it means.
def flockBase (fl : Flock) (size : Int) : Int :=
  match fl.lWhence with
  | .seekEnd => size + fl.lStart
  | _ => fl.lStart

def Requested (fl : Flock) (size start fin : Int) : Prop :=
  if fl.lLen = 0 then start = flockBase fl size ∧ fin = -1
  else if fl.lLen > 0 then start = flockBase fl size ∧ fin = flockBase fl size + fl.lLen - 1
  else start = flockBase fl size + fl.lLen ∧ fin = flockBase fl size - 1

-- EINVAL, or the request's own bytes.
def Converted (fl : Flock) (size : Int) (r : Option (Int × Int)) : Prop :=
  ∀ start fin, r = some (start,fin) → 0 ≤ start ∧ Requested fl size start fin ∧ (fin = -1 ∨ start ≤ fin)

-- No sum leaves off_t.
def SumsFit (fl : Flock) (size : Int) : Prop :=
  InOffT (flockBase fl size) ∧ (fl.lWhence = .other ∨ fl.lLen = 0 ∨
    fl.lLen > 0 ∧ flockBase fl size + fl.lLen < 2 ^ 63 ∨
    fl.lLen < 0 ∧ -2 ^ 63 ≤ flockBase fl size - 1 ∧ -2 ^ 63 ≤ flockBase fl size + fl.lLen)

-- No sum that leaves off_t comes back as an accepted start with a wrong range.
def WrapsHarmless (fl : Flock) (size : Int) : Prop :=
  fl.lWhence = .other ∨ fl.lLen = 0 ∨
    fl.lLen > 0 ∧ (flockBase fl size < 0 ∨ 2 ^ 63 ≤ flockBase fl size ∨ flockBase fl size + fl.lLen - 1 < 2 ^ 63) ∨
    fl.lLen < 0 ∧ -2 ^ 63 ≤ flockBase fl size + fl.lLen ∧
      (flockBase fl size + fl.lLen < 0 ∨ 2 ^ 63 ≤ flockBase fl size + fl.lLen ∨ flockBase fl size ≤ 2 ^ 63)

theorem wrapOff_id {x : Int} (fits : InOffT x) : wrapOff x = x := by
  obtain ⟨low,high⟩ := fits
  unfold wrapOff
  omega

theorem wrapOff_add (x y : Int) : wrapOff (wrapOff x + y) = wrapOff (x + y) := by
  unfold wrapOff
  omega

theorem offT_iff {x y : Int} : offT x = .ok y ↔ InOffT x ∧ y = x := by
  unfold offT InOffT offMax
  split_ifs with fits
  · exact ⟨fun same => ⟨⟨by omega,by omega⟩,(Except.ok.inj same).symm⟩,fun ⟨_,same⟩ => congrArg _ same.symm⟩
  · exact ⟨nofun,fun ⟨⟨low,high⟩,_⟩ => absurd ⟨by omega,by omega⟩ fits⟩

theorem startWords_eq (start : InOffT fl.lStart) : startWords fl size = wrapOff (flockBase fl size) := by
  unfold startWords flockBase
  cases fl.lWhence with
  | seekEnd => rfl
  | _ => exact (wrapOff_id start).symm

theorem base_bounds (lStart : InOffT fl.lStart) (file : 0 ≤ size ∧ size < 2 ^ 63) :
    -2 ^ 63 ≤ flockBase fl size ∧ flockBase fl size < 2 ^ 64 - 1 := by
  obtain ⟨low,high⟩ := lStart
  unfold flockBase
  cases fl.lWhence <;> constructor <;> dsimp only <;> omega

theorem Requested.ordered (asked : Requested fl size start fin) : fin = -1 ∨ start ≤ fin := by
  unfold Requested at asked
  split_ifs at asked with whole forward
  · exact .inl asked.2
  · exact .inr (by omega)
  · exact .inr (by omega)

theorem converted_none : Converted fl size none := nofun

theorem converted_some : Converted fl size (some (start,fin)) ↔ 0 ≤ start ∧ Requested fl size start fin :=
  ⟨fun right => ⟨(right start fin rfl).1,(right start fin rfl).2.1⟩,fun ⟨pos,asked⟩ _ _ same => by
    cases same
    exact ⟨pos,asked,asked.ordered⟩⟩

theorem flockWords_other (other : fl.lWhence = .other) : flockWords fl size = none := if_pos other

theorem flockWords_ends (known : fl.lWhence ≠ .other) (lStart : InOffT fl.lStart) {ends : Int × Int}
    (same : endsWords fl (wrapOff (flockBase fl size)) = ends) : flockWords fl size = if ends.1 < 0 then none else some ends := by
  unfold flockWords
  rw [if_neg known,startWords_eq lStart,same]

theorem converted_ends (ends : Int × Int) : Converted fl size (if ends.1 < 0 then none else some ends) ↔ ends.1 < 0 ∨ 0 ≤ ends.1 ∧ Requested fl size ends.1 ends.2 := by
  split_ifs with neg
  · exact ⟨fun _ => .inl neg,fun _ => converted_none⟩
  · exact converted_some.trans ⟨.inr,fun or => or.elim (fun lower => absurd lower neg) id⟩

theorem requested_zero (zero : fl.lLen = 0) : Requested fl size start fin ↔ start = flockBase fl size ∧ fin = -1 := by
  unfold Requested
  rw [if_pos zero]

theorem requested_pos (pos : fl.lLen > 0) : Requested fl size start fin ↔ start = flockBase fl size ∧ fin = flockBase fl size + fl.lLen - 1 := by
  unfold Requested
  rw [if_neg (by omega),if_pos pos]

theorem requested_neg (neg : fl.lLen < 0) : Requested fl size start fin ↔ start = flockBase fl size + fl.lLen ∧ fin = flockBase fl size - 1 := by
  unfold Requested
  rw [if_neg (by omega),if_neg (by omega)]

theorem words_exact (lStart : InOffT fl.lStart) (lLen : InOffT fl.lLen) (file : 0 ≤ size ∧ size < 2 ^ 63) :
    Converted fl size (flockWords fl size) ↔ WrapsHarmless fl size := by
  obtain ⟨baseLow,baseHigh⟩ := base_bounds lStart file
  obtain ⟨lenLow,lenHigh⟩ := lLen
  unfold WrapsHarmless
  by_cases other : fl.lWhence = .other
  · rw [flockWords_other other]
    exact ⟨fun _ => .inl other,fun _ => converted_none⟩
  rw [or_iff_right other]
  rcases Int.lt_trichotomy fl.lLen 0 with neg | zero | pos
  · have ends : endsWords fl (wrapOff (flockBase fl size)) = (wrapOff (flockBase fl size + fl.lLen),wrapOff (flockBase fl size - 1)) := by
      unfold endsWords
      rw [if_neg (by omega),if_neg (by omega),wrapOff_add,Int.sub_eq_add_neg,wrapOff_add,← Int.sub_eq_add_neg]
    rw [flockWords_ends other lStart ends,converted_ends,requested_neg neg]
    unfold wrapOff
    generalize flockBase fl size = base at *
    omega
  · have ends : endsWords fl (wrapOff (flockBase fl size)) = (wrapOff (flockBase fl size),-1) := if_pos zero
    rw [flockWords_ends other lStart ends,converted_ends,requested_zero zero]
    unfold wrapOff
    generalize flockBase fl size = base at *
    omega
  have ends : endsWords fl (wrapOff (flockBase fl size)) = (wrapOff (flockBase fl size),wrapOff (flockBase fl size + fl.lLen - 1)) := by
    unfold endsWords
    rw [if_neg (by omega),if_pos pos,wrapOff_add,Int.sub_eq_add_neg,wrapOff_add,← Int.sub_eq_add_neg]
  rw [flockWords_ends other lStart ends,converted_ends,requested_pos pos]
  unfold wrapOff
  generalize flockBase fl size = base at *
  omega

theorem flockStart_eq : flockStart fl size = offT (flockBase fl size) := by
  unfold flockStart flockBase
  cases fl.lWhence <;> rfl

theorem offT_in {x : Int} (fits : InOffT x) : offT x = .ok x := offT_iff.mpr ⟨fits,rfl⟩

theorem flockEnds_fits (base : InOffT start) (fits : fl.lLen = 0 ∨ fl.lLen > 0 ∧ start + fl.lLen < 2 ^ 63 ∨
    fl.lLen < 0 ∧ -2 ^ 63 ≤ start - 1 ∧ -2 ^ 63 ≤ start + fl.lLen) : flockEnds fl start = .ok (endsWords fl start) := by
  obtain ⟨low,high⟩ := base
  unfold flockEnds endsWords
  rcases Int.lt_trichotomy fl.lLen 0 with neg | zero | pos
  · have before : InOffT (start - 1) := ⟨by omega,by omega⟩
    have first : InOffT (start + fl.lLen) := ⟨by omega,by omega⟩
    have nonzero : ¬fl.lLen = 0 := by omega
    have back : ¬fl.lLen > 0 := by omega
    rw [if_neg nonzero,if_neg nonzero,if_neg back,if_neg back,offT_in before,offT_in first,wrapOff_id before,wrapOff_id first]
    rfl
  · rw [if_pos zero,if_pos zero]
  have past : InOffT (start + fl.lLen) := ⟨by omega,by omega⟩
  have last : InOffT (start + fl.lLen - 1) := ⟨by omega,by omega⟩
  have nonzero : ¬fl.lLen = 0 := by omega
  rw [if_neg nonzero,if_neg nonzero,if_pos pos,if_pos pos,offT_in past,wrapOff_id past]
  show (offT (start + fl.lLen - 1) >>= fun fin => Except.ok (start,fin)) = _
  rw [offT_in last,wrapOff_id last]
  rfl

theorem flockRange_fits (lStart : InOffT fl.lStart) (fits : SumsFit fl size) : flockRange fl size = .ok (flockWords fl size) := by
  obtain ⟨base,sums⟩ := fits
  unfold flockRange flockWords
  rw [flockStart_eq,offT_in base,startWords_eq lStart,wrapOff_id base]
  show (if fl.lWhence = .other then Except.ok none else flockEnds fl (flockBase fl size) >>= fun ends =>
    Except.ok (if ends.1 < 0 then none else some (ends.1,ends.2))) = _
  split
  · rfl
  next other =>
  rw [flockEnds_fits base (sums.resolve_left other)]
  rfl

theorem flockEnds_sums {ends : Int × Int} (run : flockEnds fl start = .ok ends) : fl.lLen = 0 ∨ fl.lLen > 0 ∧ start + fl.lLen < 2 ^ 63 ∨
    fl.lLen < 0 ∧ -2 ^ 63 ≤ start - 1 ∧ -2 ^ 63 ≤ start + fl.lLen := by
  unfold flockEnds at run
  split_ifs at run with zero pos
  · exact .inl zero
  · obtain ⟨past,sum,-⟩ := Outcome.bind_ok run
    exact .inr (.inl ⟨pos,(offT_iff.mp sum).1.2⟩)
  obtain ⟨before,sub,run⟩ := Outcome.bind_ok run
  obtain ⟨first,sum,-⟩ := Outcome.bind_ok run
  exact .inr (.inr ⟨by omega,(offT_iff.mp sub).1.1,(offT_iff.mp sum).1.1⟩)

theorem flockRange_sums (run : flockRange fl size = .ok r) : SumsFit fl size := by
  obtain ⟨base,sum,run⟩ := Outcome.bind_ok run
  rw [flockStart_eq] at sum
  obtain ⟨fits,rfl⟩ := offT_iff.mp sum
  refine ⟨fits,?_⟩
  split_ifs at run with other
  · exact .inl other
  obtain ⟨ends,ran,-⟩ := Outcome.bind_ok run
  exact .inr (flockEnds_sums ran)

theorem SumsFit.harmless (fits : SumsFit fl size) : WrapsHarmless fl size := by
  obtain ⟨⟨low,high⟩,sums⟩ := fits
  rcases sums with other | zero | ⟨pos,top⟩ | ⟨neg,below,bottom⟩
  · exact .inl other
  · exact .inr (.inl zero)
  · exact .inr (.inr (.inl ⟨pos,by omega⟩))
  · exact .inr (.inr (.inr ⟨neg,bottom,by omega⟩))

-- On words that wrap, the conversion is right exactly where no wrap is taken
-- for a start; where C defines every sum it is right and gives the same.
theorem advlock_range_exact (fl : Flock) (size : Int) (lStart : InOffT fl.lStart) (lLen : InOffT fl.lLen) (file : 0 ≤ size ∧ size < 2 ^ 63) :
    (Converted fl size (flockWords fl size) ↔ WrapsHarmless fl size) ∧
      ((∃ r, flockRange fl size = .ok r ∧ Converted fl size r) ↔ SumsFit fl size) ∧
      (∀ r, flockRange fl size = .ok r → r = flockWords fl size) ∧
      (∀ c t uid ap s, ap.aFl = fl → ap.size = size → flockRange fl size = .ok none → lfAdvlock c t uid ap s = .ok (.returned (some .einval),fl,s)) := by
  refine ⟨words_exact lStart lLen file,⟨fun ⟨r,run,_⟩ => flockRange_sums run,fun fits => ?_⟩,fun r run => ?_,?_⟩
  · exact ⟨_,flockRange_fits lStart fits,(words_exact lStart lLen file).mpr fits.harmless⟩
  · exact Except.ok.inj (run.symm.trans (flockRange_fits lStart (flockRange_sums run)))
  rintro c t uid ap s rfl rfl refused
  unfold lfAdvlock
  rw [refused]
  rfl

theorem advlock_range_exact_append : SumsFit ⟨-4,-6,0,.wrlck,.seekEnd⟩ 10 :=
  ((advlock_range_exact ⟨-4,-6,0,.wrlck,.seekEnd⟩ 10 (by decide) (by decide) (by decide)).2.1).mp
    ⟨some (0,5),by decide,converted_some.mpr ⟨by decide,(requested_neg (by decide)).mpr ⟨rfl,rfl⟩⟩⟩

-- SEEK_SET at the last offset of an off_t, for two bytes.
theorem advlock_range_negative : ¬Converted ⟨2 ^ 63 - 1,2,0,.wrlck,.seekSet⟩ 0 (flockWords ⟨2 ^ 63 - 1,2,0,.wrlck,.seekSet⟩ 0) ∧
    flockWords ⟨2 ^ 63 - 1,2,0,.wrlck,.seekSet⟩ 0 = some (2 ^ 63 - 1,-2 ^ 63) := by
  have words : flockWords ⟨2 ^ 63 - 1,2,0,.wrlck,.seekSet⟩ 0 = some (2 ^ 63 - 1,-2 ^ 63) := by decide
  refine ⟨?_,words⟩
  intro right
  obtain ⟨_,_,wrong⟩ := right _ _ rfl
  exact absurd wrong (by decide)
end NetbsdAvr32.Lockf
