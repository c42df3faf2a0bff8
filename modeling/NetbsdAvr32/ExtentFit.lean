import NetbsdAvr32.ExtentGaps

-- When extent_alloc_subregion1 finds a place if there is one, the first with
-- EX_FAST and the best fit without.
namespace NetbsdAvr32.Extent
open Nat Best
variable {s s' : State} {a : Sub} {last behind : List Region} {r rp q : Region} {c x y : Nat}

section choosing
variable {fast : Bool} {best : Best} {l : List Offer} {place : Cursor}

theorem choose_none (none : choose fast best l = none) : l = [] := by
  induction l generalizing best with
  | nil => rfl
  | cons g gs ih =>
    rw [choose] at none
    split_ifs at none with found
    obtain rfl := ih none
    have slow : fast = false := by simpa using fun on => found (.inl on)
    have chosen : (best.offer g.ovh g.start g.last).bestovh ≠ 0 := by
      unfold offer
      split_ifs with better
      · exact fun zero => found (.inr zero)
      · exact fun zero => better (.inl zero)
    rw [choose,settle,if_pos ⟨slow,chosen⟩] at none
    cases none

def Chosen (l : List Offer) (g : Offer) : Prop :=
  ∃ front rest, l = front ++ g :: rest ∧ (∀ h ∈ front, g.ovh < h.ovh) ∧ ∀ h ∈ rest, g.ovh ≤ h.ovh

theorem choose_slow (found : choose false best l = some (x,place)) :
    (x = best.beststart ∧ best.bestovh ≠ 0 ∧ ∀ h ∈ l, best.bestovh ≤ h.ovh) ∨
      ∃ g, x = g.start ∧ (best.bestovh = 0 ∨ g.ovh < best.bestovh) ∧ Chosen l g := by
  induction l generalizing best with
  | nil =>
    rw [choose,settle] at found
    split_ifs at found with kept
    cases found
    exact .inl ⟨rfl,kept.2,fun _ none => absurd none List.not_mem_nil⟩
  | cons g gs ih =>
    rw [choose] at found
    split at found
    · next exactly =>
      cases found
      have zero : g.ovh = 0 := exactly.resolve_left (by decide)
      refine .inr ⟨g,rfl,?_,⟨[],gs,rfl,fun _ none => absurd none List.not_mem_nil,fun h _ => zero ▸ zero_le _⟩⟩
      omega
    next exactly =>
    have more : g.ovh ≠ 0 := fun zero => exactly (.inr zero)
    unfold offer at found
    split at found
    · next better =>
      rcases ih found with ⟨rfl,_,least⟩ | ⟨h,rfl,less,⟨front,rest,rfl,lower,least⟩⟩
      · exact .inr ⟨g,rfl,better,⟨[],gs,rfl,fun _ none => absurd none List.not_mem_nil,least⟩⟩
      have less : h.ovh < g.ovh := less.resolve_left more
      exact .inr ⟨h,rfl,by omega,⟨g :: front,rest,rfl,List.forall_mem_cons.mpr ⟨less,lower⟩,least⟩⟩
    rcases ih found with ⟨rfl,some,least⟩ | ⟨h,rfl,less,⟨front,rest,rfl,lower,least⟩⟩
    · exact .inl ⟨rfl,some,List.forall_mem_cons.mpr ⟨by omega,least⟩⟩
    · exact .inr ⟨h,rfl,less,⟨g :: front,rest,rfl,List.forall_mem_cons.mpr ⟨by omega,lower⟩,least⟩⟩
end choosing

def Sub.first (a : Sub) : Nat := EXTENT_ALIGN a.substart a.alignment a.skew

def searched (s : State) (a : Sub) : List Offer :=
  offers s a (skipBefore a.first [] s.exRegions).1 (skipBefore a.first [] s.exRegions).2 (relocate a a.first (skipBefore a.first [] s.exRegions).1)

def WrapsAfter (s : State) (a : Sub) : Prop :=
  ∃ r ∈ s.exRegions, r.erStart < a.first ∧ a.first ≤ r.erEnd ∧ EXTENT_ALIGN (word (r.erEnd + 1)) a.alignment a.skew ≤ r.erEnd

section search
variable (asked : Asked s a)
include asked

theorem findGap_choose : findGap s a a.first = choose a.flags.fast initial (searched s a) := by
  have fits : relocate a a.first (skipBefore a.first [] s.exRegions).1 < 2 ^ 32 := by
    unfold relocate
    split
    · exact align_lt ..
    split_ifs
    · exact align_lt ..
    · exact align_lt ..
  have small : ∀ r ∈ (skipBefore a.first [] s.exRegions).2, r.erStart < 2 ^ 32 := by
    obtain ⟨split,-,-⟩ := skipBefore_split (show skipBefore a.first [] s.exRegions = (_,_) from rfl)
    intro r mem
    have here : r ∈ s.exRegions := by
      rw [List.reverse_nil,List.nil_append] at split
      exact split ▸ List.mem_append_right _ mem
    exact lt_of_le_of_lt (asked.tidy.order r here) (asked.small r here)
  exact scanGaps_choose asked _ _ _ _ fits small

theorem rounds_iff (inside : s.exStart ≤ a.first) : RoundsUp s a ↔ a.substart ≤ a.first ∧ ¬WrapsAfter s a := by
  constructor
  · rintro ⟨first,later⟩
    refine ⟨first.resolve_right (not_lt.mpr inside),fun ⟨r,mem,starts,covers,wraps⟩ => ?_⟩
    exact absurd (later r mem starts covers) (not_lt.mpr wraps)
  rintro ⟨first,stays⟩
  exact ⟨.inl first,fun r mem starts covers => Nat.lt_of_not_le fun wraps => stays ⟨r,mem,starts,covers,wraps⟩⟩

theorem passed_before (split : last.reverse ++ behind = s.exRegions) (starts : ∀ q ∈ last, q.erStart < c) :
    last = [] ∨ ∃ near rest, last = near :: rest ∧ near ∈ s.exRegions ∧ near.erStart < c ∧ ∀ q ∈ rest, q.erEnd < near.erStart := by
  cases last with
  | nil => exact .inl rfl
  | cons near rest =>
    have here : near ∈ s.exRegions := split ▸ List.mem_append_left _ (List.mem_reverse.mpr (List.mem_cons_self ..))
    have tidy : Tidy (rest.reverse ++ near :: behind) := by
      rw [← reverse_split,split]
      exact asked.tidy
    exact .inr ⟨near,rest,rfl,here,starts near (List.mem_cons_self ..),fun q mem => tidy.head_lt q (List.mem_reverse.mpr mem)⟩

theorem up_least (low : x ≤ y) (spot : y % a.alignment = a.skew) (short : y < 2 ^ 32) :
    x ≤ EXTENT_ALIGN x a.alignment a.skew ∧ EXTENT_ALIGN x a.alignment a.skew ≤ y := by
  obtain ⟨k,small,power⟩ := asked.power
  have off := asked.off
  have under : 2 ^ k < 2 ^ 32 := Nat.pow_lt_pow_right (by decide) small
  obtain ⟨m,up,same⟩ := align_up a.skew small (lt_of_le_of_lt low short) (by omega)
  rw [← power] at up same
  have least := up.least (by rw [spot,mod_eq_of_lt off]) low
  rw [same,word_small (lt_of_le_of_lt least short)]
  exact ⟨up.low,least⟩

theorem searched_least (rounds : RoundsUp s a) (inside : s.exStart ≤ a.first) : ∃ last behind c, Least s a last behind c ∧
    searched s a = offers s a last behind c ∧ ∀ x, Place s a x → c ≤ x := by
  obtain ⟨first,stays⟩ := (rounds_iff asked inside).mp rounds
  obtain ⟨fits,spot⟩ := asked.unit.start_spot
  obtain ⟨⟨last,behind⟩,found⟩ : ∃ c, skipBefore a.first [] s.exRegions = c := ⟨_,rfl⟩
  unfold searched
  rw [found]
  obtain ⟨split,lower,ahead⟩ := skipBefore_split found
  have starts := lower (fun _ none => absurd none List.not_mem_nil)
  rw [List.reverse_nil,List.nil_append] at split
  have tidy : Tidy (last.reverse ++ behind) := split ▸ asked.tidy
  have later : ∀ r ∈ behind, a.substart ≤ r.erStart := by
    intro r mem
    cases behind with
    | nil => cases mem
    | cons q rest =>
      have near := ahead q rest rfl
      rcases List.mem_cons.mp mem with rfl | more
      · omega
      have := tidy.tail_lt r more
      have := tidy.member
      omega
  have least : ∀ x, x % a.alignment = a.skew → a.substart ≤ x → a.first ≤ x := by
    intro x spot low
    by_contra before
    exact absurd (up_least asked low spot (Nat.lt_trans (Nat.lt_of_not_le before) fits)).2 before
  have beyond : ∀ x, Place s a x → ∀ q ∈ last, q.erEnd < x := by
    intro x place q mem
    have here : q ∈ s.exRegions := split ▸ List.mem_append_left _ (List.mem_reverse.mpr mem)
    have := least x (place.spot asked) place.low
    have := starts q mem
    exact (place.free q here).resolve_right fun ahead => by omega
  suffices held : Least s a last behind (relocate a a.first last) from
    ⟨last,behind,_,held,rfl,fun x place => held.least x (place.spot asked) place.low (beyond x place)⟩
  rcases passed_before asked split starts with rfl | ⟨near,rest,rfl,here,begins,earlier⟩
  · exact ⟨split.symm,spot,fits,first,fun _ none => absurd none List.not_mem_nil,fun x spot low _ => least x spot low,later⟩
  show Least s a (near :: rest) behind (if near.erEnd ≥ a.first then EXTENT_ALIGN (word (near.erEnd + 1)) a.alignment a.skew else a.first)
  split_ifs with covers
  · have passes : near.erEnd < EXTENT_ALIGN (word (near.erEnd + 1)) a.alignment a.skew :=
      Nat.lt_of_not_le fun wraps => stays ⟨near,here,begins,covers,wraps⟩
    obtain ⟨excess,short,spot'⟩ := after_region asked.unit (asked.small near here) (le_of_lt passes)
    refine ⟨split.symm,spot',short,?_,List.forall_mem_cons.mpr ⟨excess,fun q mem => ?_⟩,fun x spot _ beyond => ?_,later⟩
    · omega
    · have := earlier q mem
      omega
    by_contra before
    have past := beyond near (List.mem_cons_self ..)
    have small : x < 2 ^ 32 := Nat.lt_trans (Nat.lt_of_not_le before) short
    have kept : word (near.erEnd + 1) = near.erEnd + 1 := word_small (by omega)
    rw [kept] at before
    exact absurd (up_least asked past spot small).2 before
  refine ⟨split.symm,spot,fits,first,List.forall_mem_cons.mpr ⟨by omega,fun q mem => ?_⟩,fun x spot low _ => least x spot low,later⟩
  have := earlier q mem
  omega

theorem Place.rounds (place : Place s a x) : RoundsUp s a := by
  have spot := place.spot asked
  have short := place.lt asked
  obtain ⟨above,under⟩ := up_least asked place.low spot short
  refine ⟨.inl above,fun q mem starts covers => ?_⟩
  have past : q.erEnd < x := (place.free q mem).resolve_right fun ahead => by omega
  rw [word_small (lt_of_le_of_lt past short)]
  exact (up_least asked past spot short).1

theorem wraps_skew (small : r.erEnd < 2 ^ 32) (wraps : EXTENT_ALIGN (word (r.erEnd + 1)) a.alignment a.skew ≤ r.erEnd) :
    EXTENT_ALIGN (word (r.erEnd + 1)) a.alignment a.skew = a.skew := by
  obtain ⟨k,low,power⟩ := asked.power
  have off := asked.off
  have under : 2 ^ k < 2 ^ 32 := Nat.pow_lt_pow_right (by decide) low
  obtain ⟨m,turn⟩ : ∃ m, 2 ^ 32 = a.alignment * m := ⟨2 ^ (32 - k),by rw [power,← Nat.pow_add,Nat.add_sub_cancel' (Nat.le_of_lt low)]⟩
  obtain ⟨y,⟨spot,above,near⟩,same⟩ := align_up a.skew low (word_lt (r.erEnd + 1)) (by omega)
  rw [← power] at spot near same
  rw [same] at wraps ⊢
  -- Less than the alignment is left of what wrapped.
  have rest : word y < a.alignment := by
    unfold word at *
    omega
  rw [← mod_eq_of_lt rest]
  unfold word
  rw [mod_mod_of_dvd _ ⟨m,turn⟩,spot,mod_eq_of_lt off]

theorem wraps_behind (small : q.erEnd < 2 ^ 32) (more : r.erEnd < q.erEnd) (wraps : EXTENT_ALIGN (word (r.erEnd + 1)) a.alignment a.skew ≤ r.erEnd) :
    EXTENT_ALIGN (word (q.erEnd + 1)) a.alignment a.skew < q.erEnd := by
  by_contra stays
  obtain ⟨excess,short,spot⟩ := after_region asked.unit small (Nat.le_of_not_lt stays)
  rw [word_small (x := r.erEnd + 1) (by omega)] at wraps
  have := (up_least asked (x := r.erEnd + 1) (by omega) spot short).1
  omega
end search

structure FitsLow (s : State) (a : Sub) : Prop where
  ahead : ∀ q ∈ s.exRegions, a.first ≤ q.erStart → q.erStart ≤ a.subend → a.skew + a.size ≤ q.erStart
  high : (∀ q ∈ s.exRegions, a.first ≤ q.erStart → a.subend < q.erStart) → a.skew + a.size ≤ a.subend + 1

theorem finalOffers_none {exend : Nat} {place : Cursor} (some : 1 ≤ a.size) : finalOffers a place exend c ≠ [] ↔ c + a.size ≤ a.subend + 1 := by
  unfold finalOffers
  split_ifs with enough
  · simp only [ne_eq,List.cons_ne_nil,not_false_eq_true,true_iff]
    omega
  simp only [ne_eq,not_true_eq_false,false_iff]
  omega

theorem searched_wraps (asked : Asked s a) (wraps : WrapsAfter s a) : searched s a ≠ [] ↔ FitsLow s a := by
  obtain ⟨r,mem,begins,covers,wraps⟩ := wraps
  obtain ⟨⟨last,behind⟩,found⟩ : ∃ c, skipBefore a.first [] s.exRegions = c := ⟨_,rfl⟩
  unfold searched
  rw [found]
  obtain ⟨split,lower,ahead⟩ := skipBefore_split found
  have starts := lower (fun _ none => absurd none List.not_mem_nil)
  rw [List.reverse_nil,List.nil_append] at split
  have tidy : Tidy (last.reverse ++ behind) := split ▸ asked.tidy
  have members : ∀ q, q ∈ s.exRegions ↔ q ∈ last ∨ q ∈ behind := fun q => by
    rw [← split,List.mem_append,List.mem_reverse]
  have first : ∀ q ∈ behind, a.first ≤ q.erStart := by
    intro q mem
    cases behind with
    | nil => cases mem
    | cons rp rest =>
      have near := ahead rp rest rfl
      rcases List.mem_cons.mp mem with rfl | more
      · exact near
      have := tidy.tail_lt q more
      have := tidy.member
      omega
  -- The region that holds the first candidate is the last one passed.
  obtain ⟨rest,rfl⟩ : ∃ rest, last = r :: rest := by
    rcases passed_before asked split starts with rfl | ⟨near,rest,rfl,here,_,earlier⟩
    · have := first r (((members r).mp mem).resolve_left List.not_mem_nil)
      omega
    rcases (members r).mp mem with passed | later
    · rcases List.mem_cons.mp passed with rfl | more
      · exact ⟨rest,rfl⟩
      have := earlier r more
      omega
    have := first r later
    omega
  have tail : Tidy (rest.reverse ++ r :: behind) := by
    rw [← reverse_split]
    exact tidy
  have passed : ∀ q ∈ r :: rest, ¬ a.first ≤ q.erStart := fun q mem => not_le.mpr (starts q mem)
  show offers s a (r :: rest) behind (if r.erEnd ≥ a.first then EXTENT_ALIGN (word (r.erEnd + 1)) a.alignment a.skew else a.first) ≠ [] ↔ _
  rw [if_pos covers,wraps_skew asked (asked.small r mem) wraps]
  have low : FitsLow s a ↔ (∀ q ∈ behind, q.erStart ≤ a.subend → a.skew + a.size ≤ q.erStart) ∧
      ((∀ q ∈ behind, a.subend < q.erStart) → a.skew + a.size ≤ a.subend + 1) := by
    constructor
    · intro fits
      refine ⟨fun q mem => fits.ahead q ((members q).mpr (.inr mem)) (first q mem),fun past => fits.high fun q mem on => ?_⟩
      exact past q (((members q).mp mem).resolve_left fun early => passed q early on)
    intro ⟨inner,outer⟩
    refine ⟨fun q mem on => inner q (((members q).mp mem).resolve_left fun early => passed q early on),fun past => outer fun q mem => ?_⟩
    exact past q ((members q).mpr (.inr mem)) (first q mem)
  rw [low]
  cases behind with
  | nil =>
    rw [offers,finalOffers_none asked.some]
    simp only [List.not_mem_nil,false_imp_iff,implies_true,forall_const,true_and]
  | cons rp further =>
    have order : rp.erStart ≤ rp.erEnd := tidy.member
    have beyond : r.erEnd < rp.erStart := tail.tail_lt rp (List.mem_cons_self ..)
    have small := asked.small rp ((members rp).mpr (.inr (List.mem_cons_self ..)))
    have later : ∀ q ∈ further, rp.erStart < q.erStart := fun q mem => by
      have := tidy.tail_lt q mem
      omega
    rw [offers]
    split
    · next past =>
      rw [finalOffers_none asked.some]
      have all : ∀ q ∈ rp :: further, a.subend < q.erStart := List.forall_mem_cons.mpr ⟨past,fun q mem => lt_trans past (later q mem)⟩
      exact ⟨fun enough => ⟨fun q mem le => absurd (all q mem) (not_lt.mpr le),fun _ => enough⟩,fun both => both.2 all⟩
    next past =>
    rw [if_pos (wraps_behind asked small (by omega) wraps),List.append_nil]
    split_ifs with enough
    · simp only [ne_eq,List.cons_ne_nil,not_false_eq_true,true_iff]
      refine ⟨List.forall_mem_cons.mpr ⟨fun _ => enough,fun q mem _ => ?_⟩,fun all => absurd (all rp (List.mem_cons_self ..)) past⟩
      have := later q mem
      omega
    simp only [ne_eq,not_true_eq_false,false_iff]
    exact fun both => enough (both.1 rp (List.mem_cons_self ..) (Nat.le_of_not_lt past))

-- What the search finds, with and without EX_FAST.
variable {r : Nat} {diagnostic descriptor : Bool}

structure Met (s : State) (a : Sub) (l : List Offer) : Prop where
  each : ∀ g ∈ l, Measured s a 0 g
  sorted : l.Pairwise fun g h => gapEnd s g.start < h.start
  complete : ∀ x, Place s a x → ∃ g gs, l = g :: gs ∧ g.start ≤ x ∧ ∃ h ∈ l, h.start ≤ x ∧ gapEnd s h.start = gapEnd s x

theorem searched_met (asked : Asked s a) (rounds : RoundsUp s a) (inside : s.exStart ≤ a.first) : Met s a (searched s a) := by
  obtain ⟨last,behind,c,held,same,low⟩ := searched_least asked rounds inside
  obtain ⟨each,sorted⟩ := offers_measured asked behind last c held
  rw [same]
  refine ⟨fun g mem => (each g mem).weaken (zero_le _),sorted,fun x place => ?_⟩
  obtain ⟨g,gs,found,first,h⟩ := offers_complete asked behind last c held x place (low x place)
  exact ⟨g,gs,found,first,found ▸ h⟩

theorem Met.some_iff {l : List Offer} (met : Met s a l) : l ≠ [] ↔ ∃ x, Place s a x := by
  constructor
  · intro some
    obtain ⟨g,gs,rfl⟩ := List.exists_cons_of_ne_nil some
    exact ⟨g.start,(met.each g (List.mem_cons_self ..)).first.place⟩
  rintro ⟨x,place⟩
  obtain ⟨g,gs,rfl,-⟩ := met.complete x place
  exact List.cons_ne_nil g gs

-- The rounded start wraps below the subregion, or a region takes it past the
-- addresses, and the request fits where the search then goes on.
def Misplaces (s : State) (a : Sub) : Prop :=
  s.exStart ≤ a.first ∧ (WrapsAfter s a ∧ FitsLow s a ∨ ¬WrapsAfter s a ∧ a.first < a.substart ∧ ∃ x, Place s {a with substart := a.first} x)

theorem offers_substart (low : Nat) (behind last : List Region) (c : Nat) : offers s {a with substart := low} last behind c = offers s a last behind c := by
  induction behind generalizing last c with
  | nil => rfl
  | cons rp rest ih =>
    unfold offers
    rw [ih]
    rfl

theorem searched_substart {low : Nat} (same : Sub.first {a with substart := low} = a.first) : searched s {a with substart := low} = searched s a := by
  unfold searched
  rw [same,offers_substart]
  rfl

section wrapped
variable (asked : Asked s a)

include asked

theorem first_again : Sub.first {a with substart := a.first} = a.first := by
  have fits : a.first < 2 ^ 32 := align_lt ..
  have spot : a.first % a.alignment = a.skew := asked.unit.start_spot.2
  have both := up_least asked (le_refl a.first) spot fits
  exact le_antisymm both.2 both.1

theorem asked_first (inside : s.exStart ≤ a.first) (wraps : a.first < a.substart) : Asked s {a with substart := a.first} :=
  {asked with low := inside,order := le_trans (le_of_lt wraps) asked.order}

theorem searched_first : searched s {a with substart := a.first} = searched s a := searched_substart (first_again asked)

theorem searched_some (inside : s.exStart ≤ a.first) : searched s a ≠ [] ↔ (∃ x, Place s a x) ∨ Misplaces s a := by
  by_cases wraps : WrapsAfter s a
  · have none : ¬∃ x, Place s a x := fun ⟨x,place⟩ => ((rounds_iff asked inside).mp (place.rounds asked)).2 wraps
    rw [searched_wraps asked wraps,or_iff_right none]
    exact ⟨fun low => ⟨inside,.inl ⟨wraps,low⟩⟩,fun ⟨_,or⟩ => or.elim And.right fun other => absurd wraps other.1⟩
  rcases lt_or_ge a.first a.substart with below | above
  · have none : ¬∃ x, Place s a x := fun ⟨x,place⟩ =>
      not_le.mpr below ((rounds_iff asked inside).mp (place.rounds asked)).1
    have again := asked_first asked inside below
    have rounds : RoundsUp s {a with substart := a.first} := by
      refine (rounds_iff again (by rwa [first_again asked])).mpr ⟨le_of_eq (first_again asked).symm,fun ⟨r,mem,wrap⟩ => wraps ⟨r,mem,?_⟩⟩
      rwa [first_again asked] at wrap
    have met := searched_met again rounds (by rwa [first_again asked])
    rw [← searched_first asked,met.some_iff,or_iff_right none]
    exact ⟨fun place => ⟨inside,.inr ⟨wraps,below,place⟩⟩,fun ⟨_,or⟩ => or.elim (fun other => absurd other.1 wraps) fun other => other.2.2⟩
  have met := searched_met asked ((rounds_iff asked inside).mpr ⟨above,wraps⟩) inside
  have none : ¬Misplaces s a := fun ⟨_,or⟩ => or.elim (fun other => wraps other.1) fun other => not_le.mpr other.2.1 above
  rw [met.some_iff,or_iff_left none]

theorem Misplaces.no_place (low : Misplaces s a) : ¬Place s a x := by
  intro place
  obtain ⟨first,stays⟩ := (rounds_iff asked low.1).mp (place.rounds asked)
  rcases low.2 with ⟨wraps,_⟩ | ⟨_,below,_⟩
  · exact stays wraps
  · exact not_le.mpr below first
end wrapped

def Accepted (diagnostic descriptor : Bool) (a : Sub) : Prop :=
  descriptor = true ∧ (diagnostic = true → a.size ≤ a.subend - a.substart + 1)

theorem checkArguments_none (asked : Asked s a) : checkArguments s a = none ↔ a.size ≤ a.subend - a.substart + 1 := by
  obtain ⟨k,_,power⟩ := asked.power
  have some := asked.some
  have low := asked.low
  have high := asked.high
  have order := asked.order
  have positive := Nat.two_pow_pos k
  unfold checkArguments
  rw [if_neg (by omega),less_eq some asked.short,less_eq order (lt_of_le_of_lt high asked.top)]
  split_ifs with bad zero crosses
  · simp only [false_iff]
    omega
  · omega
  · exact absurd asked.plain crosses.1
  simp only [true_iff]
  omega

theorem answered_iff (asked : Asked s a) : (∃ s', Answered diagnostic descriptor a s r s') ↔
    Accepted diagnostic descriptor a ∧ s.exStart ≤ a.first ∧ ∃ place, choose a.flags.fast initial (searched s a) = some (r,place) := by
  have fits := checkArguments_none asked
  rw [← findGap_choose asked]
  constructor
  · rintro ⟨s',answered⟩
    obtain ⟨inside,c,found,-⟩ := answered.found
    refine ⟨?_,inside,c,found⟩
    unfold Answered extentAllocSubregion1 at answered
    cases descriptor with
    | false =>
      split at answered
      · cases answered
      · cases answered
    | true =>
      refine ⟨rfl,?_⟩
      rintro rfl
      cases check : checkArguments s a with
      | none => exact fits.mp check
      | some text =>
        rw [if_pos rfl,check] at answered
        cases answered
  rintro ⟨⟨rfl,room⟩,inside,place,found⟩
  have check : (if diagnostic then checkArguments s a else none) = none := by
    cases diagnostic with
    | false => rfl
    | true => exact fits.mpr (room rfl)
  refine ⟨{s with exRegions := extentInsertAndOptimize s.exNoCoalesce r a.size place.1 place.2},?_⟩
  unfold Answered extentAllocSubregion1
  rw [check]
  unfold Sub.first at inside found
  rw [if_neg (by decide),if_neg (not_lt.mpr inside),found]

theorem again_none {t : State} {place : Option Nat} (refused : extentAllocSubregion1 diagnostic descriptor a s = (.returned (some .eagain),place,t)) :
    s.exStart ≤ a.first ∧ findGap s a a.first = none := by
  unfold extentAllocSubregion1 at refused
  split at refused
  · cases refused
  split at refused
  · cases refused
  by_cases under : EXTENT_ALIGN a.substart a.alignment a.skew < s.exStart
  · rw [if_pos under] at refused
    split_ifs at refused <;> cases refused
  rw [if_neg under] at refused
  refine ⟨Nat.le_of_not_lt under,?_⟩
  unfold Sub.first
  cases found : findGap s a (EXTENT_ALIGN a.substart a.alignment a.skew) with
  | none => rfl
  | some place =>
    rw [found] at refused
    cases refused

-- EAGAIN only without a place, and with EX_FAST the least place.
def Complete (diagnostic descriptor : Bool) (a : Sub) (s : State) : Prop :=
  (∀ place t, extentAllocSubregion1 diagnostic descriptor a s = (.returned (some .eagain),place,t) → ∀ x, ¬Place s a x) ∧
    (a.flags.fast = true → ∀ r s', Answered diagnostic descriptor a s r s' → Place s a r ∧ ∀ x, Place s a x → r ≤ x)

theorem again_no_place (asked : Asked s a) {t : State} {place : Option Nat}
    (refused : extentAllocSubregion1 diagnostic descriptor a s = (.returned (some .eagain),place,t)) : ¬Place s a x := by
  obtain ⟨inside,none⟩ := again_none refused
  rw [findGap_choose asked] at none
  intro held
  exact (searched_some asked inside).mpr (.inl ⟨x,held⟩) (choose_none none)

-- EAGAIN is never wrong; what goes wrong is a place that is none.
theorem subregion_complete_exact (diagnostic descriptor : Bool) (asked : Asked s a) :
    Complete diagnostic descriptor a s ↔ (a.flags.fast = true → Accepted diagnostic descriptor a → ¬Misplaces s a) := by
  constructor
  · rintro ⟨-,least⟩ fast accepted low
    obtain ⟨g,gs,found⟩ := List.exists_cons_of_ne_nil ((searched_some asked low.1).mpr (.inr low))
    obtain ⟨s',answered⟩ := (answered_iff (r := g.start) asked).mpr ⟨accepted,low.1,g.last,by rw [found,choose,if_pos (.inl fast)]⟩
    exact low.no_place asked (least fast g.start s' answered).1
  intro stays
  refine ⟨fun place t refused x => again_no_place asked refused,fun fast r s' answered => ?_⟩
  obtain ⟨accepted,inside,place,found⟩ := (answered_iff asked).mp ⟨s',answered⟩
  have some : searched s a ≠ [] := by
    intro none
    rw [none,choose,settle,if_neg (by simp [fast])] at found
    cases found
  obtain ⟨x,held⟩ := ((searched_some asked inside).mp some).resolve_right (stays fast accepted)
  have met := searched_met asked (held.rounds asked) inside
  obtain ⟨g,gs,list⟩ := List.exists_cons_of_ne_nil some
  rw [list,choose,if_pos (.inl fast)] at found
  cases found
  refine ⟨(met.each g (list ▸ List.mem_cons_self ..)).first.place,fun y other => ?_⟩
  obtain ⟨h,hs,list',low,-⟩ := met.complete y other
  obtain ⟨rfl,-⟩ := List.cons.inj (list.symm.trans list')
  exact low

theorem Given.asked (given : Given s a) (plain : a.boundary = 0) : Asked s a :=
  ⟨given.tidy,given.small,given.top,given.low,given.high,given.order,given.some,given.short,given.power,given.off,plain⟩

theorem subregion_complete_exact_small : Complete true true ⟨0,31,4,4,1,0,⟨true,false,false⟩⟩ (holding 31 [⟨0,4⟩]) ↔
    (true = true → Accepted true true ⟨0,31,4,4,1,0,⟨true,false,false⟩⟩ → ¬Misplaces (holding 31 [⟨0,4⟩]) ⟨0,31,4,4,1,0,⟨true,false,false⟩⟩) := by
  have given : Given (holding 31 [⟨0,4⟩]) ⟨0,31,4,4,1,0,⟨true,false,false⟩⟩ :=
    holding_given (by decide) (by decide) (by decide) (by decide) (by decide) (by decide) (by decide) (by decide) ⟨2,by decide,rfl⟩ (by decide)
      (.inl rfl)
  exact subregion_complete_exact true true (given.asked rfl)

-- The last page is taken and the subregion starts inside it.
theorem subregion_incomplete : Asked (holding 0xffffffff [⟨0xfffff000,0xffffffff⟩]) ⟨0xfffff001,0xffffffff,1,1,0,0,⟨true,false,false⟩⟩ ∧
    ¬Complete true true ⟨0xfffff001,0xffffffff,1,1,0,0,⟨true,false,false⟩⟩ (holding 0xffffffff [⟨0xfffff000,0xffffffff⟩]) := by
  have given : Given (holding 0xffffffff [⟨0xfffff000,0xffffffff⟩]) ⟨0xfffff001,0xffffffff,1,1,0,0,⟨true,false,false⟩⟩ :=
    holding_given (by decide) (by decide) (by decide) (by decide) (by decide) (by decide) (by decide) (by decide) ⟨0,by decide,rfl⟩
      (by decide) (.inl rfl)
  refine ⟨given.asked rfl,fun complete => ?_⟩
  have place := (complete.2 rfl 0 _ rfl).1
  exact absurd place.low (by decide)

-- The place without EX_FAST is the first of its gap, and no gap leaves less.
def BestFit (diagnostic descriptor : Bool) (a : Sub) (s : State) : Prop :=
  ∀ r s', Answered diagnostic descriptor a s r s' → First s a r ∧ ∀ x, First s a x → leftover s a r ≤ leftover s a x

-- The gap that goes past the subregion to a region leaves one unit less than
-- the best of the others.
def Tie (s : State) (a : Sub) : Prop :=
  ∃ x, First s a x ∧ AtRegion s a x ∧ (∃ y, First s a y ∧ ¬AtRegion s a y ∧ leftover s a y = leftover s a x + 1) ∧
    ∀ y, First s a y → ¬AtRegion s a y → leftover s a x < leftover s a y

section best
variable {l : List Offer} {g h : Offer} (met : Met s a l)

include met

theorem Met.offered (first : First s a x) : ∃ h ∈ l, h.start = x := by
  obtain ⟨-,-,-,-,h,mem,low,same⟩ := met.complete x first.place
  exact ⟨h,mem,le_antisymm low (first.least h.start (met.each h mem).first.place same)⟩

theorem Met.last_offer (some : 1 ≤ a.size) (front rest : List Offer) (split : l = front ++ g :: rest) (past : AtRegion s a g.start) : rest = [] := by
  cases rest with
  | nil => rfl
  | cons h tail =>
    have sorted := (List.pairwise_append.mp (split ▸ met.sorted)).2.1
    have ahead := (List.pairwise_cons.mp sorted).1 h (List.mem_cons_self ..)
    have high := (met.each h (split ▸ by simp)).first.place.high
    have := past.1
    omega

theorem Met.best (some : 1 ≤ a.size) (chosen : Chosen l g) :
    (First s a g.start ∧ ∀ x, First s a x → leftover s a g.start ≤ leftover s a x) ↔ ¬Tie s a := by
  obtain ⟨front,rest,split,lower,least⟩ := chosen
  have here : g ∈ l := split ▸ by simp
  have all : ∀ h ∈ l, g.ovh ≤ h.ovh := by
    intro h mem
    rw [split,List.mem_append,List.mem_cons] at mem
    rcases mem with before | rfl | behind
    · exact le_of_lt (lower h before)
    · exact le_refl _
    · exact least h behind
  have waste := (met.each g here).ovh
  constructor
  · rintro ⟨-,best⟩ ⟨x,first,past,⟨y,other,inner,one⟩,others⟩
    by_cases closed : AtRegion s a g.start
    · obtain ⟨h,mem,rfl⟩ := met.offered first
      obtain ⟨k,mem',rfl⟩ := met.offered other
      have none : rest = [] := met.last_offer some front rest split closed
      have waste' := (met.each h mem).ovh
      have waste'' := (met.each k mem').ovh
      rw [if_pos past] at waste'
      rw [if_neg inner] at waste''
      -- Two gaps cannot both be the last, so this is the offer taken.
      have same : h = g := by
        rw [split,none,List.mem_append,List.mem_singleton] at mem
        refine mem.resolve_left fun before => ?_
        obtain ⟨left,right,rfl⟩ := List.append_of_mem before
        have after := met.last_offer some left (right ++ g :: rest) (by rw [split]; simp) past
        simp at after
      rw [split,none,List.mem_append,List.mem_singleton] at mem'
      rcases mem' with before | rfl
      · have := lower k before
        rw [← same] at this
        omega
      · exact inner closed
    · exact not_le.mpr (others g.start (met.each g here).first closed) (best x first)
  intro free
  refine ⟨(met.each g here).first,fun x first => ?_⟩
  by_contra less
  obtain ⟨h,mem,rfl⟩ := met.offered first
  have cost := all h mem
  have waste' := (met.each h mem).ovh
  by_cases past : AtRegion s a h.start
  · by_cases closed : AtRegion s a g.start
    · rw [if_pos closed] at waste
      rw [if_pos past] at waste'
      omega
    rw [if_pos past] at waste'
    refine free ⟨h.start,first,past,⟨g.start,(met.each g here).first,closed,by omega⟩,fun y other inner => ?_⟩
    obtain ⟨k,mem'',rfl⟩ := met.offered other
    have waste'' := (met.each k mem'').ovh
    rw [if_neg inner] at waste''
    have := all k mem''
    omega
  rw [if_neg past] at waste'
  omega
end best

theorem Place.inside (place : Place s a x) (asked : Asked s a) : s.exStart ≤ a.first :=
  le_trans asked.low (up_least asked place.low (place.spot asked) (place.lt asked)).1

theorem slow_chosen {l : List Offer} {place : Cursor} (found : choose false initial l = some (r,place)) : ∃ g, r = g.start ∧ Chosen l g := by
  rcases choose_slow found with ⟨-,kept,-⟩ | ⟨g,same,-,chosen⟩
  · exact absurd rfl kept
  · exact ⟨g,same,chosen⟩

theorem subregion_best_exact (diagnostic descriptor : Bool) (asked : Asked s a) (slow : a.flags.fast = false) :
    BestFit diagnostic descriptor a s ↔ (Accepted diagnostic descriptor a → ¬Misplaces s a ∧ ¬Tie s a) := by
  constructor
  · intro best accepted
    have answers (inside : s.exStart ≤ a.first) (gaps : searched s a ≠ []) : ∃ r place, choose false initial (searched s a) = some (r,place) ∧
        First s a r ∧ ∀ x, First s a x → leftover s a r ≤ leftover s a x := by
      obtain ⟨⟨r,place⟩,found⟩ := Option.ne_none_iff_exists'.mp fun none => gaps (choose_none none)
      obtain ⟨s',answered⟩ := (answered_iff asked).mpr ⟨accepted,inside,place,by rw [slow,found]⟩
      exact ⟨r,place,found,best r s' answered⟩
    constructor
    · intro low
      obtain ⟨r,-,-,first,-⟩ := answers low.1 ((searched_some asked low.1).mpr (.inr low))
      exact low.no_place asked first.place
    intro tie
    have ⟨x,first,_⟩ := tie
    have inside := first.place.inside asked
    have met := searched_met asked (first.place.rounds asked) inside
    obtain ⟨r,place,found,good⟩ := answers inside (met.some_iff.mpr ⟨x,first.place⟩)
    obtain ⟨g,rfl,chosen⟩ := slow_chosen found
    exact (met.best asked.some chosen).mp good tie
  · intro stays r s' answered
    obtain ⟨accepted,inside,place,found⟩ := (answered_iff asked).mp ⟨s',answered⟩
    rw [slow] at found
    obtain ⟨g,rfl,chosen⟩ := slow_chosen found
    have gaps : searched s a ≠ [] := by
      obtain ⟨front,rest,split,-⟩ := chosen
      rw [split]
      simp
    obtain ⟨x,held⟩ := ((searched_some asked inside).mp gaps).resolve_right (stays accepted).1
    exact ((searched_met asked (held.rounds asked) inside).best asked.some chosen).mpr (stays accepted).2

theorem subregion_best_exact_small : BestFit true true ⟨0,31,4,4,1,0,⟨false,false,false⟩⟩ (holding 31 [⟨0,4⟩]) ↔
    (Accepted true true ⟨0,31,4,4,1,0,⟨false,false,false⟩⟩ → ¬Misplaces (holding 31 [⟨0,4⟩]) ⟨0,31,4,4,1,0,⟨false,false,false⟩⟩ ∧
      ¬Tie (holding 31 [⟨0,4⟩]) ⟨0,31,4,4,1,0,⟨false,false,false⟩⟩) := by
  have given : Given (holding 31 [⟨0,4⟩]) ⟨0,31,4,4,1,0,⟨false,false,false⟩⟩ :=
    holding_given (by decide) (by decide) (by decide) (by decide) (by decide) (by decide) (by decide) (by decide) ⟨2,by decide,rfl⟩ (by decide)
      (.inl rfl)
  exact subregion_best_exact true true (given.asked rfl) rfl

-- 3 units are free in front of [3,9] and 2 in front of [12,31]; the request for
-- one goes to the wider gap, because the other is cut off by the subregion.
theorem subregion_not_best : Asked (holding 31 [⟨3,9⟩,⟨12,31⟩]) ⟨0,10,1,1,0,0,⟨false,false,false⟩⟩ ∧
    ¬BestFit true true ⟨0,10,1,1,0,0,⟨false,false,false⟩⟩ (holding 31 [⟨3,9⟩,⟨12,31⟩]) := by
  have asked : Asked (holding 31 [⟨3,9⟩,⟨12,31⟩]) ⟨0,10,1,1,0,0,⟨false,false,false⟩⟩ :=
    ⟨⟨by decide,by decide⟩,by decide,by decide,by decide,by decide,by decide,by decide,by decide,⟨0,by decide,rfl⟩,by decide,rfl⟩
  refine ⟨asked,fun best => ?_⟩
  have first : First (holding 31 [⟨3,9⟩,⟨12,31⟩]) ⟨0,10,1,1,0,0,⟨false,false,false⟩⟩ 10 := by
    refine ⟨⟨by decide,by decide,by decide,by decide⟩,fun y place same => ?_⟩
    rcases place.free ⟨3,9⟩ (List.mem_cons_self ..) with beyond | before
    · exact beyond
    · have ends : gapEnd (holding 31 [⟨3,9⟩,⟨12,31⟩]) y ≤ 3 := gapEnd_le asked (List.mem_cons_self ..) (by dsimp only at before ⊢; omega)
      rw [same] at ends
      exact absurd ends (by decide)
  exact absurd ((best 0 _ rfl).2 10 first) (by decide)
end NetbsdAvr32.Extent
