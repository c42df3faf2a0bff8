import NetbsdAvr32.ExtentSubExact

-- extent_alloc_subregion1 without a boundary as a choice among the gaps that
-- hold the request.
namespace NetbsdAvr32.Extent
open List Nat
variable {s : State} {a : Sub} {last behind : List Region} {r rp q : Region} {c x y : Nat}

-- A gap that holds the request: where it would start, the waste as the code
-- measures it and the place in the list.
structure Offer where
  start : Nat
  ovh : Nat
  last : Cursor

def finalOffers (a : Sub) (last : Cursor) (exend newstart : Nat) : List Offer :=
  if newstart + (a.size - 1) ≤ a.subend then [⟨newstart,exend - newstart - (a.size - 1),last⟩] else []

def offers (s : State) (a : Sub) : List Region → List Region → Nat → List Offer
  | last, [], newstart => finalOffers a (last,[]) s.exEnd newstart
  | last, rp :: rest, newstart =>
    if rp.erStart > a.subend then finalOffers a (last,rp :: rest) rp.erStart newstart
    else (if newstart + a.size ≤ rp.erStart then [⟨newstart,rp.erStart - newstart - a.size,(last,rp :: rest)⟩] else []) ++
      if EXTENT_ALIGN (word (rp.erEnd + 1)) a.alignment a.skew < rp.erEnd then []
      else offers s a (rp :: last) rest (EXTENT_ALIGN (word (rp.erEnd + 1)) a.alignment a.skew)

def choose (fast : Bool) : Best → List Offer → Option (Nat × Cursor)
  | best, [] => best.settle fast
  | best, g :: gs => if fast = true ∨ g.ovh = 0 then some (g.start,g.last) else choose fast (best.offer g.ovh g.start g.last) gs

-- A call without a boundary; the size may be more than the subregion has.
structure Asked (s : State) (a : Sub) : Prop where
  tidy : Tidy s.exRegions
  small : ∀ r ∈ s.exRegions, r.erEnd < 2 ^ 32
  top : s.exEnd < 2 ^ 32
  low : s.exStart ≤ a.substart
  high : a.subend ≤ s.exEnd
  order : a.substart ≤ a.subend
  some : 1 ≤ a.size
  short : a.size < 2 ^ 32
  power : ∃ k < 32, a.alignment = 2 ^ k
  off : a.skew < a.alignment
  plain : a.boundary = 0

theorem Asked.unit (asked : Asked s a) : Given s {a with size := 1} where
  tidy := asked.tidy
  small := asked.small
  top := asked.top
  low := asked.low
  high := asked.high
  order := asked.order
  some := le_refl 1
  short := Nat.one_lt_two_pow (by decide)
  room := le_add_left 1 _
  power := asked.power
  off := asked.off
  bound := .inl asked.plain

theorem align_lt (x align skew : Nat) : EXTENT_ALIGN x align skew < 2 ^ 32 := word_lt _

theorem less_eq (le : y ≤ x) (short : x < 2 ^ 32) : less x y = x - y := by
  unfold less word
  omega

section scan
variable (asked : Asked s a)
include asked

theorem Asked.subend_lt : a.subend < 2 ^ 32 := lt_of_le_of_lt asked.high asked.top

theorem checkChunk_plain {room limit : Nat} (fits : c < 2 ^ 32) (small : room < 2 ^ 32) (limits : limit < 2 ^ 32) :
    checkChunk s a room limit c = if c + room ≤ limit then .fits c else .skip := by
  unfold checkChunk
  rw [if_pos asked.plain]
  simp only [LE_OV_iff fits small limits]

theorem finalCheck_choose {exend : Nat} {best : Best} {place : Cursor} (fits : c < 2 ^ 32) (under : a.subend ≤ exend) (small : exend < 2 ^ 32) :
    finalCheck s a place exend c best = choose a.flags.fast best (finalOffers a place exend c) := by
  have some := asked.some
  have short := asked.short
  have minus : less a.size 1 = a.size - 1 := less_eq some short
  unfold finalCheck finalOffers
  rw [minus,checkChunk_plain asked fits (by omega) asked.subend_lt]
  by_cases enough : c + (a.size - 1) ≤ a.subend
  · have waste : less (less exend c) (a.size - 1) = exend - c - (a.size - 1) := by
      rw [less_eq (x := exend) (by omega) small,less_eq (by omega) (by omega)]
    rw [if_pos enough,if_pos enough]
    dsimp only [choose]
    rw [waste]
  rw [if_neg enough,if_neg enough]
  rfl

theorem scanGaps_choose : ∀ (behind last : List Region) (c : Nat) (best : Best), c < 2 ^ 32 → (∀ r ∈ behind, r.erStart < 2 ^ 32) →
    scanGaps s a last behind c best = choose a.flags.fast best (offers s a last behind c) := by
  intro behind
  induction behind with
  | nil =>
    intro last c best fits _
    exact finalCheck_choose asked fits asked.high asked.top
  | cons rp rest ih =>
    intro last c best fits small
    have short := asked.short
    have here := small rp (mem_cons_self ..)
    unfold scanGaps offers
    split
    · next past =>
      exact finalCheck_choose asked fits (le_of_lt past) here
    have go (best : Best) : (if EXTENT_ALIGN (word (rp.erEnd + 1)) a.alignment a.skew < rp.erEnd then best.settle a.flags.fast
        else scanGaps s a (rp :: last) rest (EXTENT_ALIGN (word (rp.erEnd + 1)) a.alignment a.skew) best) =
        choose a.flags.fast best (if EXTENT_ALIGN (word (rp.erEnd + 1)) a.alignment a.skew < rp.erEnd then []
          else offers s a (rp :: last) rest (EXTENT_ALIGN (word (rp.erEnd + 1)) a.alignment a.skew)) := by
      split_ifs with wraps
      · rfl
      · exact ih _ _ best (align_lt ..) fun r mem => small r (mem_cons_of_mem _ mem)
    rw [checkChunk_plain asked fits short here]
    by_cases enough : c + a.size ≤ rp.erStart
    · have waste : less (less rp.erStart c) a.size = rp.erStart - c - a.size := by
        rw [less_eq (x := rp.erStart) (by omega) here,less_eq (by omega) (by omega)]
      rw [if_pos enough,if_pos enough,singleton_append]
      rw [choose]
      dsimp only
      rw [waste,go]
    rw [if_neg enough,if_neg enough,nil_append]
    exact go best
end scan
structure Place (s : State) (a : Sub) (x : Nat) : Prop where
  low : a.substart ≤ x
  high : x + a.size ≤ a.subend + 1
  aligned : a.skew ≤ x ∧ a.alignment ∣ x - a.skew
  free : ∀ q ∈ s.exRegions, q.erEnd < x ∨ x + a.size ≤ q.erStart

def gapEnd (s : State) (x : Nat) : Nat := ((s.exRegions.find? fun q => decide (x ≤ q.erStart)).map Region.erStart).getD (s.exEnd + 1)
def leftover (s : State) (a : Sub) (x : Nat) : Nat := gapEnd s x - (x + a.size)

structure First (s : State) (a : Sub) (x : Nat) : Prop where
  place : Place s a x
  least : ∀ y, Place s a y → gapEnd s y = gapEnd s x → x ≤ y

def AtRegion (s : State) (a : Sub) (x : Nat) : Prop := a.subend < gapEnd s x ∧ ∃ q ∈ s.exRegions, q.erStart = gapEnd s x
instance : Decidable (AtRegion s a x) := inferInstanceAs (Decidable (_ ∧ _))

theorem gapEnd_region (split : s.exRegions = last.reverse ++ rp :: behind) (passed : ∀ r ∈ last, r.erStart < x) (le : x ≤ rp.erStart) :
    gapEnd s x = rp.erStart := by
  have none : last.reverse.find? (fun q => decide (x ≤ q.erStart)) = none := by
    rw [find?_eq_none]
    intro r mem
    have := passed r (mem_reverse.mp mem)
    simp only [decide_eq_true_eq]
    omega
  unfold gapEnd
  rw [split,find?_append,none,find?_cons_of_pos (by simpa using le)]
  rfl

theorem gapEnd_last (split : s.exRegions = last.reverse) (passed : ∀ r ∈ last, r.erStart < x) : gapEnd s x = s.exEnd + 1 := by
  have none : last.reverse.find? (fun q => decide (x ≤ q.erStart)) = none := by
    rw [find?_eq_none]
    intro r mem
    have := passed r (mem_reverse.mp mem)
    simp only [decide_eq_true_eq]
    omega
  unfold gapEnd
  rw [split,none]
  rfl

structure Least (s : State) (a : Sub) (last behind : List Region) (c : Nat) : Prop where
  split : s.exRegions = last.reverse ++ behind
  spot : c % a.alignment = a.skew
  short : c < 2 ^ 32
  low : a.substart ≤ c
  passed : ∀ r ∈ last, r.erEnd < c
  least : ∀ x, x % a.alignment = a.skew → a.substart ≤ x → (∀ r ∈ last, r.erEnd < x) → c ≤ x
  later : ∀ r ∈ behind, a.substart ≤ r.erStart

section gaps
variable {g : Offer} (asked : Asked s a)
include asked

theorem Place.spot (place : Place s a x) : x % a.alignment = a.skew := (aligned_iff asked.off).mp place.aligned

theorem Place.lt (place : Place s a x) : x < 2 ^ 32 := by
  have := place.high
  have := asked.some
  have := asked.high
  have := asked.top
  omega

namespace Least
variable (held : Least s a last behind c)
include held

theorem mem : r ∈ s.exRegions ↔ r ∈ last ∨ r ∈ behind := by
  rw [held.split,mem_append,mem_reverse]

theorem starts : ∀ r ∈ last, r.erStart < c := fun r mem =>
  lt_of_le_of_lt (asked.tidy.order r ((held.mem asked).mpr (.inl mem))) (held.passed r mem)
end Least

theorem Least.next (held : Least s a last (rp :: behind) c) (fits : rp.erEnd ≤ EXTENT_ALIGN (word (rp.erEnd + 1)) a.alignment a.skew) :
    Least s a (rp :: last) behind (EXTENT_ALIGN (word (rp.erEnd + 1)) a.alignment a.skew) := by
  have here : rp ∈ s.exRegions := (held.mem asked).mpr (.inr (mem_cons_self ..))
  have order := asked.tidy.order rp here
  have small := asked.small rp here
  have low := held.later rp (mem_cons_self ..)
  obtain ⟨excess,short,spot⟩ := after_region asked.unit small fits
  have split : s.exRegions = (rp :: last).reverse ++ behind := by
    rw [held.split,reverse_cons,append_assoc]
    rfl
  have tidy : Tidy (last.reverse ++ rp :: behind) := held.split ▸ asked.tidy
  refine ⟨split,spot,short,by omega,fun r mem => ?_,fun x spot' _ beyond => ?_,fun r mem => held.later r (mem_cons_of_mem _ mem)⟩
  · rcases mem_cons.mp mem with rfl | before
    · exact excess
    have := tidy.head_lt r (mem_reverse.mpr before)
    omega
  obtain ⟨k,low',power⟩ := asked.power
  have off := asked.off
  have half : a.alignment ≤ 2 ^ 31 := by
    rw [power]
    exact Nat.pow_le_pow_right (by decide) (by omega)
  obtain ⟨y,up,same⟩ := align_up a.skew low' (word_lt (rp.erEnd + 1)) (by omega)
  rw [← power] at up same
  have past := beyond rp (mem_cons_self ..)
  rw [same] at short excess ⊢
  have kept : word (rp.erEnd + 1) = rp.erEnd + 1 := by
    unfold word at *
    omega
  rw [kept] at up
  have le := up.least (by rw [spot',mod_eq_of_lt off]) past
  exact le_trans (mod_le _ _) le

theorem Least.next_least (held : Least s a last (rp :: behind) c) (fits : rp.erEnd ≤ EXTENT_ALIGN (word (rp.erEnd + 1)) a.alignment a.skew) :
    c ≤ EXTENT_ALIGN (word (rp.erEnd + 1)) a.alignment a.skew := by
  have next := held.next asked fits
  exact held.least _ next.spot next.low fun r mem => next.passed r (mem_cons_of_mem _ mem)

theorem Least.final (held : Least s a last behind c) {fin exend : Nat} (ends : ∀ x, c ≤ x → x + a.size ≤ a.subend + 1 → gapEnd s x = fin) (place : Place s a x) (le : c ≤ x) :
    ∃ g gs, finalOffers a (last,behind) exend c = g :: gs ∧ g.start ≤ x ∧ ∃ h ∈ g :: gs, h.start ≤ x ∧ gapEnd s h.start = gapEnd s x := by
  have some := asked.some
  have high := place.high
  unfold finalOffers
  rw [if_pos (by omega)]
  refine ⟨_,_,rfl,le,_,mem_singleton.mpr rfl,le,?_⟩
  rw [ends x le high,ends c (le_refl c) (by omega)]

theorem Least.ends (held : Least s a last [] c) : ∀ x, c ≤ x → x + a.size ≤ a.subend + 1 → gapEnd s x = s.exEnd + 1 := fun x le _ =>
  gapEnd_last (by rw [held.split,append_nil]) fun r mem => lt_of_lt_of_le (held.starts asked r mem) le

theorem Least.ends_region (held : Least s a last (rp :: behind) c) (le : c ≤ x) (before : x + a.size ≤ rp.erStart) : gapEnd s x = rp.erStart :=
  gapEnd_region held.split (fun r mem => lt_of_lt_of_le (held.starts asked r mem) le) (by omega)

theorem offers_complete : ∀ (behind last : List Region) (c : Nat), Least s a last behind c → ∀ x, Place s a x → c ≤ x →
    ∃ g gs, offers s a last behind c = g :: gs ∧ g.start ≤ x ∧ ∃ h ∈ g :: gs, h.start ≤ x ∧ gapEnd s h.start = gapEnd s x := by
  intro behind
  induction behind with
  | nil =>
    intro last c held x place le
    exact held.final asked (held.ends asked) place le
  | cons rp rest ih =>
    intro last c held x place le
    have here : rp ∈ s.exRegions := (held.mem asked).mpr (.inr (mem_cons_self ..))
    rw [offers]
    split
    · exact held.final asked (fun x le high => held.ends_region asked le (by omega)) place le
    rcases place.free rp here with beyond | before
    · -- The place is behind this region, so an address is left there.
      have spot := place.spot asked
      have short := place.lt asked
      obtain ⟨k,low,power⟩ := asked.power
      have off := asked.off
      have fits : rp.erEnd + 1 ≤ EXTENT_ALIGN (word (rp.erEnd + 1)) a.alignment a.skew ∧ EXTENT_ALIGN (word (rp.erEnd + 1)) a.alignment a.skew ≤ x := by
        have kept : word (rp.erEnd + 1) = rp.erEnd + 1 := word_small (by omega)
        have under : 2 ^ k < 2 ^ 32 := Nat.pow_lt_pow_right (by decide) low
        obtain ⟨y,up,same⟩ := align_up a.skew low (word_lt (rp.erEnd + 1)) (by omega)
        rw [← power] at up same
        rw [kept] at up
        have least := up.least (by rw [spot,mod_eq_of_lt off]) beyond
        rw [same,word_small (lt_of_le_of_lt least short)]
        exact ⟨up.low,least⟩
      have up : ¬ EXTENT_ALIGN (word (rp.erEnd + 1)) a.alignment a.skew < rp.erEnd := by omega
      rw [if_neg up]
      obtain ⟨g,gs,found,low',h,mem,le',same⟩ := ih (rp :: last) _ (held.next asked (by omega)) x place fits.2
      rw [found]
      split
      · exact ⟨_,_,rfl,le,h,mem_cons_of_mem _ mem,le',same⟩
      · exact ⟨g,gs,rfl,low',h,mem,le',same⟩
    rw [if_pos (by omega),singleton_append]
    refine ⟨_,_,rfl,le,_,mem_cons_self ..,le,?_⟩
    rw [held.ends_region asked le before,held.ends_region asked (le_refl c) (by omega)]

structure Measured (s : State) (a : Sub) (c : Nat) (g : Offer) : Prop where
  low : c ≤ g.start
  first : First s a g.start
  ovh : g.ovh = leftover s a g.start + if AtRegion s a g.start then 1 else 0

omit asked in
theorem Measured.weaken (m : Measured s a y g) (le : c ≤ y) : Measured s a c g where
  low := le_trans le m.low
  first := m.first
  ovh := m.ovh

theorem Least.place (held : Least s a last behind c) (high : c + a.size ≤ a.subend + 1) (ahead : ∀ r ∈ behind, c + a.size ≤ r.erStart) : Place s a c where
  low := held.low
  high := high
  aligned := (aligned_iff asked.off).mpr held.spot
  free := fun q mem => ((held.mem asked).mp mem).imp (held.passed q) (ahead q)

theorem gapEnd_le (mem : r ∈ s.exRegions) (le : x ≤ r.erStart) : gapEnd s x ≤ r.erStart := by
  unfold gapEnd
  cases found : s.exRegions.find? fun q => decide (x ≤ q.erStart) with
  | none =>
    have := find?_eq_none.mp found r mem
    simp only [decide_eq_true_eq] at this
    omega
  | some q =>
    obtain ⟨_,front,rest,split,passed⟩ := find?_eq_some_iff_append.mp found
    have sorted := (pairwise_append.mp (split ▸ asked.tidy.sorted)).2.1
    rw [split,mem_append,mem_cons] at mem
    show q.erStart ≤ r.erStart
    rcases mem with before | rfl | behind
    · have := passed r before
      simp only [Bool.not_eq_true',decide_eq_false_iff_not] at this
      omega
    · exact le_refl _
    have less := (pairwise_cons.mp sorted).1 r behind
    have order := asked.tidy.order q (by rw [split]; simp)
    omega

theorem Least.first (held : Least s a last behind c) (place : Place s a c) (ends : ∀ r ∈ last, r.erStart < gapEnd s c) : First s a c where
  place := place
  least := by
    intro y other same
    refine held.least y (other.spot asked) other.low fun r mem => ?_
    have here : r ∈ s.exRegions := (held.mem asked).mpr (.inl mem)
    refine (other.free r here).resolve_right fun before => ?_
    -- A region passed would end the gap of a place before it.
    have := gapEnd_le asked here (x := y) (by omega)
    have := ends r mem
    omega

theorem Least.measured_last (held : Least s a last [] c) (mem : g ∈ finalOffers a (last,[]) s.exEnd c) : g.start = c ∧ Measured s a c g := by
  unfold finalOffers at mem
  split_ifs at mem with enough
  · obtain rfl := mem_singleton.mp mem
    have some := asked.some
    have high := asked.high
    have ends := held.ends asked c (le_refl c) (by omega)
    have starts := held.starts asked
    have place : Place s a c := held.place asked (by omega) fun r mem => by cases mem
    have open_ : ¬ AtRegion s a c := by
      rintro ⟨_,q,mem,same⟩
      have := starts q (((held.mem asked).mp mem).resolve_right fun none => by cases none)
      omega
    refine ⟨rfl,le_refl c,held.first asked place fun r mem => ?_,?_⟩
    · have := starts r mem
      show r.erStart < gapEnd s c
      omega
    dsimp only
    rw [if_neg open_]
    unfold leftover
    omega
  · cases mem

theorem Least.measured_past (held : Least s a last (rp :: behind) c) (past : a.subend < rp.erStart)
    (mem : g ∈ finalOffers a (last,rp :: behind) rp.erStart c) : g.start = c ∧ Measured s a c g := by
  unfold finalOffers at mem
  split_ifs at mem with enough
  · obtain rfl := mem_singleton.mp mem
    have some := asked.some
    have ends := held.ends_region asked (le_refl c) (by omega)
    have starts := held.starts asked
    have here : rp ∈ s.exRegions := (held.mem asked).mpr (.inr (mem_cons_self ..))
    have order := asked.tidy.order rp here
    have tidy : Tidy (last.reverse ++ rp :: behind) := held.split ▸ asked.tidy
    have place : Place s a c := held.place asked (by omega) fun r mem => by
      rcases mem_cons.mp mem with rfl | later
      · omega
      have := tidy.tail_lt r later
      omega
    have closed : AtRegion s a c := ⟨by omega,rp,here,ends.symm⟩
    refine ⟨rfl,le_refl c,held.first asked place fun r mem => ?_,?_⟩
    · have := starts r mem
      show r.erStart < gapEnd s c
      omega
    dsimp only
    rw [if_pos closed]
    unfold leftover
    omega
  · cases mem

theorem Least.measured_inner (held : Least s a last (rp :: behind) c) (inner : rp.erStart ≤ a.subend)
    (mem : g ∈ if c + a.size ≤ rp.erStart then [(⟨c,rp.erStart - c - a.size,(last,rp :: behind)⟩ : Offer)] else []) :
    g.start = c ∧ gapEnd s c = rp.erStart ∧ Measured s a c g := by
  split_ifs at mem with enough
  · obtain rfl := mem_singleton.mp mem
    have ends := held.ends_region asked (le_refl c) enough
    have starts := held.starts asked
    have here : rp ∈ s.exRegions := (held.mem asked).mpr (.inr (mem_cons_self ..))
    have order := asked.tidy.order rp here
    have tidy : Tidy (last.reverse ++ rp :: behind) := held.split ▸ asked.tidy
    have place : Place s a c := held.place asked (by omega) fun r mem => by
      rcases mem_cons.mp mem with rfl | later
      · exact enough
      have := tidy.tail_lt r later
      omega
    have open_ : ¬ AtRegion s a c := fun closed => by
      have := closed.1
      omega
    refine ⟨rfl,ends,le_refl c,held.first asked place fun r mem => ?_,?_⟩
    · have := starts r mem
      show r.erStart < gapEnd s c
      omega
    dsimp only
    rw [if_neg open_]
    unfold leftover
    omega
  · cases mem

theorem offers_measured : ∀ (behind last : List Region) (c : Nat), Least s a last behind c →
    (∀ g ∈ offers s a last behind c, Measured s a c g) ∧ (offers s a last behind c).Pairwise fun g h => gapEnd s g.start < h.start := by
  intro behind
  induction behind with
  | nil =>
    intro last c held
    rw [offers]
    refine ⟨fun g mem => (held.measured_last asked mem).2,?_⟩
    unfold finalOffers
    split_ifs
    · exact pairwise_singleton _ _
    · exact List.Pairwise.nil
  | cons rp rest ih =>
    intro last c held
    rw [offers]
    split_ifs with past enough wraps wraps
    · refine ⟨fun g mem => (held.measured_past asked past mem).2,?_⟩
      unfold finalOffers
      split_ifs
      · exact pairwise_singleton _ _
      · exact List.Pairwise.nil
    · refine ⟨fun g mem => ?_,?_⟩
      · exact (held.measured_inner asked (not_lt.mp past) (by rwa [if_pos enough])).2.2
      · exact pairwise_singleton _ _
    · obtain ⟨each,sorted⟩ := ih _ _ (held.next asked (not_lt.mp wraps))
      obtain ⟨begins,ends,head⟩ := held.measured_inner asked (not_lt.mp past) (g := ⟨c,rp.erStart - c - a.size,(last,rp :: rest)⟩) (by simp [enough])
      have order := asked.tidy.order rp ((held.mem asked).mpr (.inr (mem_cons_self ..)))
      have beyond := (held.next asked (not_lt.mp wraps)).passed rp (mem_cons_self ..)
      refine ⟨fun g mem => ?_,pairwise_cons.mpr ⟨fun h mem => ?_,sorted⟩⟩
      · rcases mem_cons.mp mem with rfl | mem
        · exact head
        · exact (each g mem).weaken (by omega)
      have := (each h mem).low
      show gapEnd s c < h.start
      omega
    · exact ⟨fun _ none => absurd none not_mem_nil,List.Pairwise.nil⟩
    obtain ⟨each,sorted⟩ := ih _ _ (held.next asked (not_lt.mp wraps))
    have behind := held.next_least asked (not_lt.mp wraps)
    exact ⟨fun g mem => (each g mem).weaken behind,sorted⟩
end gaps
end NetbsdAvr32.Extent
