import NetbsdAvr32.ExtentSub
import NetbsdAvr32.PowerMask

-- What extent_alloc_subregion1 answers with.
namespace NetbsdAvr32.Extent
open PowerMask Nat List
variable {s s' : State} {a : Sub} {l before behind rest last : List Region} {r q : Region} {start skew align x y m k room limit newstart : Nat}

theorem word_lt (n : Nat) : word n < 2 ^ 32 := mod_lt _ (by decide)
theorem word_small (small : x < 2 ^ 32) : word x = x := mod_eq_of_lt small

theorem and_neg_word (small : x < 2 ^ 32) (low : k < 32) : x &&& less 0 (2 ^ k) = x / 2 ^ k * 2 ^ k := by
  have words := and_neg (BitVec.ofNat 32 x) low
  have neg : (-BitVec.ofNat 32 (2 ^ k)).toNat = less 0 (2 ^ k) := by
    rw [BitVec.toNat_neg,power_toNat low]
    unfold less word
    rw [zero_add]
  rw [BitVec.toNat_and,neg,BitVec.toNat_ofNat,mod_eq_of_lt small] at words
  exact words

-- The first place from `x` on that is `skew` off a multiple of `align`.
structure Up (align skew x y : Nat) : Prop where
  spot : y % align = skew % align
  low : x ≤ y
  near : y < x + align

theorem Up.least (up : Up align skew x y) (spot : m % align = skew % align) (low : x ≤ m) : y ≤ m := by
  obtain ⟨spot',low',near⟩ := up
  by_contra excess
  have dvd : align ∣ y - m := dvd_of_mod_eq_zero (sub_mod_eq_zero_of_mod_eq (spot'.trans spot.symm))
  have short : y - m < align := by omega
  have zero := eq_zero_of_dvd_of_lt dvd short
  omega

theorem turn_le (spot : m % align = x % align) (more : x < m) : x + align ≤ m := by
  have dvd : align ∣ m - x := dvd_of_mod_eq_zero (sub_mod_eq_zero_of_mod_eq spot)
  have := le_of_dvd (by omega) dvd
  omega

theorem align_up (skew : Nat) (low : k < 32) (small : x < 2 ^ 32) (off : skew < 2 ^ 32) :
    ∃ y, Up (2 ^ k) skew x y ∧ EXTENT_ALIGN x (2 ^ k) skew = word y := by
  obtain ⟨m,power⟩ : ∃ m, 2 ^ 32 = 2 ^ k * m := ⟨2 ^ (32 - k),by rw [← Nat.pow_add,Nat.add_sub_cancel' (Nat.le_of_lt low)]⟩
  have some : 0 < 2 ^ k := Nat.two_pow_pos k
  have under : 2 ^ k < 2 ^ 32 := Nat.pow_lt_pow_right (by decide) low
  have base : ∃ b, b + skew = x + 2 ^ 32 * (if x < skew then 1 else 0) ∧ less x skew = b ∧ b < 2 ^ 32 := by
    refine ⟨less x skew,?_,rfl,word_lt _⟩
    unfold less word
    split_ifs with below <;> omega
  obtain ⟨b,sum,diff,short⟩ := base
  have minus : less (2 ^ k) 1 = 2 ^ k - 1 := by
    unfold less word
    omega
  unfold EXTENT_ALIGN
  rw [diff,minus]
  generalize (if x < skew then 1 else 0) = turns at sum
  have shape : ∀ c, c % 2 ^ k = 0 → ∀ y, y + 2 ^ 32 * turns = c + skew → y % 2 ^ k = skew % 2 ^ k := by
    intro c whole y eq
    have left : (y + 2 ^ 32 * turns) % 2 ^ k = y % 2 ^ k := by
      rw [power,mul_assoc,add_mul_mod_self_left]
    rw [← left,eq,add_mod,whole,zero_add,mod_mod]
  by_cases fits : b + (2 ^ k - 1) < 2 ^ 32
  · rw [word_small fits,and_neg_word fits low]
    have down := div_mul_le_self (b + (2 ^ k - 1)) (2 ^ k)
    have near := lt_div_mul_add some (a := b + (2 ^ k - 1))
    have whole : (b + (2 ^ k - 1)) / 2 ^ k * 2 ^ k % 2 ^ k = 0 := mul_mod_left _ _
    have spot := shape _ whole
    generalize (b + (2 ^ k - 1)) / 2 ^ k * 2 ^ k = c at *
    refine ⟨x + (c - b),⟨spot _ (by omega),by omega,by omega⟩,?_⟩
    unfold word
    omega
  have wrapped : word (b + (2 ^ k - 1)) = b + (2 ^ k - 1) - 2 ^ 32 := by
    unfold word
    omega
  rw [wrapped,and_neg_word (by omega) low,div_eq_of_lt (by omega),zero_mul,zero_add]
  refine ⟨x + (2 ^ 32 - b),⟨shape (2 ^ 32) (by rw [power]; exact mul_mod_right _ _) _ (by omega),by omega,by omega⟩,?_⟩
  unfold word
  omega

theorem LE_OV_iff (xs : x < 2 ^ 32) (ys : y < 2 ^ 32) (ms : m < 2 ^ 32) : LE_OV x y m = true ↔ x + y ≤ m := by
  unfold LE_OV
  rw [Bool.and_eq_true,decide_eq_true_iff,decide_eq_true_iff]
  unfold word
  omega

-- A call on arguments that are allowed, in u_long.
structure Given (s : State) (a : Sub) : Prop where
  tidy : Tidy s.exRegions
  small : ∀ r ∈ s.exRegions, r.erEnd < 2 ^ 32
  top : s.exEnd < 2 ^ 32
  low : s.exStart ≤ a.substart
  high : a.subend ≤ s.exEnd
  order : a.substart ≤ a.subend
  some : 1 ≤ a.size
  short : a.size < 2 ^ 32
  room : a.size ≤ a.subend - a.substart + 1
  power : ∃ k < 32, a.alignment = 2 ^ k
  off : a.skew < a.alignment
  bound : a.boundary = 0 ∨ (∃ k < 32, a.boundary = 2 ^ k) ∧ a.size ≤ a.boundary

def Inside (s : State) (a : Sub) (start : Nat) : Prop :=
  a.boundary ≠ 0 → ∀ m, m % a.boundary = a.origin s.exStart % a.boundary → start < m → start + a.size ≤ m

theorem origin_le : a.origin s.exStart ≤ s.exStart := by
  unfold Sub.origin
  split_ifs <;> omega

theorem dontcross_cases (low : k < 32) (fits : newstart < 2 ^ 32) (off : s.exStart < 2 ^ 32) (up : s.exStart ≤ newstart) :
    (∃ y, Up (2 ^ k) (a.origin s.exStart) (newstart + 1) y ∧ y < 2 ^ 32 ∧ less (EXTENT_ALIGN (word (newstart + 1)) (2 ^ k) (a.origin s.exStart)) 1 = y - 1) ∨
    (less (EXTENT_ALIGN (word (newstart + 1)) (2 ^ k) (a.origin s.exStart)) 1 < s.exStart ∨
      less (EXTENT_ALIGN (word (newstart + 1)) (2 ^ k) (a.origin s.exStart)) 1 = 2 ^ 32 - 1) ∧
      ∀ m, m % 2 ^ k = a.origin s.exStart % 2 ^ k → newstart < m → 2 ^ 32 ≤ m := by
  have under := @origin_le s a
  have power : 2 ^ k < 2 ^ 32 := Nat.pow_lt_pow_right (by decide) low
  obtain ⟨y,⟨spot,above,near⟩,same⟩ := align_up _ low (word_lt (newstart + 1)) (lt_of_le_of_lt under off)
  rw [same]
  -- Past the top, what is left of the next boundary is no more than the origin.
  have past : ∀ c, c < 2 ^ k → c % 2 ^ k = a.origin s.exStart % 2 ^ k → less c 1 < s.exStart ∨ less c 1 = 2 ^ 32 - 1 := by
    intro c short spot
    have le : c ≤ a.origin s.exStart := by
      rw [mod_eq_of_lt short] at spot
      rw [spot]
      exact mod_le _ _
    unfold less word
    omega
  rcases lt_or_ge (newstart + 1) (2 ^ 32) with inside | edge
  · rw [word_small inside] at above near
    rcases lt_or_ge y (2 ^ 32) with small | excess
    · refine .inl ⟨y,⟨spot,above,near⟩,small,?_⟩
      unfold less word
      omega
    obtain ⟨m,turn⟩ : ∃ m, 2 ^ 32 = 2 ^ k * m := ⟨2 ^ (32 - k),by rw [← Nat.pow_add,Nat.add_sub_cancel' (Nat.le_of_lt low)]⟩
    have rest : word y = y - 2 ^ 32 := by
      unfold word
      omega
    have kept : (y - 2 ^ 32) % 2 ^ k = y % 2 ^ k := by
      rw [turn,sub_mul_mod (by rw [← turn]; exact excess)]
    rw [rest]
    refine .inr ⟨past _ (by omega) (kept.trans spot),fun m spot' more => ?_⟩
    exact le_trans excess (Up.least ⟨spot,above,near⟩ spot' more)
  have zero : word (newstart + 1) = 0 := by
    unfold word
    omega
  rw [zero,zero_add] at near
  rw [word_small (lt_trans near power)]
  exact .inr ⟨past y near spot,fun m _ more => by omega⟩

theorem checkEnd_fits {dontcross : Nat} (fits : checkEnd s a newstart dontcross = .fits start) : start = newstart := by
  unfold checkEnd at fits
  split_ifs at fits
  exact (Chunk.fits.inj fits).symm

theorem newend_eq (some : 1 ≤ a.size) (high : newstart + a.size ≤ 2 ^ 32) : word (newstart + less a.size 1) = newstart + a.size - 1 := word_fin some high

theorem checkChunk_spec (given : Given s a) (fits : newstart < 2 ^ 32) (up : a.substart ≤ newstart) (limits : limit < 2 ^ 32)
    (most : room ≤ a.size) (least : a.size ≤ room + 1) (ok : checkChunk s a room limit newstart = .fits start) :
    newstart + room ≤ limit ∧ start + room ≤ limit ∧ Inside s a start ∧
      (start = newstart ∨ a.boundary ≠ 0 ∧ newstart < start ∧ start < newstart + a.size ∧ start % a.boundary = a.origin s.exStart % a.boundary) := by
  unfold checkChunk at ok
  split at ok
  · next le =>
    have enough := (LE_OV_iff fits (lt_of_le_of_lt most given.short) limits).mp le
    split at ok
    · next none =>
      obtain rfl := Chunk.fits.inj ok
      exact ⟨enough,enough,fun some => absurd none some,.inl rfl⟩
    next none =>
    obtain ⟨⟨k,low,power⟩,wide⟩ := given.bound.resolve_left none
    have some := given.some
    have first := given.low
    unfold checkBoundary at ok
    rw [newend_eq some (by omega),power] at ok
    dsimp only at ok
    have base := lt_of_le_of_lt (le_trans (le_trans first given.order) given.high) given.top
    rcases @dontcross_cases s a k newstart low fits base (le_trans first up) with ⟨y,next,small,same⟩ | ⟨turned,beyond⟩
    · obtain ⟨spot,above,near⟩ := next
      rw [same,if_neg (by omega)] at ok
      by_cases crosses : newstart + a.size - 1 > y - 1
      · have moved : word (y - 1 + 1) = y := by
          unfold word
          omega
        rw [moved] at ok
        split_ifs at ok with fits'
        have enough' := (LE_OV_iff small (lt_of_le_of_lt most given.short) limits).mp fits'
        obtain rfl := checkEnd_fits ok
        rw [power]
        refine ⟨enough,enough',fun _ m spot' more => ?_,.inr ⟨by omega,by omega,by omega,spot⟩⟩
        rw [power] at spot' wide
        have ahead := turn_le (spot'.trans spot.symm) more
        omega
      rw [if_neg crosses] at ok
      obtain rfl := checkEnd_fits ok
      refine ⟨enough,enough,fun _ m spot' more => ?_,.inl rfl⟩
      rw [power] at spot'
      have := Up.least ⟨spot,above,near⟩ spot' more
      omega
    have same : start = newstart := by
      rcases turned with under | top
      · rw [if_pos under] at ok
        exact checkEnd_fits ok
      split_ifs at ok with under crosses
      · exact checkEnd_fits ok
      · omega
      · exact checkEnd_fits ok
    subst same
    refine ⟨enough,enough,fun _ m spot' more => ?_,.inl rfl⟩
    rw [power] at spot'
    have := beyond m spot' more
    omega
  · cases ok

structure Moved (s : State) (a : Sub) (x y : Nat) : Prop where
  some : a.boundary ≠ 0
  first : ∃ g, (g = a.substart ∨ ∃ r ∈ s.exRegions, g = r.erEnd + 1) ∧ x = EXTENT_ALIGN (word g) a.alignment a.skew
  low : a.substart ≤ x
  excess : x < y
  crossed : y < x + a.size
  turn : y % a.boundary = a.origin s.exStart % a.boundary
  high : y + a.size ≤ a.subend + 1
  free : ∀ r ∈ s.exRegions, r.erEnd < x ∨ y + a.size ≤ r.erStart

structure Spot (s : State) (a : Sub) (start : Nat) (c : Cursor) : Prop where
  split : s.exRegions = c.1.reverse ++ c.2
  low : a.substart ≤ start
  high : start + a.size ≤ a.subend + 1
  inside : Inside s a start
  passed : ∀ r ∈ c.1, r.erEnd < start
  ahead : ∀ r ∈ c.2, start + a.size ≤ r.erStart
  aligned : start % a.alignment = a.skew ∨ ∃ x, Moved s a x start

structure Candidate (s : State) (a : Sub) (last behind : List Region) (newstart : Nat) : Prop where
  split : s.exRegions = last.reverse ++ behind
  passed : ∀ r ∈ last, r.erEnd < newstart
  fits : newstart < 2 ^ 32
  low : a.substart ≤ newstart
  aligned : newstart % a.alignment = a.skew
  first : ∃ g, (g = a.substart ∨ ∃ r ∈ s.exRegions, g = r.erEnd + 1) ∧ newstart = EXTENT_ALIGN (word g) a.alignment a.skew
  later : ∀ r ∈ behind, a.substart ≤ r.erStart

variable {best : Best} {c : Cursor} {ovh : Nat} {fast : Bool}

theorem Candidate.mem (held : Candidate s a last behind newstart) : r ∈ s.exRegions ↔ r ∈ last ∨ r ∈ behind := by
  rw [held.split,mem_append,mem_reverse]

theorem Candidate.spot (held : Candidate s a last behind newstart) (given : Given s a) (limits : limit < 2 ^ 32) (most : room ≤ a.size)
    (least : a.size ≤ room + 1) (ok : checkChunk s a room limit newstart = .fits start) (high : start + room ≤ limit → start + a.size ≤ a.subend + 1)
    (ahead : start + room ≤ limit → ∀ r ∈ behind, start + a.size ≤ r.erStart) : Spot s a start (last,behind) := by
  obtain ⟨-,enough,inside,place⟩ := checkChunk_spec given held.fits held.low limits most least ok
  have up : newstart ≤ start := by
    rcases place with rfl | ⟨_,excess,_⟩
    · exact le_refl _
    · exact le_of_lt excess
  refine ⟨held.split,le_trans held.low up,high enough,inside,fun r mem => lt_of_lt_of_le (held.passed r mem) up,ahead enough,?_⟩
  rcases place with rfl | ⟨some,excess,crossed,turn⟩
  · exact .inl held.aligned
  refine .inr ⟨newstart,⟨some,held.first,held.low,excess,crossed,turn,high enough,fun r mem => ?_⟩⟩
  rcases held.mem.mp mem with before | after
  · exact .inl (held.passed r before)
  · exact .inr (ahead enough r after)

section
variable (good : best.bestovh ≠ 0 → Spot s a best.beststart best.bestlast)
include good

end

theorem after_region (given : Given s a) (small : r.erEnd < 2 ^ 32) (passes : r.erEnd ≤ EXTENT_ALIGN (word (r.erEnd + 1)) a.alignment a.skew) :
    r.erEnd < EXTENT_ALIGN (word (r.erEnd + 1)) a.alignment a.skew ∧ EXTENT_ALIGN (word (r.erEnd + 1)) a.alignment a.skew < 2 ^ 32 ∧
      EXTENT_ALIGN (word (r.erEnd + 1)) a.alignment a.skew % a.alignment = a.skew := by
  obtain ⟨k,low,power⟩ := given.power
  have off := given.off
  have half : a.alignment ≤ 2 ^ 31 := by
    rw [power]
    exact Nat.pow_le_pow_right (by decide) (by omega)
  obtain ⟨y,⟨spot,above,near⟩,same⟩ := align_up a.skew low (word_lt (r.erEnd + 1)) (by omega)
  rw [← power] at spot near same
  rw [same] at passes ⊢
  rw [mod_eq_of_lt off] at spot
  have kept : word (r.erEnd + 1) = r.erEnd + 1 := by
    unfold word at *
    omega
  rw [kept] at above near
  have whole : word y = y := by
    unfold word at *
    omega
  rw [whole]
  exact ⟨above,whole ▸ word_lt y,spot⟩

theorem skipBefore_split : ∀ {l last before behind : List Region}, skipBefore newstart last l = (before,behind) →
    before.reverse ++ behind = last.reverse ++ l ∧ ((∀ r ∈ last, r.erStart < newstart) → ∀ r ∈ before, r.erStart < newstart) ∧
      ∀ r rest, behind = r :: rest → newstart ≤ r.erStart
  | [],last,_,_,found => by
    cases found
    exact ⟨rfl,id,nofun⟩
  | rp :: rest,last,before,behind,found => by
    unfold skipBefore at found
    split_ifs at found with stops
    · cases found
      refine ⟨rfl,id,?_⟩
      rintro r rest ⟨⟩
      exact stops
    obtain ⟨split,lower,first⟩ := skipBefore_split found
    refine ⟨?_,fun passed => lower ?_,first⟩
    · rw [split,reverse_cons,append_assoc]
      rfl
    intro r mem
    rcases mem_cons.mp mem with rfl | later
    · exact Nat.lt_of_not_le stops
    · exact passed r later

-- The two places where the code rounds up without looking.
structure RoundsUp (s : State) (a : Sub) : Prop where
  first : a.substart ≤ EXTENT_ALIGN a.substart a.alignment a.skew ∨ EXTENT_ALIGN a.substart a.alignment a.skew < s.exStart
  later : ∀ r ∈ s.exRegions, r.erStart < EXTENT_ALIGN a.substart a.alignment a.skew → EXTENT_ALIGN a.substart a.alignment a.skew ≤ r.erEnd →
    r.erEnd < EXTENT_ALIGN (word (r.erEnd + 1)) a.alignment a.skew

theorem Given.substart_lt (given : Given s a) : a.substart < 2 ^ 32 :=
  lt_of_le_of_lt (le_trans given.order given.high) given.top

theorem Given.start_spot (given : Given s a) : EXTENT_ALIGN a.substart a.alignment a.skew < 2 ^ 32 ∧
    EXTENT_ALIGN a.substart a.alignment a.skew % a.alignment = a.skew := by
  obtain ⟨k,low,power⟩ := given.power
  have off := given.off
  have pow32 : a.alignment < 2 ^ 32 := by
    rw [power]
    exact Nat.pow_lt_pow_right (by decide) low
  obtain ⟨y,⟨spot,above,near⟩,same⟩ := align_up a.skew low given.substart_lt (by omega)
  rw [← power] at spot near same
  rw [same]
  refine ⟨word_lt y,?_⟩
  obtain ⟨m,turn⟩ : ∃ m, 2 ^ 32 = a.alignment * m := ⟨2 ^ (32 - k),by rw [power,← Nat.pow_add,Nat.add_sub_cancel' (Nat.le_of_lt low)]⟩
  unfold word
  rw [mod_mod_of_dvd _ ⟨m,turn⟩,spot,mod_eq_of_lt off]

structure Right (s : State) (a : Sub) (r : Nat) (s' : State) : Prop where
  low : a.substart ≤ r
  high : r + a.size ≤ a.subend + 1
  aligned : a.skew ≤ r ∧ a.alignment ∣ r - a.skew
  inside : Inside s a r
  free : ∀ q ∈ s.exRegions, q.erEnd < r ∨ r + a.size ≤ q.erStart
  tidy : Tidy s'.exRegions
  covered : Covered s'.exRegions = Covered s.exRegions ∪ range r a.size

def Answered (diagnostic descriptor : Bool) (a : Sub) (s : State) (r : Nat) (s' : State) : Prop :=
  extentAllocSubregion1 diagnostic descriptor a s = (.returned none,some r,s')

theorem Answered.found {diagnostic descriptor : Bool} {r : Nat} (answered : Answered diagnostic descriptor a s r s') :
    s.exStart ≤ EXTENT_ALIGN a.substart a.alignment a.skew ∧ ∃ c : Cursor, findGap s a (EXTENT_ALIGN a.substart a.alignment a.skew) = some (r,c) ∧
      s' = {s with exRegions := extentInsertAndOptimize s.exNoCoalesce r a.size c.1 c.2} := by
  unfold Answered extentAllocSubregion1 at answered
  cases check : (if diagnostic then checkArguments s a else none) with
  | some text =>
    rw [check] at answered
    cases answered
  | none =>
    rw [check] at answered
    by_cases made : descriptor = false
    · rw [if_pos made] at answered
      cases answered
    rw [if_neg made] at answered
    by_cases under : EXTENT_ALIGN a.substart a.alignment a.skew < s.exStart
    · rw [if_pos under] at answered
      split_ifs at answered <;> cases answered
    rw [if_neg under] at answered
    refine ⟨Nat.le_of_not_lt under,?_⟩
    cases found : findGap s a (EXTENT_ALIGN a.substart a.alignment a.skew) with
    | none =>
      rw [found] at answered
      split_ifs at answered <;> cases answered
    | some place =>
      rw [found] at answered
      cases answered
      exact ⟨place.2,rfl,rfl⟩

theorem aligned_iff {r : Nat} (off : a.skew < a.alignment) : a.skew ≤ r ∧ a.alignment ∣ r - a.skew ↔ r % a.alignment = a.skew := by
  constructor
  · rintro ⟨le,q,eq⟩
    have sum : r = a.skew + a.alignment * q := by omega
    rw [sum,add_mul_mod_self_left,mod_eq_of_lt off]
  intro spot
  refine ⟨spot ▸ mod_le r a.alignment,?_⟩
  have parts := div_add_mod r a.alignment
  exact ⟨r / a.alignment,by omega⟩

theorem Spot.right {r : Nat} (spot : Spot s a r c) (given : Given s a) (aligned : r % a.alignment = a.skew) :
    Right s a r {s with exRegions := extentInsertAndOptimize s.exNoCoalesce r a.size c.1 c.2} := by
  have some := given.some
  have top : r + a.size ≤ 2 ^ 32 := by
    have := spot.high
    have := given.high
    have := given.top
    omega
  have gap : Gap r a.size c.1 c.2 := by
    refine ⟨spot.split ▸ given.tidy,some,top,spot.passed,spot.ahead,fun q mem => ?_⟩
    have here : q ∈ s.exRegions := by
      rw [spot.split]
      exact mem_append_right _ mem
    exact lt_of_le_of_lt (given.tidy.order q here) (given.small q here)
  obtain ⟨left,middle,right,q,joined⟩ := insert_joined s.exNoCoalesce gap
  rw [← spot.split] at joined
  obtain ⟨tidy,covered⟩ := joined.exact given.tidy
  refine ⟨spot.low,spot.high,(aligned_iff given.off).mpr aligned,spot.inside,fun p mem => ?_,tidy,covered.trans ?_⟩
  · rw [spot.split,mem_append,mem_reverse] at mem
    exact mem.imp (spot.passed p) (spot.ahead p)
  · rw [← range_fin some]

theorem Right.rounds {r : Nat} (right : Right s a r s') (given : Given s a) : RoundsUp s a := by
  obtain ⟨k,low,power⟩ := given.power
  have off := given.off
  have pow32 : a.alignment < 2 ^ 32 := by
    rw [power]
    exact Nat.pow_lt_pow_right (by decide) low
  have spot := (aligned_iff off).mp right.aligned
  have spot' : r % a.alignment = a.skew % a.alignment := by rw [spot,mod_eq_of_lt off]
  have some := given.some
  have short : r < 2 ^ 32 := by
    have := right.high
    have := given.high
    have := given.top
    omega
  -- Rounding up from below the answer stays below it.
  have rounded : ∀ x, x ≤ r → x ≤ EXTENT_ALIGN x a.alignment a.skew ∧ EXTENT_ALIGN x a.alignment a.skew ≤ r := by
    intro x le
    obtain ⟨y,up,same⟩ := align_up a.skew low (lt_of_le_of_lt le short) (by omega)
    rw [← power] at up same
    have least := up.least spot' le
    rw [same,word_small (lt_of_le_of_lt least short)]
    exact ⟨up.low,least⟩
  obtain ⟨above,under⟩ := rounded _ right.low
  refine ⟨.inl above,fun q mem starts covers => ?_⟩
  have past : q.erEnd < r := (right.free q mem).resolve_right fun ahead => by omega
  obtain ⟨excess,-⟩ := rounded (q.erEnd + 1) past
  rw [word_small (lt_of_le_of_lt past short)]
  exact excess

def holding (fin : Nat) (regions : List Region) : State := {extentCreate 0 fin false with exRegions := regions}

theorem holding_given {fin : Nat} (top : fin < 2 ^ 32) (order : q.erStart ≤ q.erEnd) (small : q.erEnd < 2 ^ 32) (high : a.subend ≤ fin)
    (span : a.substart ≤ a.subend) (some : 1 ≤ a.size) (short : a.size < 2 ^ 32) (fits : a.size ≤ a.subend - a.substart + 1)
    (power : ∃ k < 32, a.alignment = 2 ^ k) (off : a.skew < a.alignment)
    (bound : a.boundary = 0 ∨ (∃ k < 32, a.boundary = 2 ^ k) ∧ a.size ≤ a.boundary) : Given (holding fin [q]) a := by
  refine ⟨⟨fun r mem => ?_,pairwise_singleton _ _⟩,fun r mem => ?_,top,zero_le _,high,span,some,short,fits,power,off,bound⟩
  · rw [mem_singleton.mp mem]
    exact order
  rw [mem_singleton.mp mem]
  exact small

end NetbsdAvr32.Extent
