import NetbsdAvr32.AmapPpref

-- Which pages an entry sees once amap_extend has grown it.
namespace NetbsdAvr32.Amap
open Cells Function Outcome Nat

-- amap_lookup at a page of an entry that starts at `pageoff` of the amap.
def amapLookup (amap : Amap) (pageoff page : Nat) : Except Halt (Option Nat) :=
  if page + pageoff ≥ amap.amNslot then .error (.panic "amap_lookup: offset out of range")
  else read amap.amMaxslot amap.amAnon (page + pageoff)

-- The old pages show what they showed, and the new ones nothing.
structure Extended (amap : Amap) (entry : Entry) (slotadd : Nat) (forwards : Bool) (next : Amap) (pageoff : Nat) : Prop where
  kept : ∀ page < entry.slotmapped,
    amapLookup next pageoff (if forwards then page else slotadd + page) = amapLookup amap entry.arPageoff page
  fresh : ∀ page < slotadd,amapLookup next pageoff (if forwards then entry.slotmapped + page else page) = .ok none

def Taken (amap : Amap) (entry : Entry) (slotadd : Nat) (forwards : Bool) (s : Nat) : Prop :=
  if forwards then entry.arPageoff + entry.slotmapped ≤ s ∧ s < entry.arPageoff + entry.slotmapped + slotadd ∧ s < amap.amNslot
  else if slotadd ≤ entry.arPageoff then entry.arPageoff - slotadd ≤ s ∧ s < entry.arPageoff
  else slotadd + entry.slotmapped ≤ amap.amMaxslot ∧ amap.amMaxslot - entry.slotmapped - slotadd ≤ s ∧ s < entry.arPageoff

variable {amap amap' next : Amap} {anons anons' : Anons} {memory : Memory} {entry : Entry} {view : Option (Nat → Int)}
  {rounds curslot slotlen slotadd pageoff error : Nat} {forwards : Bool}

theorem lookup_ok (amap : Amap) (fits : amap.amNslot ≤ amap.amMaxslot) {page pageoff : Nat} (inside : page + pageoff < amap.amNslot) :
    amapLookup amap pageoff page = .ok (amap.amAnon (page + pageoff)) := by
  rw [amapLookup,if_neg (by omega),read_ok (by omega)]

theorem adjref_anon (sound : Sound amap) (shown : Shown amap.amPpref amap.amNslot view) (range : curslot + slotlen ≤ amap.amNslot)
    (enough : amap.amNslot < rounds) (ran : adjrefIfUsed rounds amap anons curslot slotlen 1 = .ok (amap',anons')) :
    amap'.amAnon = amap.amAnon ∧ amap'.amNslot = amap.amNslot ∧ amap'.amMaxslot = amap.amMaxslot := by
  unfold adjrefIfUsed at ran
  cases cells : amap.amPpref with
  | cells pp =>
    rw [cells] at ran shown
    cases shown with
    | @cells _ counts _ tiles =>
      have counted := tiles.counted
      have more : ∀ s,curslot ≤ s → s < curslot + slotlen → 0 ≤ counts s + 1 := fun s low high => by
        have := counted s (zero_le _) (by omega)
        omega
      obtain ⟨amap₁,anons₁,wiped,pp',went,swept,_,_⟩ := adjref_ok sound cells tiles range more rounds enough anons
      rw [went] at ran
      cases ran
      refine ⟨funext fun s => ?_,swept.nslot,swept.maxslot⟩
      rw [swept.anon s,if_neg]
      rintro ⟨low,high,zero⟩
      rw [adjusted,if_pos ⟨low,high⟩] at zero
      have := counted s (zero_le _) (by omega)
      omega
  | absent | disabled =>
    rw [cells] at ran
    cases ran
    exact ⟨rfl,rfl,rfl⟩

theorem set_anon {offset ref len : Int} (ran : setIfUsed amap offset ref len = .ok amap') :
    amap'.amAnon = amap.amAnon ∧ amap'.amNslot = amap.amNslot ∧ amap'.amMaxslot = amap.amMaxslot := by
  unfold setIfUsed at ran
  split at ran
  · obtain ⟨pp,_,ran⟩ := bind_ok ran
    cases ran
    exact ⟨rfl,rfl,rfl⟩
  cases ran
  exact ⟨rfl,rfl,rfl⟩

theorem growPpref_anon {grown : Amap} {newppref : Option (Nat → Int)} {maxslot slotend slotneed : Nat} (sound : Sound grown)
    (shown : Shown grown.amPpref grown.amNslot view) (enough : grown.amNslot < rounds)
    (ran : growPpref rounds grown anons newppref maxslot slotend slotneed = .ok (amap',anons')) :
    amap'.amAnon = grown.amAnon ∧ amap'.amMaxslot = grown.amMaxslot := by
  unfold growPpref at ran
  split at ran
  · next newpp pp cells =>
    obtain ⟨pp₁,copied,ran⟩ := bind_ok ran
    obtain ⟨pp₂,cleared,ran⟩ := bind_ok ran
    obtain ⟨⟨amap₁,anons₁⟩,adjusted,ran⟩ := bind_ok ran
    obtain ⟨amap₂,marked,ran⟩ := bind_ok ran
    cases ran
    obtain ⟨_,_,rfl⟩ := copy_inv copied
    obtain ⟨_,rfl⟩ := fill_inv cleared
    rw [cells] at shown
    cases shown with
    | @cells _ counts _ tiles =>
      have base : Sound {grown with amPpref := .cells (filled (placed newpp 0 pp 0 grown.amNslot) grown.amNslot (grown.amMaxslot - grown.amNslot) 0)} :=
        ⟨sound.fits,sound.indexed⟩
      have again : Tiles (filled (placed newpp 0 pp 0 grown.amNslot) grown.amNslot (grown.amMaxslot - grown.amNslot) 0) counts 0 grown.amNslot :=
        tiles.congr (fun k _ high => by rw [filled_outside (.inl high),placed_inside (zero_le _) (by omega)]; rfl) fun _ _ _ => rfl
      have first : amap₁.amAnon = grown.amAnon ∧ amap₁.amMaxslot = grown.amMaxslot := by
        split at adjusted
        · next less =>
          obtain ⟨anon,_,max⟩ := adjref_anon base (.cells again) (by dsimp only; omega) enough adjusted
          exact ⟨anon,max⟩
        cases adjusted
        exact ⟨rfl,rfl⟩
      obtain ⟨anon,_,max⟩ := set_anon marked
      exact ⟨anon.trans first.1,max.trans first.2⟩
  · cases ran
    exact ⟨rfl,rfl⟩
  · cases ran
    exact ⟨rfl,rfl⟩

theorem growArrays_anon {newsl newbck : Nat → Nat} {newover : Nat → Option Nat} {slotalloc : Nat}
    (ran : growArrays amap newsl newbck newover slotalloc = .ok amap') : amap'.amPpref = amap.amPpref ∧
      ∀ s < slotalloc,amap'.amAnon s = if s < amap.amNslot then amap.amAnon s else none := by
  obtain ⟨slots,_,ran⟩ := bind_ok ran
  obtain ⟨anon₁,copied,ran⟩ := bind_ok ran
  obtain ⟨anon₂,cleared,ran⟩ := bind_ok ran
  obtain ⟨bckptr,_,ran⟩ := bind_ok ran
  cases ran
  obtain ⟨_,_,rfl⟩ := copy_inv copied
  obtain ⟨_,rfl⟩ := fill_inv cleared
  refine ⟨rfl,fun s lt => ?_⟩
  dsimp only
  split_ifs with old
  · rw [filled_outside (.inl old),placed_inside (zero_le _) (by omega)]
    rfl
  · rw [filled_inside (by omega) (by omega)]

theorem forwards_spec (kept : Kept amap view) (inside : entry.arPageoff + entry.slotmapped ≤ amap.amNslot) (enough : amap.amNslot < rounds)
    (ran : amapExtend rounds memory amap anons entry slotadd true = .ok (0,pageoff,next,anons')) :
    pageoff = entry.arPageoff ∧ next.amNslot ≤ next.amMaxslot ∧ entry.arPageoff + entry.slotmapped + slotadd ≤ next.amNslot ∧
      ∀ s < entry.arPageoff + entry.slotmapped + slotadd,next.amAnon s = if s < amap.amNslot then amap.amAnon s else none := by
  have fits := kept.sound.fits
  have tail : ∀ s,¬s < amap.amNslot → s < amap.amMaxslot → amap.amAnon s = none := fun s out lt => by
    by_contra some_
    have := (kept.sound.indexed.place (show Live amap s from ⟨lt,some_⟩)).2.2
    omega
  unfold amapExtend at ran
  simp only [true_and,if_true,not_true_eq_false,false_and,if_false,ge_iff_le] at ran
  split at ran
  · cases ran
  split at ran
  · next room =>
    obtain ⟨⟨amap₁,anons₁⟩,adjusted,ran⟩ := bind_ok ran
    cases ran
    obtain ⟨anon,nslot,max⟩ := adjref_anon kept.sound kept.shown (by omega) enough adjusted
    refine ⟨rfl,show amap₁.amNslot ≤ amap₁.amMaxslot by omega,show _ ≤ amap₁.amNslot by omega,fun s lt => ?_⟩
    rw [anon,if_pos (by omega)]
  split at ran
  · next short room =>
    obtain ⟨⟨amap₁,anons₁⟩,adjusted,ran⟩ := bind_ok ran
    obtain ⟨amap₂,marked,ran⟩ := bind_ok ran
    cases ran
    have first : amap₁.amAnon = amap.amAnon ∧ amap₁.amMaxslot = amap.amMaxslot := by
      split at adjusted
      · obtain ⟨anon,_,max⟩ := adjref_anon kept.sound kept.shown (by omega) enough adjusted
        exact ⟨anon,max⟩
      cases adjusted
      exact ⟨rfl,rfl⟩
    obtain ⟨anon,_,max⟩ : amap₂.amAnon = amap₁.amAnon ∧ amap₂.amNslot = amap₁.amNslot ∧ amap₂.amMaxslot = amap₁.amMaxslot := set_anon marked
    refine ⟨rfl,show entry.arPageoff + entry.slotmapped + slotadd ≤ amap₂.amMaxslot by omega,le_refl _,fun s lt => ?_⟩
    rw [anon,first.1]
    split
    · rfl
    · next out => exact tail s out (by omega)
  split at ran
  · cases ran
  split at ran
  · obtain ⟨grown,arrays,ran⟩ := bind_ok ran
    obtain ⟨⟨amap₁,anons₁⟩,counted,ran⟩ := bind_ok ran
    cases ran
    have room := amapRoundupSlots_le (entry.arPageoff + entry.slotmapped + slotadd)
    obtain ⟨sound₁,maxslot₁,nslot₁⟩ := growArrays_sound kept.sound (by omega) arrays
    obtain ⟨ppref₁,anon₁⟩ := growArrays_anon arrays
    obtain ⟨anon,max⟩ := growPpref_anon sound₁ (by rw [ppref₁,nslot₁]; exact kept.shown) (by omega) counted
    refine ⟨rfl,show entry.arPageoff + entry.slotmapped + slotadd ≤ amap₁.amMaxslot by omega,le_refl _,fun s lt => ?_⟩
    rw [anon,anon₁ s (by omega)]
  · cases ran

theorem slideUp_anon {slotoff slotmapped : Nat} (room : slotadd + slotmapped ≤ amap.amMaxslot) (low : slotoff < slotadd)
    (ran : slideUp amap slotoff slotmapped slotadd = .ok amap') : amap'.amNslot = amap.amMaxslot ∧ amap'.amMaxslot = amap.amMaxslot ∧
      (∀ i < slotmapped,amap'.amAnon (amap.amMaxslot - slotmapped + i) = amap.amAnon (slotoff + i)) ∧
      ∀ s < amap.amMaxslot - slotmapped,amap'.amAnon s = if s < slotoff then amap.amAnon s else none := by
  obtain ⟨ppref,_,ran⟩ := bind_ok ran
  obtain ⟨anon₁,copied,ran⟩ := bind_ok ran
  obtain ⟨anon₂,cleared,ran⟩ := bind_ok ran
  obtain ⟨bckptr,_,ran⟩ := bind_ok ran
  cases ran
  obtain ⟨_,_,rfl⟩ := copy_inv copied
  obtain ⟨_,rfl⟩ := fill_inv cleared
  refine ⟨rfl,rfl,fun i lt => ?_,fun s lt => ?_⟩
  · dsimp only
    rw [filled_outside (by omega),placed_inside (by omega) (by omega)]
    congr 1
    omega
  dsimp only
  split_ifs with old
  · rw [filled_outside (.inl old),placed_outside (.inl lt)]
  · rw [filled_inside (by omega) (by omega)]

theorem growBackwards_anon {newsl newbck : Nat → Nat} {newover : Nat → Option Nat} {newppref : Option (Nat → Int)}
    {slotoff slotmapped slotneed slotalloc : Nat} (room : slotmapped ≤ slotalloc)
    (ran : growBackwards amap newsl newbck newover newppref slotoff slotmapped slotneed slotalloc = .ok amap') :
    amap'.amNslot = slotalloc ∧ amap'.amMaxslot = slotalloc ∧
      (∀ i < slotmapped,amap'.amAnon (slotalloc - slotmapped + i) = amap.amAnon (slotoff + i)) ∧
      ∀ s < slotalloc - slotmapped,amap'.amAnon s = none := by
  obtain ⟨anon₁,copied,ran⟩ := bind_ok ran
  obtain ⟨anon₂,cleared,ran⟩ := bind_ok ran
  obtain ⟨bckptr,_,ran⟩ := bind_ok ran
  obtain ⟨ppref,_,ran⟩ := bind_ok ran
  cases ran
  obtain ⟨_,_,rfl⟩ := copy_inv copied
  obtain ⟨_,rfl⟩ := fill_inv cleared
  refine ⟨rfl,rfl,fun i lt => ?_,fun s lt => ?_⟩
  · dsimp only
    rw [filled_outside (by omega),placed_inside (by omega) (by omega)]
    congr 1
    omega
  dsimp only
  rw [filled_inside (zero_le _) (by omega)]

theorem backwards_spec (kept : Kept amap view) (inside : entry.arPageoff + entry.slotmapped ≤ amap.amNslot) (enough : amap.amNslot < rounds)
    (ran : amapExtend rounds memory amap anons entry slotadd false = .ok (0,pageoff,next,anons')) :
    next.amNslot ≤ next.amMaxslot ∧ pageoff + slotadd + entry.slotmapped ≤ next.amNslot ∧
      (∀ i < entry.slotmapped,next.amAnon (pageoff + slotadd + i) = amap.amAnon (entry.arPageoff + i)) ∧
      (∀ j < slotadd,Taken amap entry slotadd false (pageoff + j) → next.amAnon (pageoff + j) = amap.amAnon (pageoff + j)) ∧
      (∀ j < slotadd,¬Taken amap entry slotadd false (pageoff + j) → next.amAnon (pageoff + j) = none) ∧
      ∀ s,Taken amap entry slotadd false s → pageoff ≤ s ∧ s < pageoff + slotadd := by
  have fits := kept.sound.fits
  unfold Taken
  unfold amapExtend at ran
  simp only [Bool.false_eq_true,not_false_eq_true,true_and,false_and,if_false,ge_iff_le] at ran ⊢
  split at ran
  · cases ran
  split at ran
  · next enoughBelow =>
    obtain ⟨⟨amap₁,anons₁⟩,adjusted,ran⟩ := bind_ok ran
    cases ran
    obtain ⟨anon,nslot,max⟩ : amap₁.amAnon = amap.amAnon ∧ amap₁.amNslot = amap.amNslot ∧ amap₁.amMaxslot = amap.amMaxslot :=
      adjref_anon kept.sound kept.shown (by omega) enough adjusted
    simp only [if_pos enoughBelow]
    refine ⟨by omega,by omega,fun i lt => ?_,fun j lt taken => ?_,fun j lt out => ?_,fun s taken => by omega⟩
    · rw [anon,Nat.sub_add_cancel enoughBelow]
    · rw [anon]
    · exact absurd ⟨by omega,by omega⟩ out
  next back =>
  simp only [if_neg back]
  split at ran
  · next room =>
    obtain ⟨amap₁,slid,ran⟩ := bind_ok ran
    cases ran
    obtain ⟨nslot,max,pages,rest⟩ := slideUp_anon room (by omega) slid
    refine ⟨by omega,by omega,fun i lt => ?_,fun j lt taken => ?_,fun j lt out => ?_,fun s taken => by omega⟩
    · rw [Nat.sub_add_cancel (by omega)]
      exact pages i lt
    · rw [rest _ (by omega),if_pos taken.2.2]
    · rw [rest _ (by omega),if_neg fun low => out ⟨room,by omega,low⟩]
  next short =>
  split at ran
  · cases ran
  split at ran
  · obtain ⟨amap₁,grown,ran⟩ := bind_ok ran
    cases ran
    have room := amapRoundupSlots_le (slotadd + entry.slotmapped)
    obtain ⟨nslot,max,pages,rest⟩ := growBackwards_anon (by omega) grown
    refine ⟨by omega,by omega,fun i lt => ?_,fun j lt taken => absurd taken.1 short,fun j lt _ => rest _ (by omega),fun s taken => absurd taken.1 short⟩
    rw [Nat.sub_add_cancel (by omega)]
    exact pages i lt
  · cases ran

-- The new pages are fresh exactly where no anon lies in the slots that are taken over.
theorem extend_exact (amap : Amap) (view : Option (Nat → Int)) (kept : Kept amap view) (entry : Entry)
    (inside : entry.arPageoff + entry.slotmapped ≤ amap.amNslot) (rounds : Nat) (enough : amap.amNslot < rounds) (memory : Memory) (anons anons' : Anons)
    (slotadd pageoff : Nat) (forwards : Bool) (next : Amap)
    (ran : amapExtend rounds memory amap anons entry slotadd forwards = .ok (0,pageoff,next,anons')) :
    Extended amap entry slotadd forwards next pageoff ↔ ∀ s,Taken amap entry slotadd forwards s → amap.amAnon s = none := by
  have before : ∀ page < entry.slotmapped,amapLookup amap entry.arPageoff page = .ok (amap.amAnon (page + entry.arPageoff)) :=
    fun page lt => lookup_ok amap kept.sound.fits (by omega)
  cases forwards with
  | true =>
    obtain ⟨rfl,fits,room,anon⟩ := forwards_spec kept inside enough ran
    have shows : ∀ page < entry.slotmapped + slotadd,amapLookup next entry.arPageoff page =
        .ok (if page + entry.arPageoff < amap.amNslot then amap.amAnon (page + entry.arPageoff) else none) := fun page lt => by
      rw [lookup_ok next fits (by omega),anon _ (by omega)]
    constructor
    · rintro ⟨_,fresh⟩ s taken
      unfold Taken at taken
      rw [if_pos rfl] at taken
      have here := fresh (s - (entry.arPageoff + entry.slotmapped)) (by omega)
      have place : entry.slotmapped + (s - (entry.arPageoff + entry.slotmapped)) + entry.arPageoff = s := by omega
      rw [if_pos rfl,shows _ (by omega),place,if_pos taken.2.2] at here
      exact Except.ok.inj here
    · intro empty
      refine ⟨fun page lt => ?_,fun page lt => ?_⟩
      · rw [if_pos rfl,shows page (by omega),if_pos (by omega),before page lt]
      rw [if_pos rfl,shows _ (by omega)]
      split
      · next low =>
        rw [empty _ (by unfold Taken; rw [if_pos rfl]; omega)]
      · rfl
  | false =>
    obtain ⟨fits,room,pages,taken_,clear_,only⟩ := backwards_spec kept inside enough ran
    have shows : ∀ page < slotadd,amapLookup next pageoff page = .ok (next.amAnon (pageoff + page)) := fun page lt => by
      rw [lookup_ok next fits (by omega),add_comm]
    constructor
    · rintro ⟨_,fresh⟩ s taken
      obtain ⟨low,high⟩ := only s taken
      have here := fresh (s - pageoff) (by omega)
      have place : pageoff + (s - pageoff) = s := by omega
      rw [if_neg Bool.false_ne_true,shows _ (by omega),place] at here
      have same := taken_ (s - pageoff) (by omega) (by rwa [place])
      rw [place] at same
      rw [← same]
      exact Except.ok.inj here
    · intro empty
      refine ⟨fun page lt => ?_,fun page lt => ?_⟩
      · have place : slotadd + page + pageoff = pageoff + slotadd + page := by omega
        rw [if_neg Bool.false_ne_true,lookup_ok next fits (by omega),place,pages page lt,before page lt,add_comm page]
      rw [if_neg Bool.false_ne_true,shows page lt]
      by_cases taken : Taken amap entry slotadd false (pageoff + page)
      · rw [taken_ page lt taken,empty _ taken]
      · rw [clear_ page lt taken]

-- A new amap of four slots; its entry maps the last two.
theorem extend_exact_four : ∃ amap,amapExtend 5 ⟨true,none,none,none,none⟩ amap ⟨fun _ => 1,[]⟩ ⟨2,2⟩ 2 false = .ok (0,0,amap,⟨fun _ => 1,[]⟩) ∧
    (Extended amap ⟨2,2⟩ 2 false amap 0 ↔ ∀ s,Taken amap ⟨2,2⟩ 2 false s → amap.amAnon s = none) := by
  have made : amapAlloc ⟨true,some fun _ => 0,some fun _ => 0,some fun _ => none,none⟩ 4 0 = .ok (some _) := rfl
  have kept : Kept _ none := ⟨amapAlloc_sound made,by decide,.absent⟩
  refine ⟨_,?ran,extend_exact _ none kept ⟨2,2⟩ (by decide) 5 (by decide) _ _ _ 2 0 false _ ?ran⟩
  rfl

-- The anon of slot 0 stays when its entry is unmapped without memory for partial references, and
-- is seen again when the entry of slots 2 and 3 grows down.
theorem extend_leftover : ¬∀ amap view,Reached true amap → Kept amap view → ∀ entry rounds memory anons anons' slotadd pageoff forwards next,
    entry.arPageoff + entry.slotmapped ≤ amap.amNslot → amap.amNslot < rounds →
      amapExtend rounds memory amap anons entry slotadd forwards = .ok (0,pageoff,next,anons') → Extended amap entry slotadd forwards next pageoff := by
  intro all
  let memory : Memory := ⟨true,some fun _ => 0,some fun _ => 0,some fun _ => none,none⟩
  let anons : Anons := ⟨fun _ => 1,[]⟩
  have made : amapAlloc memory 4 0 = .ok (some _) := rfl
  have added := Reached.added (show Reached true _ from .allocated made) (show amapAdd _ 0 7 false = .ok _ from rfl)
  have split := Reached.split added (show amapSplitref memory _ 0 2 = .ok _ from rfl)
  have left := Reached.unreferenced split (show amapUnref 0 memory _ anons 0 2 false = .ok (some _,_) from rfl)
  have extended := all _ none left ⟨left.sound,by decide,.disabled⟩ ⟨2,2⟩ 5 memory anons anons 2 0 false _ (by decide) (by decide) rfl
  have seen : Except.ok (some 7) = Except.ok (ε := Halt) none := extended.fresh 0 (by decide)
  cases seen
end NetbsdAvr32.Amap
