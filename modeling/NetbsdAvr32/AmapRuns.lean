import NetbsdAvr32.Amap

-- The slot index over every run of the operations on an amap.
namespace NetbsdAvr32.Amap
open Cells Function Packed Outcome

structure Steady (amap amap' : Amap) : Prop where
  sound : Sound amap'
  maxslot : amap'.amMaxslot = amap.amMaxslot
  nslot : amap'.amNslot = amap.amNslot

def Moves (memory : Memory) (amap : Amap) (entry : Entry) (slotadd : Nat) (forwards : Bool) : Prop :=
  forwards = false ∧ entry.arPageoff < slotadd ∧
    (slotadd + entry.slotmapped ≤ amap.amMaxslot ∨
      slotadd + entry.slotmapped < uvmAmapLarge ∧ memory.slots.isSome ∧ memory.bckptr.isSome ∧ memory.anon.isSome)

def Confined (amap : Amap) (entry : Entry) : Prop :=
  ∀ s, Live amap s → entry.arPageoff ≤ s ∧ s < entry.arPageoff + entry.slotmapped

-- The amaps of every run; in a guarded one slots are moved up only where no anon
-- lies outside the entry.
inductive Reached (guarded : Bool) : Amap → Prop
  | allocated {memory : Memory} (made : amapAlloc memory slots padslots = .ok (some amap)) : Reached guarded amap
  | added (before : Reached guarded amap) (ran : amapAdd amap slot anon replace = .ok amap') : Reached guarded amap'
  | unadded (before : Reached guarded amap) (ran : amapUnadd amap slot = .ok amap') : Reached guarded amap'
  | wiped (before : Reached guarded amap) (ran : amapWiperange amap anons slotoff slots = .ok (amap',anons')) :
      Reached guarded amap'
  | extended (before : Reached guarded amap)
      (confined : guarded = true → Moves memory amap entry slotadd forwards → Confined amap entry)
      (ran : amapExtend rounds memory amap anons entry slotadd forwards = .ok (error,pageoff,amap',anons')) : Reached guarded amap'
  | copiedFrom (before : Reached guarded srcamap)
      (ran : amapCopy rounds memory srcamap anons entry = .ok (copied,srcamap',anons')) : Reached guarded srcamap'
  | lockedFrom (before : Reached guarded srcamap) (made : amapAlloc1 memory entry.slotmapped 0 = some amap)
      (ran : copyLocked rounds amap srcamap anons entry = .ok (copied,srcamap',anons')) : Reached guarded srcamap'
  | copiedTo (before : Reached guarded srcamap) (made : amapAlloc1 memory entry.slotmapped 0 = some amap)
      (ran : copyLocked rounds amap srcamap anons entry = .ok (.installed amap',srcamap',anons')) : Reached guarded amap'
  | split (before : Reached guarded amap) (ran : amapSplitref memory amap pageoff leftslots = .ok amap') : Reached guarded amap'
  | referenced (before : Reached guarded amap)
      (ran : amapRef rounds memory amap anons offset len shared refall = .ok (amap',anons')) : Reached guarded amap'
  | unreferenced (before : Reached guarded amap)
      (ran : amapUnref rounds memory amap anons offset len all = .ok (some amap',anons')) : Reached guarded amap'

variable {amap amap' srcamap : Amap} {anons anons' : Anons} {memory : Memory} {ppref ppref' : Nat → Int} {rounds : Nat}
  {entry : Entry}

theorem adjust_steady (stopslot adjval prevlcv prevref prevlen : Int) (sound : Sound amap)
    (ran : adjust stopslot adjval prevlcv prevref prevlen rounds amap anons ppref lcv = .ok (amap',anons',wiped)) :
    Steady amap amap' := by
  induction rounds generalizing amap anons ppref lcv wiped with
  | zero => cases ran
  | succ rounds ih =>
    rw [adjust] at ran
    split at ran
    · obtain ⟨⟨ref,len⟩,_,ran⟩ := bind_ok ran
      obtain ⟨⟨ppref,len⟩,_,ran⟩ := bind_ok ran
      dsimp only at ran
      split at ran
      · cases ran
      obtain ⟨ppref,_,ran⟩ := bind_ok ran
      split at ran
      · obtain ⟨⟨amap₁,anons₁⟩,wipe,ran⟩ := bind_ok ran
        obtain ⟨⟨amap₂,anons₂,wiped₂⟩,inner,ran⟩ := bind_ok ran
        cases ran
        obtain ⟨sound₁,same⟩ := amapWiperange_sound sound _ _ wipe
        have rest := ih sound₁ inner
        exact ⟨rest.sound,rest.maxslot.trans same.maxslot,rest.nslot.trans same.nslot⟩
      · exact ih sound ran
    cases ran
    exact ⟨⟨sound.fits,sound.indexed⟩,rfl,rfl⟩

section
variable (sound : Sound amap)
include sound

theorem amapPpAdjref_steady 
    (ran : amapPpAdjref rounds amap anons curslot slotlen adjval = .ok (amap',anons',wiped)) : Steady amap amap' := by
  unfold amapPpAdjref at ran
  split at ran
  · obtain ⟨⟨ppref,lcv,prevlcv⟩,_,ran⟩ := bind_ok ran
    obtain ⟨⟨prevref,prevlen⟩,_,ran⟩ := bind_ok ran
    dsimp only at ran
    split at ran
    · cases ran
    · exact adjust_steady _ _ _ _ _ sound ran
  · cases ran

theorem adjrefIfUsed_steady 
    (ran : adjrefIfUsed rounds amap anons curslot slotlen adjval = .ok (amap',anons')) : Steady amap amap' := by
  unfold adjrefIfUsed at ran
  split at ran
  · obtain ⟨⟨amap₁,anons₁,wiped⟩,inner,ran⟩ := bind_ok ran
    cases ran
    exact amapPpAdjref_steady sound inner
  cases ran
  exact ⟨sound,rfl,rfl⟩

theorem setIfUsed_steady (ran : setIfUsed amap offset ref len = .ok amap') : Steady amap amap' := by
  unfold setIfUsed at ran
  split at ran
  · obtain ⟨ppref,_,ran⟩ := bind_ok ran
    cases ran
    exact ⟨⟨sound.fits,sound.indexed⟩,rfl,rfl⟩
  cases ran
  exact ⟨sound,rfl,rfl⟩

theorem amapPpEstablish_steady (ran : amapPpEstablish memory amap offset = .ok amap') : Steady amap amap' := by
  unfold amapPpEstablish at ran
  split at ran
  · cases ran
    exact ⟨⟨sound.fits,sound.indexed⟩,rfl,rfl⟩
  obtain ⟨_,_,ran⟩ := bind_ok ran
  obtain ⟨_,_,ran⟩ := bind_ok ran
  obtain ⟨_,_,ran⟩ := bind_ok ran
  cases ran
  exact ⟨⟨sound.fits,sound.indexed⟩,rfl,rfl⟩

theorem establishIf_steady (ran : establishIf memory amap offset partly = .ok amap') : Steady amap amap' := by
  unfold establishIf at ran
  split at ran
  · split at ran
    · exact amapPpEstablish_steady sound ran
    cases ran
    exact ⟨sound,rfl,rfl⟩
  cases ran
  exact ⟨sound,rfl,rfl⟩

theorem Sound.enlarge (more : amap.amNslot ≤ n) (room : n ≤ amap.amMaxslot) : Sound {amap with amNslot := n} :=
  ⟨room,sound.indexed.congr (fun _ => Iff.rfl) more⟩
end

theorem amapRoundupSlots_le (n : Nat) : n ≤ amapRoundupSlots n := by
  unfold amapRoundupSlots kmemRoundupSize alignbytes sizeofInt
  omega

theorem amapAlloc_sound (made : amapAlloc memory n padslots = .ok (some amap)) : Sound amap := by
  unfold amapAlloc at made
  cases first : amapAlloc1 memory n padslots with
  | none =>
    rw [first] at made
    cases made
  | some fresh =>
    rw [first] at made
    obtain ⟨amAnon,filled,made⟩ := bind_ok made
    cases made
    obtain ⟨_,rfl⟩ := fill_inv filled
    unfold amapAlloc1 at first
    split at first
    · split at first
      · cases first
        refine ⟨Nat.le_trans (Nat.le_add_right _ _) (amapRoundupSlots_le _),Indexed.empty _ _ _ fun s live => live.2 ?_⟩
        exact filled_inside (Nat.zero_le _) (by simpa using live.1)
      · cases first
    · cases first

theorem slid_indexed {slots bckptr : Nat → Nat} {ahead : Nat → Option Nat} {low slotspace total : Nat} (sound : Sound amap)
    (confined : ∀ s, Live amap s → slotoff ≤ s ∧ s < slotoff + slotmapped) (end_ : slotspace + slotmapped = total) (source : slotoff + slotmapped ≤ amap.amMaxslot)
    (front : low ≤ slotspace) (below : ∀ t < low, ahead t = none) (list : ∀ i < amap.amNused, slots i = amap.amSlots i - slotoff + slotspace) :
    Indexed slots (placed bckptr slotspace amap.amBckptr slotoff slotmapped) amap.amNused total
      fun t => t < total ∧ filled (placed ahead slotspace amap.amAnon slotoff slotmapped) low (slotspace - low) none t ≠ none := by
  have moved : ∀ t, (t < total ∧ filled (placed ahead slotspace amap.amAnon slotoff slotmapped) low (slotspace - low) none t ≠ none) ↔
      ∃ s, Live amap s ∧ t = s - slotoff + slotspace := by
    intro t
    constructor
    · rintro ⟨inside,held⟩
      by_cases early : t < low
      · rw [filled_outside (.inl early),placed_outside (.inl (by omega)),below t early] at held
        exact (held rfl).elim
      by_cases gap : t < slotspace
      · rw [filled_inside (by omega) (by omega)] at held
        exact (held rfl).elim
      rw [filled_outside (.inr (by omega)),placed_inside (by omega) (by omega)] at held
      exact ⟨t - slotspace + slotoff,⟨by omega,held⟩,by omega⟩
    rintro ⟨s,live,rfl⟩
    obtain ⟨_,high⟩ := confined s live
    refine ⟨by omega,?_⟩
    rw [filled_outside (.inr (by omega)),placed_inside (by omega) (by omega)]
    have same : s - slotoff + slotspace - slotspace + slotoff = s := by omega
    rw [same]
    exact live.2
  refine sound.indexed.shift (fun i lt => (confined _ (sound.indexed.held i lt)).1) list (fun s live => ?_) moved (fun s live => ?_)
  · obtain ⟨low,high⟩ := confined s live
    rw [placed_inside (by omega) (by omega)]
    congr 1
    omega
  obtain ⟨low,high⟩ := confined s live
  omega

theorem slideUp_sound (sound : Sound amap) (confined : ∀ s, Live amap s → slotoff ≤ s ∧ s < slotoff + slotmapped)
    (room : slotadd + slotmapped ≤ amap.amMaxslot) (back : slotoff < slotadd)
    (ran : slideUp amap slotoff slotmapped slotadd = .ok amap') : Sound amap' := by
  obtain ⟨ppref,_,ran⟩ := bind_ok ran
  obtain ⟨anon₁,copied,ran⟩ := bind_ok ran
  obtain ⟨anon₂,cleared,ran⟩ := bind_ok ran
  obtain ⟨bckptr,copiedBack,ran⟩ := bind_ok ran
  cases ran
  obtain ⟨_,_,rfl⟩ := copy_inv copied
  obtain ⟨_,rfl⟩ := fill_inv cleared
  obtain ⟨_,_,rfl⟩ := copy_inv copiedBack
  refine ⟨Nat.le_refl _,slid_indexed sound confined (by dsimp only; omega) (by omega) (by omega) (fun t low => ?_) fun i lt => ?_⟩
  · by_contra held
    have := confined t ⟨by omega,held⟩
    omega
  have := (confined _ (sound.indexed.held i lt)).1
  dsimp only
  rw [if_pos lt]
  omega

theorem growBackwards_sound (sound : Sound amap) (confined : ∀ s, Live amap s → slotoff ≤ s ∧ s < slotoff + slotmapped)
    (need : slotneed = slotadd + slotmapped) (room : slotneed ≤ slotalloc)
    (ran : growBackwards amap newsl newbck newover newppref slotoff slotmapped slotneed slotalloc = .ok amap') : Sound amap' := by
  obtain ⟨anon₁,copied,ran⟩ := bind_ok ran
  obtain ⟨anon₂,cleared,ran⟩ := bind_ok ran
  obtain ⟨bckptr,copiedBack,ran⟩ := bind_ok ran
  obtain ⟨ppref,_,ran⟩ := bind_ok ran
  cases ran
  obtain ⟨_,_,rfl⟩ := copy_inv copied
  obtain ⟨_,rfl⟩ := fill_inv cleared
  obtain ⟨_,_,rfl⟩ := copy_inv copiedBack
  refine ⟨Nat.le_refl _,slid_indexed sound confined (by dsimp only; omega) (by omega) (Nat.zero_le _) (fun t low => absurd low (Nat.not_lt_zero t)) fun i lt => ?_⟩
  have := (confined _ (sound.indexed.held i lt)).1
  dsimp only
  rw [if_pos lt]
  omega

theorem growArrays_sound (sound : Sound amap) (room : amap.amNslot ≤ slotalloc)
    (ran : growArrays amap newsl newbck newover slotalloc = .ok amap') :
    Sound amap' ∧ amap'.amMaxslot = slotalloc ∧ amap'.amNslot = amap.amNslot := by
  obtain ⟨slots,copiedSlots,ran⟩ := bind_ok ran
  obtain ⟨anon₁,copied,ran⟩ := bind_ok ran
  obtain ⟨anon₂,cleared,ran⟩ := bind_ok ran
  obtain ⟨bckptr,copiedBack,ran⟩ := bind_ok ran
  cases ran
  obtain ⟨_,_,rfl⟩ := copy_inv copiedSlots
  obtain ⟨_,_,rfl⟩ := copy_inv copied
  obtain ⟨_,rfl⟩ := fill_inv cleared
  obtain ⟨_,_,rfl⟩ := copy_inv copiedBack
  have list : ∀ i < amap.amNused, placed newsl 0 amap.amSlots 0 amap.amNused i = amap.amSlots i - 0 + 0 :=
    fun i lt => placed_inside (Nat.zero_le _) (by omega)
  refine ⟨⟨room,sound.indexed.shift (fun i lt => Nat.zero_le _) list (fun s live => ?_) (fun t => ?_) (fun s live => ?_)⟩,rfl,rfl⟩
  · have := (sound.indexed.place live).2.2
    exact placed_inside (Nat.zero_le _) (by omega)
  · constructor
    · rintro ⟨inside,held⟩
      dsimp only at inside held
      by_cases old : t < amap.amNslot
      · rw [filled_outside (.inl old),placed_inside (Nat.zero_le _) (by omega)] at held
        exact ⟨t,⟨by omega,held⟩,rfl⟩
      rw [filled_inside (by omega) (by omega)] at held
      exact (held rfl).elim
    rintro ⟨s,live,same⟩
    have inside := (sound.indexed.place (show Live amap s from live)).2.2
    rw [show t = s from same]
    refine ⟨by dsimp only; omega,?_⟩
    dsimp only
    rw [filled_outside (.inl (by omega)),placed_inside (Nat.zero_le _) (by omega)]
    exact live.2
  have := (sound.indexed.place live).2.2
  omega

theorem growPpref_steady {grown : Amap} (sound : Sound grown)
    (ran : growPpref rounds grown anons newppref maxslot slotend slotneed = .ok (amap',anons')) : Steady grown amap' := by
  unfold growPpref at ran
  split at ran
  · obtain ⟨pp₁,_,ran⟩ := bind_ok ran
    obtain ⟨pp₂,_,ran⟩ := bind_ok ran
    obtain ⟨⟨grown₁,anons₁⟩,adjusted,ran⟩ := bind_ok ran
    obtain ⟨grown₂,marked,ran⟩ := bind_ok ran
    cases ran
    have base : Sound {grown with amPpref := .cells pp₂} := ⟨sound.fits,sound.indexed⟩
    have first : Steady grown grown₁ := by
      split at adjusted
      · have steady := adjrefIfUsed_steady base adjusted
        exact ⟨steady.sound,steady.maxslot,steady.nslot⟩
      cases adjusted
      exact ⟨base,rfl,rfl⟩
    have second := setIfUsed_steady first.sound marked
    exact ⟨second.sound,second.maxslot.trans first.maxslot,second.nslot.trans first.nslot⟩
  · cases ran
    exact ⟨sound,rfl,rfl⟩
  cases ran
  exact ⟨⟨sound.fits,sound.indexed⟩,rfl,rfl⟩

theorem amapExtend_sound (sound : Sound amap) (confined : Moves memory amap entry slotadd forwards → Confined amap entry)
    (ran : amapExtend rounds memory amap anons entry slotadd forwards = .ok (error,pageoff,amap',anons')) : Sound amap' := by
  unfold amapExtend at ran
  cases forwards with
  | true =>
    simp only [true_and,if_true,not_true_eq_false,false_and,if_false,ge_iff_le] at ran
    split at ran
    · cases ran
    split at ran
    · obtain ⟨⟨amap₁,anons₁⟩,adjusted,ran⟩ := bind_ok ran
      cases ran
      exact (adjrefIfUsed_steady sound adjusted).sound
    split at ran
    · obtain ⟨⟨amap₁,anons₁⟩,adjusted,ran⟩ := bind_ok ran
      obtain ⟨amap₂,marked,ran⟩ := bind_ok ran
      cases ran
      have first : Steady amap amap₁ := by
        split at adjusted
        · exact adjrefIfUsed_steady sound adjusted
        cases adjusted
        exact ⟨sound,rfl,rfl⟩
      have second := setIfUsed_steady first.sound marked
      have nslot := second.nslot.trans first.nslot
      have maxslot := second.maxslot.trans first.maxslot
      exact second.sound.enlarge (by omega) (by omega)
    split at ran
    · cases ran
      exact sound
    split at ran
    · obtain ⟨grown,arrays,ran⟩ := bind_ok ran
      obtain ⟨⟨amap₁,anons₁⟩,counted,ran⟩ := bind_ok ran
      cases ran
      have enough := amapRoundupSlots_le (entry.arPageoff + entry.slotmapped + slotadd)
      obtain ⟨sound₁,maxslot₁,nslot₁⟩ := growArrays_sound sound (by omega) arrays
      have steady := growPpref_steady sound₁ counted
      have nslot := steady.nslot
      have maxslot := steady.maxslot
      exact steady.sound.enlarge (by omega) (by omega)
    cases ran
    exact sound
  | false =>
    simp only [Bool.false_eq_true,not_false_eq_true,true_and,false_and,if_false,ge_iff_le] at ran
    split at ran
    · cases ran
    split at ran
    · obtain ⟨⟨amap₁,anons₁⟩,adjusted,ran⟩ := bind_ok ran
      cases ran
      exact (adjrefIfUsed_steady sound adjusted).sound
    next back =>
    split at ran
    · next room =>
      obtain ⟨amap₁,slid,ran⟩ := bind_ok ran
      cases ran
      exact slideUp_sound sound (confined ⟨rfl,by omega,.inl room⟩) room (by omega) slid
    split at ran
    · cases ran
      exact sound
    split at ran
    · next newsl newbck newover sl bck excess =>
      obtain ⟨amap₁,grown,ran⟩ := bind_ok ran
      cases ran
      have moves : Moves memory amap entry slotadd false :=
        ⟨rfl,by omega,.inr ⟨by omega,by simp [sl],by simp [bck],by simp [excess]⟩⟩
      exact growBackwards_sound sound (confined moves) rfl (amapRoundupSlots_le _) grown
    cases ran
    exact sound

structure Copying (amap : Amap) (lcv : Nat) : Prop where
  fits : amap.amNslot ≤ amap.amMaxslot
  indexed : Indexed amap.amSlots amap.amBckptr amap.amNused lcv fun s => s < lcv ∧ amap.amAnon s ≠ none

theorem copySlots_sound (copying : Copying amap lcv) (left : Nat) (inside : lcv + left ≤ amap.amNslot)
    (ran : copySlots srcamap pageoff left lcv amap anons = .ok (amap',anons')) :
    Copying amap' (lcv + left) ∧ amap'.amMaxslot = amap.amMaxslot ∧ amap'.amNslot = amap.amNslot := by
  induction left generalizing lcv amap anons with
  | zero =>
    cases ran
    exact ⟨copying,rfl,rfl⟩
  | succ left ih =>
    obtain ⟨anon,_,ran⟩ := bind_ok ran
    obtain ⟨amAnon,wrote,ran⟩ := bind_ok ran
    obtain ⟨_,rfl⟩ := write_inv wrote
    have free : ¬(lcv < lcv ∧ amap.amAnon lcv ≠ none) := fun live => Nat.lt_irrefl _ live.1
    have next : lcv + (left + 1) = lcv + 1 + left := by omega
    rw [next]
    cases anon with
    | none =>
      have step : Copying {amap with amAnon := update amap.amAnon lcv none} (lcv + 1) := by
        refine ⟨copying.fits,copying.indexed.congr (fun s => ?_) (Nat.le_succ _)⟩
        by_cases same : s = lcv
        · simp [same]
        dsimp only
        rw [update_of_ne same]
        constructor
        · exact fun live => ⟨by omega,live.2⟩
        · exact fun live => ⟨by omega,live.2⟩
      have rest := ih step (by dsimp only; omega) ran
      exact rest
    | some anon =>
      obtain ⟨bckptr,wroteBack,ran⟩ := bind_ok ran
      obtain ⟨slots,wroteSlot,ran⟩ := bind_ok ran
      obtain ⟨_,rfl⟩ := write_inv wroteBack
      obtain ⟨_,rfl⟩ := write_inv wroteSlot
      have wider := copying.indexed.congr (fun _ => Iff.rfl) (Nat.le_succ lcv)
      have step : Copying {amap with
          amAnon := update amap.amAnon lcv (some anon),amBckptr := update amap.amBckptr lcv amap.amNused
          amSlots := update amap.amSlots amap.amNused lcv,amNused := amap.amNused + 1} (lcv + 1) := by
        refine ⟨copying.fits,wider.push free (Nat.lt_succ_self lcv) (fun s => ?_)⟩
        by_cases same : s = lcv
        · simp [same]
        dsimp only
        rw [update_of_ne same]
        constructor
        · exact fun live => .inl ⟨by omega,live.2⟩
        rintro (live | eq)
        · exact ⟨by omega,live.2⟩
        · exact (same eq).elim
      have rest := ih step (by dsimp only; omega) ran
      exact rest

theorem copyLocked_sound (sound : Sound srcamap) (made : amapAlloc1 memory entry.slotmapped 0 = some amap)
    (ran : copyLocked rounds amap srcamap anons entry = .ok (copied,srcamap',anons')) :
    Sound srcamap' ∧ ∀ amap', copied = .installed amap' → Sound amap' := by
  unfold copyLocked at ran
  split at ran
  · cases ran
    exact ⟨sound,fun amap' no => by cases no⟩
  obtain ⟨⟨amap₁,anons₁⟩,loop,ran⟩ := bind_ok ran
  obtain ⟨amAnon,filled_,ran⟩ := bind_ok ran
  obtain ⟨⟨src,anons₂⟩,adjusted,ran⟩ := bind_ok ran
  cases ran
  obtain ⟨_,rfl⟩ := fill_inv filled_
  have fresh : Copying amap 0 ∧ amap.amNslot = entry.slotmapped := by
    unfold amapAlloc1 at made
    split at made
    · split at made
      · cases made
        refine ⟨⟨Nat.le_trans (Nat.le_add_right _ 0) (amapRoundupSlots_le _),Indexed.empty _ _ _ fun s live => ?_⟩,rfl⟩
        exact Nat.not_lt_zero s live.1
      · cases made
    · cases made
  obtain ⟨copying,maxslot,nslot⟩ := copySlots_sound fresh.1 entry.slotmapped (by omega) loop
  have source : Sound {srcamap with
      amRef := srcamap.amRef - 1,amShared := srcamap.amShared && decide (srcamap.amRef - 1 ≠ 1)} := ⟨sound.fits,sound.indexed⟩
  refine ⟨(adjrefIfUsed_steady source adjusted).sound,fun amap' same => ?_⟩
  cases same
  have fits := copying.fits
  refine ⟨fits,copying.indexed.congr (fun s => ?_) (by dsimp only; omega)⟩
  unfold Live
  dsimp only
  constructor
  · rintro ⟨inside,held⟩
    by_cases old : s < entry.slotmapped
    · rw [filled_outside (.inl old)] at held
      exact ⟨by omega,held⟩
    rw [filled_inside (by omega) (by omega)] at held
    exact (held rfl).elim
  rintro ⟨old,held⟩
  rw [filled_outside (.inl (by omega))]
  exact ⟨by omega,held⟩

theorem amapCopy_sound (sound : Sound srcamap) (ran : amapCopy rounds memory srcamap anons entry = .ok (copied,srcamap',anons')) :
    Sound srcamap' := by
  unfold amapCopy at ran
  split at ran
  · cases ran
    exact sound
  split at ran
  · cases ran
    exact sound
  · next made => exact (copyLocked_sound sound made ran).1

theorem Sound.counts (sound : Sound amap) (ref : Int) (shared : Bool) : Sound {amap with amRef := ref,amShared := shared} :=
  ⟨sound.fits,sound.indexed⟩

theorem amapSplitref_sound (sound : Sound amap) (ran : amapSplitref memory amap pageoff leftslots = .ok amap') : Sound amap' := by
  unfold amapSplitref at ran
  split at ran
  · cases ran
  split at ran
  · cases ran
  obtain ⟨amap₁,established,ran⟩ := bind_ok ran
  cases ran
  have steady := establishIf_steady sound established
  exact ⟨steady.sound.fits,steady.sound.indexed⟩

theorem amapRef_sound (sound : Sound amap) (ran : amapRef rounds memory amap anons offset len shared refall = .ok (amap',anons')) :
    Sound amap' := by
  obtain ⟨amap₁,established,ran⟩ := bind_ok ran
  have steady := establishIf_steady (sound.counts amap.amRef (amap.amShared || shared)) established
  have counted : Sound {amap₁ with amRef := amap₁.amRef + 1} := ⟨steady.sound.fits,steady.sound.indexed⟩
  split at ran
  · exact (adjrefIfUsed_steady counted ran).sound
  · exact (adjrefIfUsed_steady counted ran).sound

theorem amapUnref_sound (sound : Sound amap)
    (ran : amapUnref rounds memory amap anons offset len all = .ok (some amap',anons')) : Sound amap' := by
  unfold amapUnref at ran
  split at ran
  · cases ran
  dsimp only at ran
  split at ran
  · split at ran
    · cases ran
      exact ⟨sound.fits,sound.indexed⟩
    obtain ⟨_,_,ran⟩ := bind_ok ran
    cases ran
  obtain ⟨amap₁,established,ran⟩ := bind_ok ran
  obtain ⟨⟨amap₂,anons₂⟩,adjusted,ran⟩ := bind_ok ran
  cases ran
  have steady := establishIf_steady (sound.counts (amap.amRef - 1) (amap.amShared && decide (amap.amRef - 1 ≠ 1))) established
  split at adjusted
  · exact (adjrefIfUsed_steady steady.sound adjusted).sound
  · exact (adjrefIfUsed_steady steady.sound adjusted).sound

theorem Reached.sound (reached : Reached true amap) : Sound amap := by
  induction reached with
  | allocated made => exact amapAlloc_sound made
  | added _ ran ih => exact amapAdd_sound ih ran
  | unadded _ ran ih => exact amapUnadd_sound ih ran
  | wiped _ ran ih => exact (amapWiperange_sound ih _ _ ran).1
  | extended _ confined ran ih => exact amapExtend_sound ih (confined rfl) ran
  | copiedFrom _ ran ih => exact amapCopy_sound ih ran
  | lockedFrom _ made ran ih => exact (copyLocked_sound ih made ran).1
  | copiedTo _ made ran ih => exact (copyLocked_sound ih made ran).2 _ rfl
  | split _ ran ih => exact amapSplitref_sound ih ran
  | referenced _ ran ih => exact amapRef_sound ih ran
  | unreferenced _ ran ih => exact amapUnref_sound ih ran

theorem foldl_dropAnon (anons : Anons) (l : List Nat) (a : Nat) :
    (l.foldl dropAnon anons).anRef a = anons.anRef a - l.count a := by
  induction l generalizing anons with
  | nil => simp
  | cons b l ih =>
    rw [List.foldl_cons,ih,List.count_cons]
    unfold dropAnon
    by_cases same : b = a
    · subst same
      simp
      omega
    · simp [update_of_ne (Ne.symm same),same]

-- am_slots lists exactly the slots in use, each once and with its place in am_bckptr.
def SlotIndex (amap : Amap) : Prop :=
  (∀ i < amap.amNused, amap.amSlots i < amap.amNslot) ∧
    (∀ i < amap.amNused, ∀ j < amap.amNused, amap.amSlots i = amap.amSlots j → i = j) ∧
    (∀ s < amap.amMaxslot, amap.amAnon s ≠ none ↔ ∃ i < amap.amNused, amap.amSlots i = s) ∧
    ∀ i < amap.amNused, amap.amBckptr (amap.amSlots i) = i

-- amap_wiperange empties the range, and drops one reference for each anon in it.
def WipesRange (amap : Amap) : Prop :=
  ∀ off n anons, off + n ≤ amap.amNslot → ∃ (slots : List Nat) (amap' : Amap) (anons' : Anons), amapWiperange amap anons off n = .ok (amap',anons') ∧
    slots.Nodup ∧ (∀ s, s ∈ slots ↔ off ≤ s ∧ s < off + n ∧ amap.amAnon s ≠ none) ∧
    (∀ s, amap'.amAnon s = if off ≤ s ∧ s < off + n then none else amap.amAnon s) ∧
    ∀ a, anons'.anRef a = anons.anRef a - (slots.filterMap amap.amAnon).count a

theorem Sound.slotIndex (sound : Sound amap) : SlotIndex amap := by
  refine ⟨sound.indexed.inside,fun i lti j ltj => sound.indexed.distinct i j lti ltj,fun s inside => ⟨fun held => ?_,?_⟩,
    sound.indexed.back⟩
  · exact sound.indexed.listed s ⟨inside,held⟩
  rintro ⟨i,lt,rfl⟩
  exact (sound.indexed.held i lt).2

theorem Sound.wipesRange (sound : Sound amap) : WipesRange amap := by
  have fits := sound.fits
  intro off n anons inside
  obtain ⟨slots,amap',anons',ran,wiped,mem⟩ := amapWiperange_spec sound off n (by omega) anons
  have mem_iff : ∀ s, s ∈ slots ↔ off ≤ s ∧ s < off + n ∧ amap.amAnon s ≠ none := by
    intro s
    rw [mem]
    constructor
    · rintro ⟨live,low,high⟩
      exact ⟨low,high,live.2⟩
    rintro ⟨low,high,held⟩
    exact ⟨⟨by omega,held⟩,low,high⟩
  refine ⟨slots,amap',anons',ran,wiped.nodup,mem_iff,fun s => ?_,fun a => ?_⟩
  · rw [wiped.anon]
    by_cases range : off ≤ s ∧ s < off + n
    · split
      · rfl
      next out =>
      by_contra held
      exact out ((mem_iff s).mpr ⟨range.1,range.2,held⟩)
    rw [if_neg range,if_neg]
    intro mem
    obtain ⟨low,high,_⟩ := (mem_iff s).mp mem
    exact range ⟨low,high⟩
  · rw [wiped.dropped,foldl_dropAnon]

-- In every run that moves slots up only where no anon lies outside the entry.
theorem slot_index (reached : Reached true amap) : SlotIndex amap ∧ WipesRange amap :=
  ⟨reached.sound.slotIndex,reached.sound.wipesRange⟩

theorem slot_index_one : ∃ amap, amap.amNused = 1 ∧ amap.amSlots 0 = 3 ∧ SlotIndex amap ∧ WipesRange amap := by
  let memory : Memory := ⟨true,some fun _ => 0,some fun _ => 0,some fun _ => none,none⟩
  have made : amapAlloc memory 4 0 = .ok (some _) := rfl
  have reached := Reached.added (show Reached true _ from .allocated made) (show amapAdd _ 3 7 false = .ok _ from rfl)
  exact ⟨_,rfl,rfl,slot_index reached⟩

-- The anon of slot 0 stays when its entry is unmapped, for there is no memory for
-- partial references; then the entry of slots 2 and 3 grows backwards.
theorem slot_index_lost : ∃ amap, Reached false amap ∧ ¬SlotIndex amap := by
  let memory : Memory := ⟨true,some fun _ => 0,some fun _ => 0,some fun _ => none,none⟩
  let anons : Anons := ⟨fun _ => 1,[]⟩
  have made : amapAlloc memory 4 0 = .ok (some _) := rfl
  have added := Reached.added (show Reached false _ from .allocated made) (show amapAdd _ 0 7 false = .ok _ from rfl)
  have split := Reached.split added (show amapSplitref memory _ 0 2 = .ok _ from rfl)
  have left := Reached.unreferenced split (show amapUnref 0 memory _ anons 0 2 false = .ok (some _,_) from rfl)
  have grown := Reached.extended left (fun no => by cases no)
    (show amapExtend 0 memory _ anons ⟨2,2⟩ 3 false = .ok (0,_,_,_) from rfl)
  refine ⟨_,grown,fun index => ?_⟩
  exact (index.2.2.1 2 (by decide)).mpr ⟨0,by decide,rfl⟩ rfl
end NetbsdAvr32.Amap
