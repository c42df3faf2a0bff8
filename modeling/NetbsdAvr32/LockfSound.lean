import NetbsdAvr32.LockfGrant

-- What holds of the lists and the waiting requests between two steps, and of
-- the structures of a running call.
namespace NetbsdAvr32.Lockf
open Function Linked Outcome

-- A lock of fcntl has a process for its owner and one of flock a file, with
-- the whole of the file for its range.
inductive Style (l : Lock) : Prop
  | posix (p : Nat) (posix : l.lfFlags.posix = true) (flock : l.lfFlags.flock = false) (owner : l.lfId = .proc p)
  | flock (x : Nat) (posix : l.lfFlags.posix = false) (flock : l.lfFlags.flock = true) (owner : l.lfId = .file x)
      (whole : l.lfStart = 0 ∧ l.lfEnd = -1)

structure Shaped (l : Lock) : Prop where
  ranged : Ranged l
  style : Style l

structure Proper (l : Lock) : Prop where
  shaped : Shaped l
  known : l.lfType ≠ .unlck

structure Request (c : Procs) (t : Nat) (l : Lock) : Prop where
  proper : Proper l
  empty : l.lfBlkhd = []
  own : l.lfFlags.posix = true → l.lfId = .proc (c.proc t)

-- Only fcntl brings a spare structure, and only its locks are split.
structure Room (l : Lock) (sp : Option Ptr) : Prop where
  start : sp = none → l.lfStart = 0
  flock : l.lfFlags.flock = true → sp = none

structure Sound (c : Procs) (s : State) (v : View) (mine : List Ptr) : Prop where
  rep : Rep s v
  proper : ∀ f, ∀ e ∈ v.held f, Proper e.2 ∧ e.2.lfHead = f
  sorted : ∀ f, Sorted (v.held f)
  free : ∀ f, ∀ e ∈ v.held f, ∀ e' ∈ v.held f, e.2.lfId ≠ e'.2.lfId → ¬ Conflicts e.2 e'.2
  waits : ∀ f, ∀ e ∈ v.held f, ∀ r ∈ e.2.lfBlkhd, ∃ l, v.loose r = some l ∧ l.lfHead = f ∧ l.lfId ≠ e.2.lfId ∧ Conflicts l e.2
  frame : ∀ t fr, v.frames t = some fr → ∃ l, v.loose fr.lock = some l ∧ Request c t l ∧ Room l fr.sparelock
  loose : ∀ r l, v.loose r = some l → ∃ t fr, v.frames t = some fr ∧ fr.lock = r
  apart : ∀ t t' fr fr', v.frames t = some fr → v.frames t' = some fr' → t ≠ t' →
    fr.lock ≠ fr'.lock ∧ (∀ q, fr.sparelock = some q → fr'.sparelock ≠ some q)
  spare : ∀ t fr q, v.frames t = some fr → fr.sparelock = some q → v.Off q ∧ ∃ l, s.lockf q = some l ∧ l.lfBlkhd = []
  asleep : ∀ t r, v.wchan t = some r → (∃ fr, v.frames t = some fr ∧ fr.lock = r) ∧ ∃ f, ∃ e ∈ v.held f, r ∈ e.2.lfBlkhd
  owned : ∀ q l, s.lockf q = some l → v.Off q → (∃ t fr, v.frames t = some fr ∧ fr.sparelock = some q) ∨ q ∈ mine

variable {c : Procs} {s s' : State} {v v' : View} {mine mine' : List Ptr} {f t : Nat} {p k : Ptr} {l l' u : Lock} {e : Entry}
  {es es' : List Entry} {sp sp' : Option Ptr} {ws used : List Ptr}

def emptyView : View := ⟨fun _ => [],fun _ => none,fun _ => none,fun _ => none⟩

theorem initial_sound (c : Procs) : Sound c initial emptyView [] := by
  refine ⟨⟨?_,?_,?_,?_,?_,?_,?_,?_,rfl,rfl⟩,?_,?_,?_,?_,?_,?_,?_,?_,?_,?_⟩
  · intro f
    exact chain_nil.mpr rfl
  all_goals simp [emptyView,initial,Sorted]

structure Changes (u : Lock) (granted : Prop) (es es' : List Entry) (ws : List Ptr) : Prop where
  entry : ∀ e' ∈ es', e' ∈ es ∨ (∃ e ∈ es, Part u e.2 e'.2) ∨ granted ∧ Given u es e'.2
  sorted : Sorted es'
  waiter : ∀ e ∈ es, ∀ r ∈ e.2.lfBlkhd, (∃ e' ∈ es', r ∈ e'.2.lfBlkhd) ∨ r ∈ ws

theorem clears_changes (clears : Clears u wakesAll sp es es' ws [] sp') (ranged : ∀ e ∈ es, Ranged e.2) (range : Ranged u)
    (sorted : Sorted es) : Changes u False es es' ws := by
  refine ⟨?_,clears_sorted clears ranged range sorted,?_⟩
  · intro e member
    rcases clears_part clears ranged range e member with old | part
    · exact .inl old
    · exact .inr (.inl part)
  intro e member r waits
  rcases clears_waiter clears member waits with stays | woken | taken
  · exact .inl ⟨e,stays,waits⟩
  · exact .inr woken
  · cases taken

theorem grants_changes (grants : Grants k u sp es es' ws sp') (ranged : ∀ e ∈ es, Ranged e.2) (range : Ranged u)
    (sorted : Sorted es) (empty : u.lfBlkhd = []) : Changes u True es es' ws := by
  have placed := grants_placed grants ranged range sorted empty
  refine ⟨?_,placed_sorted placed ranged range sorted,fun e member r waits => placed_waiter placed member waits⟩
  intro e member
  rcases placed_entry placed ranged range member with old | part | given
  · exact .inl old
  · exact .inr (.inl part)
  · exact .inr (.inr ⟨trivial,given⟩)

theorem part_proper (part : Part u l l') (old : Proper l) (shape : Shaped u) : Proper l' := by
  obtain ⟨id,type,head,flags⟩ := part.same
  refine ⟨⟨part.ranged,?_⟩,type ▸ old.known⟩
  cases old.shaped.style with
  | posix p posix flock owner => exact .posix p (flags ▸ posix) (flags ▸ flock) (id.trans owner)
  | flock x posix flock owner whole =>
    cases shape.style with
    | posix p _ _ other =>
      rw [part.own,other] at owner
      cases owner
    | flock _ _ _ _ all =>
      have cut := part.cut
      omega

theorem given_proper (given : Given u es l) (proper : ∀ e ∈ es, Proper e.2 ∧ e.2.lfHead = u.lfHead) (shape : Shaped u)
    (known : u.lfType ≠ .unlck) : Proper l ∧ l.lfHead = u.lfHead := by
  obtain ⟨start,fin⟩ := given.range
  have ranged : Ranged l := ⟨by rw [start]; exact shape.ranged.start,by rw [start,fin]; exact shape.ranged.fin⟩
  have type : l.lfType ≠ .unlck := by rw [given.type]; exact known
  rcases given.kind with ⟨head,flags⟩ | ⟨e,member,own,head,flags⟩
  · refine ⟨⟨⟨ranged,?_⟩,type⟩,head⟩
    cases shape.style with
    | posix p posix flock owner => exact .posix p (flags ▸ posix) (flags ▸ flock) (given.own.trans owner)
    | flock x posix flock owner whole => exact .flock x (flags ▸ posix) (flags ▸ flock) (given.own.trans owner) (by rw [start,fin]; exact whole)
  obtain ⟨old,place⟩ := proper e member
  refine ⟨⟨⟨ranged,?_⟩,type⟩,head.trans place⟩
  cases old.shaped.style with
  | posix p posix flock owner => exact .posix p (flags ▸ posix) (flags ▸ flock) (given.own.trans (own.symm.trans owner))
  | flock x posix flock owner whole =>
    refine .flock x (flags ▸ posix) (flags ▸ flock) (given.own.trans (own.symm.trans owner)) ?_
    rw [start,fin]
    cases shape.style with
    | posix p _ _ other =>
      rw [own,other] at owner
      cases owner
    | flock _ _ _ _ all => exact all

theorem given_conflicts {b : Lock} (given : Given u es l) : Conflicts l b ↔ Conflicts u b := by
  unfold Conflicts Apart
  rw [given.range.1,given.range.2,given.type]

theorem Sound.change {granted : Prop} (sound : Sound c s v mine) (head : u.lfHead = f) (changes : Changes u granted (v.held f) es' ws)
    (rep : Rep s' (v.edit f es' ws)) (kept : Kept s s' v (v.edit f es' ws) used) (shape : Shaped u)
    (known : granted → u.lfType ≠ .unlck ∧ ∀ e ∈ v.held f, ¬ Blocks u e)
    (spares : ∀ t fr q, v.frames t = some fr → fr.sparelock = some q → q ∉ used) (fewer : ∀ q ∈ mine, q ∉ used → q ∈ mine') :
    Sound c s' (v.edit f es' ws) mine' := by
  have others : ∀ g, g ≠ f → (v.edit f es' ws).held g = v.held g := fun g other => edit_other v es' ws other
  have stays : ∀ e ∈ es', e.2.lfId ≠ u.lfId → e ∈ v.held f := by
    intro e member other
    rcases changes.entry e member with old | ⟨b,_,part⟩ | ⟨_,given⟩
    · exact old
    · exact absurd (part.same.1.trans part.own) other
    · exact absurd given.own other
  have other_free : ∀ e ∈ es', ∀ e' ∈ es', e'.2.lfId ≠ u.lfId → e.2.lfId ≠ e'.2.lfId → ¬ Conflicts e.2 e'.2 := by
    intro e member e' member' other apart conflict
    have old' := stays e' member' other
    rcases changes.entry e member with old | ⟨b,old,part⟩ | ⟨yes,given⟩
    · exact sound.free f e old e' old' apart conflict
    · exact sound.free f b old e' old' (part.same.1 ▸ apart) (part_conflicts part conflict)
    · exact (known yes).2 e' old' ⟨other,(given_conflicts given).mp conflict⟩
  refine ⟨rep,?_,?_,?_,?_,sound.frame,sound.loose,sound.apart,?_,?_,?_⟩
  · intro g e member
    by_cases mine : g = f
    · subst g
      rw [edit_held] at member
      rcases changes.entry e member with old | ⟨b,old,part⟩ | ⟨yes,given⟩
      · exact sound.proper f e old
      · obtain ⟨proper,place⟩ := sound.proper f b old
        exact ⟨part_proper part proper shape,part.same.2.2.1.trans place⟩
      rw [← head]
      exact given_proper given (head ▸ sound.proper f) shape (known yes).1
    rw [others g mine] at member
    exact sound.proper g e member
  · intro g
    by_cases mine : g = f
    · subst g
      rw [edit_held]
      exact changes.sorted
    rw [others g mine]
    exact sound.sorted g
  · intro g e member e' member' apart
    by_cases mine : g = f
    · subst g
      rw [edit_held] at member member'
      by_cases own : e'.2.lfId = u.lfId
      · intro conflict
        exact other_free e' member' e member (fun same => apart (same.trans own.symm)) apart.symm (conflicts_symm.mp conflict)
      · exact other_free e member e' member' own apart
    rw [others g mine] at member member'
    exact sound.free g e member e' member' apart
  · intro g e member r waits
    by_cases mine : g = f
    · subst g
      rw [edit_held] at member
      rcases changes.entry e member with old | ⟨b,old,part⟩ | ⟨yes,given⟩
      · exact sound.waits f e old r waits
      · rw [part.empty] at waits
        cases waits
      obtain ⟨b,old,own,inside,kept,before⟩ := given.waiters r waits
      obtain ⟨l,loose,place,other,conflict⟩ := sound.waits f b old r before
      refine ⟨l,loose,place,given.own ▸ own ▸ other,?_⟩
      exact conflicts_symm.mp ((given_conflicts given).mpr (conflicts_symm.mp (taken_conflicts inside kept (known yes).1 conflict)))
    rw [others g mine] at member
    exact sound.waits g e member r waits
  · intro t fr q frame spare
    obtain ⟨off,l,live,idle⟩ := sound.spare t fr q frame spare
    obtain ⟨off',same⟩ := kept.off q off (spares t fr q frame spare)
    exact ⟨off',l,same.trans live,idle⟩
  · intro t r asleep
    have both : v.wchan t = some r ∧ r ∉ ws := by
      change rouse ws v.wchan t = some r at asleep
      unfold rouse at asleep
      cases wchan : v.wchan t with
      | none => rw [wchan] at asleep; cases asleep
      | some q =>
        rw [wchan] at asleep
        by_cases woken : q ∈ ws
        · simp [woken] at asleep
        simp only [woken,if_false,Option.some.injEq] at asleep
        subst q
        exact ⟨rfl,woken⟩
    obtain ⟨frame,g,e,member,waits⟩ := sound.asleep t r both.1
    refine ⟨frame,g,?_⟩
    by_cases mine : g = f
    · subst g
      rw [edit_held]
      rcases changes.waiter e member r waits with queued | woken
      · exact queued
      · exact absurd woken both.2
    rw [others g mine]
    exact ⟨e,member,waits⟩
  intro q l live off
  obtain ⟨before,alive,out⟩ := kept.only q l live off
  rcases sound.owned q l alive before with spare | here
  · exact .inl spare
  · exact .inr (fewer q here out)
end NetbsdAvr32.Lockf
