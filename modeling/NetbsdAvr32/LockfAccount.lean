import Mathlib.Data.Nat.Count
import NetbsdAvr32.LockfDeadlock

-- The structures that count for a user.
namespace NetbsdAvr32.Lockf
open Function Linked Outcome List Nat Option Lock
variable {c : Procs} {s s' s₁ s₂ : State} {f g t t' uid : Nat} {p q k : Ptr} {l l' u : Lock} {sp sp' : Option Ptr} {slot : LockfSlot}
  {x : Option Ptr} {halt : Halt}

def liveCount (s : State) (uid : Nat) : Nat := Nat.count (fun p => (s.lockf p).map Lock.lfUid = some uid) s.nextLockf
def Balanced (s : State) : Prop := ∀ uid, s.uiLockcnt uid = ulong (liveCount s uid)
def Bound (s : State) : Prop := ∀ p l, s.lockf p = some l → p < s.nextLockf

theorem count_update {α : Type} [DecidableEq α] (m : Nat → Option α) (a : α) {p n : Nat} (low : p < n) (y : Option α) :
    count (fun q => update m p y q = some a) n + (if m p = some a then 1 else 0) =
      count (fun q => m q = some a) n + (if y = some a then 1 else 0) := by
  induction n with
  | zero => omega
  | succ n ih =>
    rw [count_succ,count_succ]
    by_cases last : p = n
    · subst last
      have below : count (fun q => update m p y q = some a) p = count (fun q => m q = some a) p := by
        rw [count_eq_card_filter_range,count_eq_card_filter_range]
        congr 1
        refine Finset.filter_congr fun q member => ?_
        rw [update_of_ne (Nat.ne_of_lt (Finset.mem_range.mp member))]
      rw [below,update_self]
      omega
    rw [update_of_ne (Ne.symm last)]
    omega

theorem uid_update (s : State) (p : Ptr) (y : Option Lock) :
    (fun q => (update s.lockf p y q).map lfUid) = update (fun q => (s.lockf q).map lfUid) p (y.map lfUid) := by
  funext q
  by_cases mine : q = p
  · rw [mine,update_self,update_self]
  · rw [update_of_ne mine,update_of_ne mine]

structure Quiet (s s' : State) : Prop where
  next : s'.nextLockf = s.nextLockf
  same : ∀ p, (s'.lockf p).map Lock.lfUid = (s.lockf p).map Lock.lfUid
  counts : s'.uiLockcnt = s.uiLockcnt
  frames : s'.frames = s.frames

structure Even (s s' : State) : Prop where
  next : s'.nextLockf = s.nextLockf
  same : ∀ p l', s'.lockf p = some l' → ∃ l, s.lockf p = some l ∧ l.lfUid = l'.lfUid
  balanced : Bound s → Balanced s → Balanced s'
  frames : s'.frames = s.frames

theorem Quiet.refl (s : State) : Quiet s s := ⟨rfl,fun _ => rfl,rfl,rfl⟩

theorem Quiet.trans (first : Quiet s s₁) (second : Quiet s₁ s') : Quiet s s' :=
  ⟨second.next.trans first.next,fun p => (second.same p).trans (first.same p),second.counts.trans first.counts,
    second.frames.trans first.frames⟩

theorem Quiet.live (quiet : Quiet s s') (live : s.lockf p = some l) : ∃ l', s'.lockf p = some l' ∧ l'.lfUid = l.lfUid := by
  have same := quiet.same p
  rw [live] at same
  exact map_eq_some_iff.mp same

theorem Quiet.even (quiet : Quiet s s') : Even s s' := by
  refine ⟨quiet.next,?_,?_,quiet.frames⟩
  · intro p l' live
    have same := quiet.same p
    rw [live] at same
    exact map_eq_some_iff.mp same.symm
  intro _ balanced uid
  unfold liveCount
  rw [quiet.counts,quiet.next,balanced uid]
  unfold liveCount
  congr 2
  funext p
  rw [quiet.same]

theorem Even.refl (s : State) : Even s s := (Quiet.refl s).even

theorem Even.bound (even : Even s s') (bound : Bound s) : Bound s' := by
  intro p l' live
  obtain ⟨l,before,_⟩ := even.same p l' live
  rw [even.next]
  exact bound p l before

theorem Even.trans (first : Even s s₁) (second : Even s₁ s') : Even s s' := by
  refine ⟨second.next.trans first.next,?_,fun bound balanced => second.balanced (first.bound bound) (first.balanced bound balanced),
    second.frames.trans first.frames⟩
  intro p l' live
  obtain ⟨l₁,middle,same⟩ := second.same p l' live
  obtain ⟨l,before,same'⟩ := first.same p l₁ middle
  exact ⟨l,before,same'.trans same⟩

theorem quiet_set (live : s.lockf p = some l) (w : Lock) (same : w.lfUid = l.lfUid) : Quiet s (s.set p w) := by
  refine ⟨rfl,?_,rfl,rfl⟩
  intro q
  by_cases mine : q = p
  · subst q
    change (update s.lockf p (some w) p).map lfUid = _
    rw [update_self,live]
    exact congrArg some same
  change (update s.lockf p (some w) q).map lfUid = _
  rw [update_of_ne mine]

theorem quiet_link (s : State) (p : Ptr) (x : Option Ptr) : Quiet s (s.link p x) := ⟨rfl,fun _ => rfl,rfl,rfl⟩
theorem quiet_broadcast (s : State) (p : Ptr) : Quiet s (s.broadcast p) := ⟨rfl,fun _ => rfl,rfl,rfl⟩

theorem get_ok (ran : s.get p = .ok l) : s.lockf p = some l := by
  unfold State.get at ran
  cases live : s.lockf p with
  | none =>
    rw [live] at ran
    cases ran
  | some l' =>
    rw [live] at ran
    cases ran
    rfl

theorem store_quiet (ran : s.store slot x = .ok s') : Quiet s s' := by
  cases slot with
  | head f =>
    cases ran
    exact ⟨rfl,fun _ => rfl,rfl,rfl⟩
  | next p =>
    obtain ⟨l,_,ran⟩ := bind_ok ran
    cases ran
    exact ⟨rfl,fun _ => rfl,rfl,rfl⟩

theorem ulong_dec {n m : Nat} (less : m + 1 = n) : ulong (ulong n + (2 ^ 32 - 1)) = ulong m := by
  unfold ulong
  omega

theorem freed_even (live : s.lockf p = some l) : Even s (s.freed p l) := by
  refine ⟨rfl,?_,?_,rfl⟩
  · intro q l' alive
    by_cases mine : q = p
    · rw [mine,show (s.freed p l).lockf p = none from update_self _ _ _] at alive
      cases alive
    · exact ⟨l',(update_of_ne mine _ _).symm.trans alive,rfl⟩
  intro bound balanced uid
  have counted := count_update (fun q => (s.lockf q).map lfUid) uid (bound p l live) none
  have after : liveCount (s.freed p l) uid =
      count (fun q => update (fun q => (s.lockf q).map lfUid) p none q = some uid) s.nextLockf := by
    unfold liveCount
    congr 1
    funext q
    exact congrArg (· = some uid) (congrFun (uid_update s p none) q)
  rw [after]
  rw [live] at counted
  change update s.uiLockcnt l.lfUid _ uid = _
  by_cases own : uid = l.lfUid
  · subst own
    rw [update_self,balanced]
    refine ulong_dec ?_
    unfold liveCount
    simpa using counted
  rw [update_of_ne own,balanced uid]
  unfold liveCount
  have other : ¬ l.lfUid = uid := fun same => own same.symm
  rw [if_neg (by simpa using other),if_neg (by simp),add_zero,add_zero] at counted
  rw [counted]

theorem lfFree_even (ran : lfFree p s = .ok s') : Even s s' := by
  obtain ⟨l,got,ran⟩ := bind_ok ran
  cases ran
  exact freed_even (get_ok got)

theorem freeIf_even (ran : freeIf sp s = .ok s') : Even s s' := by
  cases sp with
  | none =>
    cases ran
    exact .refl s
  | some q => exact lfFree_even ran

theorem alloc_balanced (bound : Bound s) (balanced : Balanced s) (uid : Nat) : Bound (s.alloc uid) ∧ Balanced (s.alloc uid) := by
  constructor
  · intro p l live
    by_cases mine : p = s.nextLockf
    · exact mine ▸ lt_succ_self _
    · exact lt_succ_of_lt (bound p l ((update_of_ne mine _ _).symm.trans live))
  intro uid'
  have below : count (fun p => ((s.alloc uid).lockf p).map lfUid = some uid') s.nextLockf = liveCount s uid' := by
    unfold liveCount
    rw [count_eq_card_filter_range,count_eq_card_filter_range]
    congr 1
    refine Finset.filter_congr fun q member => ?_
    rw [show (s.alloc uid).lockf q = s.lockf q from update_of_ne (Nat.ne_of_lt (Finset.mem_range.mp member)) _ _]
  change update s.uiLockcnt uid _ uid' = ulong (Nat.count _ (s.nextLockf + 1))
  rw [count_succ,below,show (s.alloc uid).lockf s.nextLockf = some (rawLock uid) from update_self _ _ _]
  by_cases own : uid' = uid
  · subst own
    rw [update_self,balanced uid']
    simp [rawLock,ulong]
  have other : ¬ uid = uid' := fun same => own same.symm
  rw [update_of_ne own,balanced uid']
  simp [rawLock,other]

theorem wakeBlocked_quiet (ws : List Ptr) (ran : wakeBlocked p ws s = .ok s') : Quiet s s' := by
  induction ws generalizing s with
  | nil =>
    cases ran
    exact .refl _
  | cons w rest ih =>
    obtain ⟨_,_,ran⟩ := bind_ok ran
    obtain ⟨l,got,ran⟩ := bind_ok ran
    split at ran
    · cases ran
    refine Quiet.trans ?_ (ih ran)
    exact (quiet_set (get_ok got) _ (by rfl)).trans ((quiet_link _ _ _).trans (quiet_broadcast _ _))

theorem lfWakelock_quiet (ran : lfWakelock p s = .ok s') : Quiet s s' := by
  obtain ⟨l,_,ran⟩ := bind_ok ran
  exact wakeBlocked_quiet _ ran

theorem takeBlocked_quiet (ws : List Ptr) (ran : takeBlocked k p ws s = .ok s') : Quiet s s' := by
  induction ws generalizing s with
  | nil =>
    cases ran
    exact .refl _
  | cons w rest ih =>
    obtain ⟨_,_,ran⟩ := bind_ok ran
    obtain ⟨ov,got,ran⟩ := bind_ok ran
    split at ran
    · cases ran
    obtain ⟨l,got',ran⟩ := bind_ok ran
    refine Quiet.trans ?_ (ih ran)
    exact ((quiet_set (get_ok got) _ (by rfl)).trans (quiet_link _ _ _)).trans (quiet_set (get_ok got') _ (by rfl))

theorem cutFront_quiet (ran : cutFront p u s = .ok s') : Quiet s s' := by
  obtain ⟨l,got,ran⟩ := bind_ok ran
  obtain ⟨_,_,ran⟩ := bind_ok ran
  cases ran
  exact quiet_set (get_ok got) _ rfl

theorem cutBack_quiet (ran : cutBack p u s = .ok s') : Quiet s s' := by
  obtain ⟨l,got,ran⟩ := bind_ok ran
  obtain ⟨_,_,ran⟩ := bind_ok ran
  cases ran
  exact quiet_set (get_ok got) _ rfl

def Split (s s' : State) (q : Ptr) : Prop :=
  ∃ l l', s.lockf q = some l ∧ s'.lockf q = some l' ∧ (l.lfUid = l'.lfUid → Even s s')

def Spends (s s' : State) (sp sp' : Option Ptr) : Prop := (sp' = sp ∧ Even s s') ∨ ∃ q, sp = some q ∧ sp' = none ∧ Split s s' q
theorem Even.spends (even : Even s s') (sp : Option Ptr) : Spends s s' sp sp := .inl ⟨rfl,even⟩

theorem Spends.after (before : Even s s₁) (spends : Spends s₁ s' sp sp') : Spends s s' sp sp' := by
  rcases spends with ⟨same,even⟩ | ⟨q,spare,none,l,l',live,live',even⟩
  · exact .inl ⟨same,before.trans even⟩
  obtain ⟨l₀,live₀,same⟩ := before.same q l live
  exact .inr ⟨q,spare,none,l₀,l',live₀,live',fun equal => before.trans (even (same.symm.trans equal))⟩

theorem Spends.before (spends : Spends s s₁ sp sp') (quiet : Quiet s₁ s') : Spends s s' sp sp' := by
  rcases spends with ⟨same,even⟩ | ⟨q,spare,none,l,l',live,live',even⟩
  · exact .inl ⟨same,even.trans quiet.even⟩
  obtain ⟨l₂,live₂,same⟩ := quiet.live live'
  exact .inr ⟨q,spare,none,l,l₂,live,live₂,fun equal => (even (equal.trans same)).trans quiet.even⟩

theorem Spends.unspent (spends : Spends s s' none sp') : sp' = none ∧ Even s s' := by
  rcases spends with same | ⟨q,none,_⟩
  · exact same
  · cases none

theorem lfSplit_spends (ran : lfSplit p k sp s = .ok (sp',s')) : Spends s s' sp sp' := by
  obtain ⟨l₁,got₁,ran⟩ := bind_ok ran
  obtain ⟨l₂,got₂,ran⟩ := bind_ok ran
  split at ran
  · obtain ⟨_,_,ran⟩ := bind_ok ran
    cases ran
    exact ((quiet_set (get_ok got₁) _ (by rfl)).trans (quiet_link _ _ _)).even.spends sp
  split at ran
  · obtain ⟨_,_,ran⟩ := bind_ok ran
    cases ran
    exact (((quiet_set (get_ok got₁) _ (by rfl)).trans (quiet_link _ _ _)).trans (quiet_link _ _ _)).even.spends sp
  cases sp with
  | none => cases ran
  | some q =>
    obtain ⟨l,got,ran⟩ := bind_ok ran
    obtain ⟨start,_,ran⟩ := bind_ok ran
    obtain ⟨fin,_,ran⟩ := bind_ok ran
    cases ran
    suffices spends : Spends s ((s.set q {l₁ with lfStart := start, lfBlkhd := []}).set p {l₁ with lfEnd := fin}) (some q) none from
      spends.before ((quiet_link _ _ _).trans ((quiet_link _ _ _).trans (quiet_link _ _ _)))
    by_cases self : q = p
    · subst q
      rw [got₁] at got
      cases got
      have first := quiet_set (get_ok got₁) {l₁ with lfStart := start, lfBlkhd := []} rfl
      have middle : (s.set p {l₁ with lfStart := start, lfBlkhd := []}).lockf p = some {l₁ with lfStart := start, lfBlkhd := []} :=
        update_self _ _ _
      have second := quiet_set middle {l₁ with lfEnd := fin} rfl
      exact .inr ⟨p,rfl,rfl,l₁,_,get_ok got₁,update_self _ _ _,fun _ => (first.trans second).even⟩
    have live' : (s.set q {l₁ with lfStart := start, lfBlkhd := []}).lockf p = some l₁ :=
      (update_of_ne (Ne.symm self) _ _).trans (get_ok got₁)
    have quiet := quiet_set live' {l₁ with lfEnd := fin} rfl
    refine .inr ⟨q,rfl,rfl,l,{l₁ with lfStart := start, lfBlkhd := []},get_ok got,?_,?_⟩
    · exact (update_of_ne self _ _).trans (update_self _ _ _)
    intro same
    exact ((quiet_set (get_ok got) _ same.symm).trans quiet).even

theorem clearContained_spends (ran : clearContained k p sp s = .ok (sp',s')) : Spends s s' sp sp' := by
  obtain ⟨u,_,ran⟩ := bind_ok ran
  obtain ⟨ov,_,ran⟩ := bind_ok ran
  split at ran
  · obtain ⟨s₁,cut,ran⟩ := bind_ok ran
    cases ran
    exact (cutFront_quiet cut).even.spends sp
  obtain ⟨⟨sp₁,s₁⟩,split,ran⟩ := bind_ok ran
  cases ran
  exact (lfSplit_spends split).before (quiet_link _ _ _)

theorem clearLoop_spends (n : Nat) (lf : Option Ptr) (prev : LockfSlot) (ran : clearLoop k n lf prev sp s = .ok (sp',s')) :
    Spends s s' sp sp' := by
  induction n generalizing lf prev s with
  | zero => cases ran
  | succ n ih =>
    obtain ⟨u,_,ran⟩ := bind_ok ran
    obtain ⟨⟨which,prev',overlap⟩,_,ran⟩ := bind_ok ran
    cases overlap with
    | none =>
      cases which with
      | noOverlap =>
        cases ran
        exact (Even.refl _).spends _
      | _ => cases ran
    | some p =>
      cases which with
      | noOverlap =>
        cases ran
        exact (Even.refl _).spends _
      | equal =>
        obtain ⟨s₁,woke,ran⟩ := bind_ok ran
        obtain ⟨s₂,stored,ran⟩ := bind_ok ran
        obtain ⟨s₃,freed,ran⟩ := bind_ok ran
        cases ran
        exact (((lfWakelock_quiet woke).trans (store_quiet stored)).even.trans (lfFree_even freed)).spends _
      | contains =>
        obtain ⟨s₁,woke,ran⟩ := bind_ok ran
        exact (clearContained_spends ran).after (lfWakelock_quiet woke).even
      | contained =>
        obtain ⟨s₁,woke,ran⟩ := bind_ok ran
        obtain ⟨s₂,stored,ran⟩ := bind_ok ran
        obtain ⟨s₃,freed,ran⟩ := bind_ok ran
        exact (ih _ _ ran).after (((lfWakelock_quiet woke).trans (store_quiet stored)).even.trans (lfFree_even freed))
      | startsBefore =>
        obtain ⟨s₁,woke,ran⟩ := bind_ok ran
        obtain ⟨s₂,cut,ran⟩ := bind_ok ran
        exact (ih _ _ ran).after ((lfWakelock_quiet woke).trans (cutBack_quiet cut)).even
      | endsAfter =>
        obtain ⟨s₁,woke,ran⟩ := bind_ok ran
        obtain ⟨s₂,cut,ran⟩ := bind_ok ran
        cases ran
        exact ((lfWakelock_quiet woke).trans (cutFront_quiet cut)).even.spends _

theorem lfClearlock_spends (ran : lfClearlock k sp s = .ok (sp',s')) : Spends s s' sp sp' := by
  obtain ⟨u,_,ran⟩ := bind_ok ran
  split at ran
  · cases ran
    exact (Even.refl _).spends _
  · exact clearLoop_spends _ _ _ ran

theorem setEqual_even (ran : setEqual k p s = .ok s') : Even s s' := by
  obtain ⟨l,_,ran⟩ := bind_ok ran
  obtain ⟨ov,_,ran⟩ := bind_ok ran
  obtain ⟨s₁,woke,ran⟩ := bind_ok ran
  obtain ⟨ov',got,ran⟩ := bind_ok ran
  have quiet : Quiet s s₁ := by
    cases which : downgrades l ov with
    | true =>
      rw [which] at woke
      exact lfWakelock_quiet woke
    | false =>
      rw [which] at woke
      cases woke
      exact .refl _
  exact (quiet.trans (quiet_set (get_ok got) _ (by rfl))).even.trans (lfFree_even ran)

theorem setContained_spends (prev : LockfSlot) (ran : setContained k p prev sp s = .ok (sp',s')) : Spends s s' sp sp' := by
  obtain ⟨l,_,ran⟩ := bind_ok ran
  obtain ⟨ov,_,ran⟩ := bind_ok ran
  split at ran
  · obtain ⟨s₁,freed,ran⟩ := bind_ok ran
    cases ran
    exact (lfFree_even freed).spends _
  split at ran
  · obtain ⟨s₁,stored,ran⟩ := bind_ok ran
    obtain ⟨s₂,cut,ran⟩ := bind_ok ran
    obtain ⟨s₃,woke,ran⟩ := bind_ok ran
    cases ran
    have linked := (store_quiet stored).trans ((quiet_link _ _ _).trans (cutFront_quiet cut))
    exact (linked.trans (lfWakelock_quiet woke)).even.spends _
  obtain ⟨⟨sp₁,s₁⟩,split,ran⟩ := bind_ok ran
  obtain ⟨s₂,woke,ran⟩ := bind_ok ran
  cases ran
  exact (lfSplit_spends split).before (lfWakelock_quiet woke)

theorem takeOver_quiet (ran : takeOver k p s = .ok s') : Quiet s s' := by
  obtain ⟨l,_,ran⟩ := bind_ok ran
  obtain ⟨ov,_,ran⟩ := bind_ok ran
  cases which : downgrades l ov with
  | true =>
    rw [which] at ran
    exact lfWakelock_quiet ran
  | false =>
    rw [which] at ran
    exact takeBlocked_quiet _ ran

theorem setLoop_spends (n : Nat) (needtolink : Bool) (block : Option Ptr) (prev : LockfSlot)
    (ran : setLoop k n needtolink block prev sp s = .ok (sp',s')) : Spends s s' sp sp' := by
  induction n generalizing needtolink block prev s with
  | zero => cases ran
  | succ n ih =>
    obtain ⟨u,_,ran⟩ := bind_ok ran
    obtain ⟨⟨which,prev',overlap⟩,_,ran⟩ := bind_ok ran
    cases which with
    | noOverlap =>
      dsimp only at ran
      split at ran
      · obtain ⟨s₁,stored,ran⟩ := bind_ok ran
        cases ran
        exact ((store_quiet stored).trans (quiet_link _ _ _)).even.spends _
      cases ran
      exact (Even.refl _).spends _
    | equal =>
      cases overlap with
      | none => cases ran
      | some p =>
        obtain ⟨s₁,set,ran⟩ := bind_ok ran
        cases ran
        exact (setEqual_even set).spends _
    | contains =>
      cases overlap with
      | none => cases ran
      | some p => exact setContained_spends _ ran
    | contained =>
      cases overlap with
      | none => cases ran
      | some p =>
        obtain ⟨s₁,took,ran⟩ := bind_ok ran
        have took := takeOver_quiet took
        split at ran
        · obtain ⟨s₂,stored,ran⟩ := bind_ok ran
          obtain ⟨s₃,freed,ran⟩ := bind_ok ran
          have freed := lfFree_even freed
          exact (ih _ _ _ ran).after ((took.trans ((store_quiet stored).trans (quiet_link _ _ _))).even.trans freed)
        obtain ⟨s₂,stored,ran⟩ := bind_ok ran
        obtain ⟨s₃,freed,ran⟩ := bind_ok ran
        exact (ih _ _ _ ran).after ((took.trans (store_quiet stored)).even.trans (lfFree_even freed))
    | startsBefore =>
      cases overlap with
      | none => cases ran
      | some p =>
        obtain ⟨s₁,cut,ran⟩ := bind_ok ran
        obtain ⟨s₂,woke,ran⟩ := bind_ok ran
        have cut := cutBack_quiet cut
        exact (ih _ _ _ ran).after (((quiet_link _ _ _).trans ((quiet_link _ _ _).trans cut)).trans (lfWakelock_quiet woke)).even
    | endsAfter =>
      cases overlap with
      | none => cases ran
      | some p =>
        dsimp only at ran
        split at ran
        · obtain ⟨s₁,stored,ran⟩ := bind_ok ran
          obtain ⟨s₂,cut,ran⟩ := bind_ok ran
          obtain ⟨s₃,woke,ran⟩ := bind_ok ran
          cases ran
          have linked := (store_quiet stored).trans ((quiet_link _ _ _).trans (cutFront_quiet cut))
          exact (linked.trans (lfWakelock_quiet woke)).even.spends _
        obtain ⟨s₁,cut,ran⟩ := bind_ok ran
        obtain ⟨s₂,woke,ran⟩ := bind_ok ran
        cases ran
        exact ((cutFront_quiet cut).trans (lfWakelock_quiet woke)).even.spends _

theorem giveUpShared_even (ran : giveUpShared k s = .ok s') : Even s s' := by
  obtain ⟨l,got,ran⟩ := bind_ok ran
  split at ran
  · obtain ⟨⟨sp₁,s₁⟩,cleared,ran⟩ := bind_ok ran
    obtain ⟨l',got',ran⟩ := bind_ok ran
    cases ran
    have even := (lfClearlock_spends cleared).unspent.2
    exact ((quiet_set (get_ok got) _ (by rfl)).even.trans even).trans (quiet_set (get_ok got') _ (by rfl)).even
  cases ran
  exact .refl _

def Agree (s : State) (k : Ptr) (sp : Option Ptr) : Prop :=
  ∀ q l u, sp = some q → s.lockf q = some l → s.lockf k = some u → l.lfUid = u.lfUid

def Below (s : State) (k : Ptr) (sp : Option Ptr) : Prop := k < s.nextLockf ∧ ∀ q, sp = some q → q < s.nextLockf

structure Fair (s : State) : Prop where
  bound : Bound s
  balanced : Balanced s
  twins : ∀ t fr, s.frames t = some fr → Agree s fr.lock fr.sparelock ∧ Below s fr.lock fr.sparelock

theorem Even.agree (even : Even s s') (agree : Agree s k sp) : Agree s' k sp := by
  intro q l u spare live live'
  obtain ⟨l₀,before,same⟩ := even.same q l live
  obtain ⟨u₀,before',same'⟩ := even.same k u live'
  exact same.symm.trans ((agree q l₀ u₀ spare before before').trans same')

theorem Even.below (even : Even s s') (below : Below s k sp) : Below s' k sp := by
  unfold Below
  rw [even.next]
  exact below

theorem Even.fair (even : Even s s') (fair : Fair s) : Fair s' := by
  refine ⟨even.bound fair.bound,even.balanced fair.bound fair.balanced,?_⟩
  intro t fr frame
  rw [even.frames] at frame
  exact ⟨even.agree (fair.twins t fr frame).1,even.below (fair.twins t fr frame).2⟩

theorem Fair.alloc (fair : Fair s) (uid : Nat) : Fair (s.alloc uid) := by
  obtain ⟨bound,balanced⟩ := alloc_balanced fair.bound fair.balanced uid
  refine ⟨bound,balanced,?_⟩
  intro t fr frame
  obtain ⟨agree,low,lows⟩ := fair.twins t fr frame
  have old : ∀ p, p < s.nextLockf → (s.alloc uid).lockf p = s.lockf p := fun p below => update_of_ne (Nat.ne_of_lt below) _ _
  refine ⟨?_,lt_succ_of_lt low,fun q spare => lt_succ_of_lt (lows q spare)⟩
  intro q l u spare live live'
  rw [old q (lows q spare)] at live
  rw [old _ low] at live'
  exact agree q l u spare live live'

theorem Fair.setWchan (fair : Fair s) (wchan : Nat → Option Ptr) : Fair {s with wchan := wchan} := ⟨fair.bound,fair.balanced,fair.twins⟩

theorem Fair.unframe (fair : Fair s) (t : Nat) : Fair {s with frames := update s.frames t none} := by
  refine ⟨fair.bound,fair.balanced,?_⟩
  intro t' fr frame
  by_cases mine : t' = t
  · rw [mine] at frame
    change update s.frames t none t = some fr at frame
    rw [update_self] at frame
    cases frame
  · exact fair.twins t' fr ((update_of_ne mine _ _).symm.trans frame)

theorem Fair.sleep (fair : Fair s) (agree : Agree s k sp) (below : Below s k sp) (t : Nat) (wchan : Nat → Option Ptr) :
    Fair {s with wchan := wchan, frames := update s.frames t (some ⟨k,sp⟩)} := by
  refine ⟨fair.bound,fair.balanced,?_⟩
  intro t' fr frame
  by_cases mine : t' = t
  · rw [mine] at frame
    change update s.frames t (some ⟨k,sp⟩) t = some fr at frame
    rw [update_self] at frame
    cases frame
    exact ⟨agree,below⟩
  · exact fair.twins t' fr ((update_of_ne mine _ _).symm.trans frame)

theorem sleepOn_fair (ran : sleepOn t k p sp s = .ok s') (fair : Fair s) (agree : Agree s k sp) (below : Below s k sp) : Fair s' := by
  obtain ⟨l,got,ran⟩ := bind_ok ran
  cases ran
  have even := ((quiet_link s k (some p)).trans (quiet_set (get_ok got) {l with lfBlkhd := l.lfBlkhd ++ [k]} rfl)).even
  exact (even.fair fair).sleep (even.agree agree) (even.below below) t (update s.wchan t (some k))

theorem lfSetlock_fair {r : Setlock} (ran : lfSetlock c t k sp s = .ok (r,s')) (fair : Fair s) (agree : Agree s k sp) (below : Below s k sp) :
    Fair s' ∨ ∃ q l l', sp = some q ∧ r = .returned none none ∧ s.lockf q = some l ∧ s'.lockf q = some l' ∧
      (l.lfUid = l'.lfUid → Fair s') := by
  obtain ⟨u,_,ran⟩ := bind_ok ran
  obtain ⟨block,_,ran⟩ := bind_ok ran
  cases block with
  | none =>
    obtain ⟨⟨sp₁,s₁⟩,set,ran⟩ := bind_ok ran
    cases ran
    rcases setLoop_spends _ _ _ _ set with ⟨_,even⟩ | ⟨q,spare,none,l,l',live,live',even⟩
    · exact .inl (even.fair fair)
    · exact .inr ⟨q,l,l',spare,by rw [none],live,live',fun same => (even same).fair fair⟩
  | some block =>
    dsimp only at ran
    split at ran
    · obtain ⟨s₁,freed,ran⟩ := bind_ok ran
      cases ran
      exact .inl ((lfFree_even freed).fair fair)
    obtain ⟨b,_,ran⟩ := bind_ok ran
    obtain ⟨found,_,ran⟩ := bind_ok ran
    cases found with
    | true =>
      obtain ⟨s₁,freed,ran⟩ := bind_ok ran
      cases ran
      exact .inl ((lfFree_even freed).fair fair)
    | false =>
      obtain ⟨s₁,gave,ran⟩ := bind_ok ran
      obtain ⟨s₂,slept,ran⟩ := bind_ok ran
      cases ran
      have even := giveUpShared_even gave
      exact .inl (sleepOn_fair slept (even.fair fair) (even.agree agree) (even.below below))

theorem afterSetlock_even {r : Setlock} {reply : Reply} (ran : afterSetlock r s = .ok (reply,s')) : Even s s' := by
  cases r with
  | asleep =>
    cases ran
    exact .refl _
  | returned error sp =>
    obtain ⟨s₁,freed,ran⟩ := bind_ok ran
    cases ran
    exact freeIf_even freed

theorem leaveQueue_quiet (ran : leaveQueue k s = .ok s') : Quiet s s' := by
  obtain ⟨_,_,ran⟩ := bind_ok ran
  cases next : s.lfNext (.next k) with
  | none =>
    rw [next] at ran
    cases ran
    exact .refl _
  | some b =>
    rw [next] at ran
    obtain ⟨l,got,ran⟩ := bind_ok ran
    cases ran
    exact (quiet_set (get_ok got) _ (by rfl)).trans (quiet_link _ _ _)

-- Per-user accounting over whole runs.
variable {v v' v₁ : View} {e : Entry} {es es' : List Entry} {ws taken : List Ptr} {keep : Lock → Bool} {ap : Args} {start fin : Int} {op : Op} {reply : Option Reply}

-- What a call of lf_advlock that writes over its spare needs: the structures
-- of the split lock and of the request count for one user.
def Written (s' : State) (q : Ptr) (uid : Nat) : Prop := ∃ l', s'.lockf q = some l' ∧ (l'.lfUid = uid → Fair s')

theorem fresh_none (bound : Bound s) : s.lockf s.nextLockf = none := by
  cases live : s.lockf s.nextLockf with
  | none => rfl
  | some l => exact absurd (bound _ l live) (lt_irrefl _)

theorem advlockLocked_fair {ran' : Reply × Flock × State} {start fin : Int} (ran : advlockLocked c t ap start fin k sp s = .ok ran') (fair : Fair s)
    (raw : s.lockf k = some (rawLock uid)) (spare : ∀ q, sp = some q → s.lockf q = some (rawLock uid) ∧ q ≠ k) (below : Below s k sp) :
    Fair ran'.2.2 ∨ ∃ q, sp = some q ∧ ran'.1 = .returned none ∧ Written ran'.2.2 q uid := by
  obtain ⟨l,got,ran⟩ := bind_ok ran
  have same := get_ok got
  rw [raw] at same
  cases same
  have filled := (quiet_set raw (ap.lock start fin uid) rfl).trans (quiet_link _ k none)
  have fair' := filled.even.fair fair
  have below' := filled.even.below below
  have agree : Agree s k sp := by
    intro q l u mine live live'
    rw [(spare q mine).1] at live
    rw [raw] at live'
    cases live
    cases live'
    rfl
  have agree' := filled.even.agree agree
  have known : ∀ q, sp = some q → ((s.set k (ap.lock start fin uid)).link k none).lockf q = some (rawLock uid) :=
    fun q mine => (update_of_ne (spare q mine).2 _ _).trans (spare q mine).1
  dsimp only at ran
  split at ran
  · cases ran
  cases op : ap.aOp with
  | setlk =>
    rw [op] at ran
    obtain ⟨⟨r,s₁⟩,set,ran⟩ := bind_ok ran
    obtain ⟨⟨reply,s₂⟩,after,ran⟩ := bind_ok ran
    cases ran
    rcases lfSetlock_fair set fair' agree' below' with done | ⟨q,l,l',mine,result,live,live',done⟩
    · exact .inl ((afterSetlock_even after).fair done)
    rw [result] at after
    cases after
    refine .inr ⟨q,mine,rfl,l',live',fun same => done ?_⟩
    have old : l = rawLock uid := some.inj (live.symm.trans (known q mine))
    rw [old]
    exact same.symm
  | unlck =>
    rw [op] at ran
    obtain ⟨⟨sp₁,s₁⟩,cleared,ran⟩ := bind_ok ran
    obtain ⟨s₂,freed,ran⟩ := bind_ok ran
    obtain ⟨s₃,freed',ran⟩ := bind_ok ran
    cases ran
    rcases lfClearlock_spends cleared with ⟨_,even⟩ | ⟨q,mine,none,l,l',live,live',even⟩
    · exact .inl ((freeIf_even freed').fair ((lfFree_even freed).fair (even.fair fair')))
    subst none
    cases freed'
    have old : l = rawLock uid := some.inj (live.symm.trans (known q mine))
    refine .inr ⟨q,mine,rfl,l',?_,fun same => (lfFree_even freed).fair ((even ?_).fair fair')⟩
    · obtain ⟨_,_,freed⟩ := bind_ok freed
      cases freed
      exact (update_of_ne (spare q mine).2 _ _).trans live'
    rw [old]
    exact same.symm
  | getlk | other =>
    rw [op] at ran
    obtain ⟨fl,_,ran⟩ := bind_ok ran
    obtain ⟨s₂,freed,ran⟩ := bind_ok ran
    obtain ⟨s₃,freed',ran⟩ := bind_ok ran
    cases ran
    exact .inl ((freeIf_even freed').fair ((lfFree_even freed).fair fair'))

theorem lfAdvlock_fair {answer : Reply} {fl : Flock} (ran : lfAdvlock c t uid ap s = .ok (answer,fl,s')) (fair : Fair s) :
    Fair s' ∨ ∃ q, s.lockf q = none ∧ answer = .returned none ∧ Written s' q uid := by
  obtain ⟨r,_,ran⟩ := bind_ok ran
  cases r with
  | none =>
    cases ran
    exact .inl fair
  | some ends =>
    obtain ⟨start,fin⟩ := ends
    dsimp only at ran
    split at ran
    · cases ran
      exact .inl fair
    have spared : Fair (allocSpare ap uid s).2 ∧ (∀ q, (allocSpare ap uid s).1 = some q → q = s.nextLockf ∧
        (allocSpare ap uid s).2.lockf q = some (rawLock uid) ∧ q < (allocSpare ap uid s).2.nextLockf) := by
      unfold allocSpare
      split
      · rw [lfAlloc_zero]
        refine ⟨fair.alloc uid,?_⟩
        intro q mine
        cases mine
        exact ⟨rfl,update_self _ _ _,lt_succ_self _⟩
      · exact ⟨fair,fun q mine => by cases mine⟩
    generalize allocSpare ap uid s = first at ran spared
    obtain ⟨sp,s₁⟩ := first
    obtain ⟨fair₁,spare⟩ := spared
    have locked : allocLock ap uid start fin s₁ = (none,s₁) ∨ allocLock ap uid start fin s₁ = (some s₁.nextLockf,s₁.alloc uid) :=
      lfAlloc_cases _ _ _
    rcases locked with full | room
    · rw [full] at ran
      obtain ⟨s₂,freed,ran⟩ := bind_ok ran
      cases ran
      exact .inl ((freeIf_even freed).fair fair₁)
    rw [room] at ran
    dsimp only at ran
    have fair₂ := fair₁.alloc uid
    split at ran
    · obtain ⟨s₂,freed,ran⟩ := bind_ok ran
      obtain ⟨s₃,freed',ran⟩ := bind_ok ran
      cases ran
      exact .inl ((freeIf_even freed').fair ((lfFree_even freed).fair fair₂))
    have own : ∀ q, sp = some q → (s₁.alloc uid).lockf q = some (rawLock uid) ∧ q ≠ s₁.nextLockf := by
      intro q mine
      obtain ⟨_,live,low⟩ := spare q mine
      exact ⟨(update_of_ne (Nat.ne_of_lt low) _ _).trans live,Nat.ne_of_lt low⟩
    have below : Below (s₁.alloc uid) s₁.nextLockf sp :=
      ⟨lt_succ_self _,fun q mine => lt_succ_of_lt (spare q mine).2.2⟩
    rcases advlockLocked_fair ran fair₂ (update_self _ _ _) own below with done | ⟨q,mine,returned,written⟩
    · exact .inl done
    obtain ⟨rfl,_⟩ := spare q mine
    exact .inr ⟨_,fresh_none fair.bound,returned,written⟩

theorem resume_fair {error : Option Errno} (ran : step c s (.resume t error) = .ok (reply,s')) (fair : Fair s) :
    Fair s' ∨ ∃ fr q u, s.frames t = some fr ∧ fr.sparelock = some q ∧ s.lockf fr.lock = some u ∧ error = none ∧
      reply = some (.returned none) ∧ Written s' q u.lfUid := by
  unfold step at ran
  dsimp only at ran
  cases frame : s.frames t with
  | none =>
    rw [frame] at ran
    cases ran
  | some fr =>
    rw [frame] at ran
    obtain ⟨⟨r,s₁⟩,resumed,ran⟩ := bind_ok ran
    obtain ⟨⟨answer,s₂⟩,after,ran⟩ := bind_ok ran
    cases ran
    obtain ⟨s₃,left,resumed⟩ := bind_ok resumed
    have quiet := leaveQueue_quiet left
    obtain ⟨agree,below⟩ := fair.twins t fr frame
    have fair₃ := quiet.even.fair (fair.unframe t)
    cases error with
    | some e =>
      obtain ⟨s₄,freed,resumed⟩ := bind_ok resumed
      cases resumed
      exact .inl ((afterSetlock_even after).fair ((lfFree_even freed).fair fair₃))
    | none =>
      have agree₃ : Agree s₃ fr.lock fr.sparelock := quiet.even.agree agree
      rcases lfSetlock_fair resumed fair₃ agree₃ (quiet.even.below below) with done | ⟨q,l,l',mine,result,live,live',done⟩
      · exact .inl ((afterSetlock_even after).fair done)
      rw [result] at after
      cases after
      obtain ⟨u,got,_⟩ := bind_ok left
      have here := get_ok got
      obtain ⟨u₃,here₃,same⟩ := quiet.live here
      refine .inr ⟨fr,q,u,rfl,mine,here,rfl,rfl,l',live',fun equal => done ?_⟩
      rw [agree₃ q l u₃ mine live here₃,same]
      exact equal.symm

-- The range of `u` is inside the lock `l` of its owner, with something left on
-- either side.
def SplitsFrom (u l : Lock) : Prop := l.lfId = u.lfId ∧ l.lfStart < u.lfStart ∧ u.lfEnd ≠ -1 ∧ (l.lfEnd = -1 ∨ u.lfEnd < l.lfEnd)

theorem clears_new (clears : Clears u keep sp es es' ws taken sp') (member : e ∈ es') :
    e.1 ∈ ptrs es ∨ sp ≠ sp' ∧ ∃ e₀ ∈ es, SplitsFrom u e₀.2 ∧ e.2.lfUid = e₀.2.lfUid := by
  induction clears with
  | nil => cases member
  | skip e₀ away tail ih | before p l own starts reaches ends tail ih =>
    rcases mem_cons.mp member with rfl | later
    · exact .inl (by simp)
    rcases ih later with old | ⟨spent,e₁,here,rest⟩
    · exact .inl (by simp [old])
    · exact .inr ⟨spent,e₁,mem_cons_of_mem _ here,rest⟩
  | stop => exact .inl (ptr_mem member)
  | equal p l es => exact .inl (by simp [ptr_mem member])
  | inside p l own inside tail ih =>
    rcases ih member with old | ⟨spent,e₁,here,rest⟩
    · exact .inl (by simp [old])
    · exact .inr ⟨spent,e₁,mem_cons_of_mem _ here,rest⟩
  | last p l es own starts ends | after p l es own starts fin meets ends =>
    rcases mem_cons.mp member with rfl | later
    · exact .inl (by simp)
    · exact .inl (by simp [ptr_mem later])
  | split q p l es own starts fin ends =>
    rcases mem_cons.mp member with rfl | later
    · exact .inl (by simp)
    rcases mem_cons.mp later with rfl | later
    · exact .inr ⟨by simp,(p,l),by simp,⟨own,starts,fin,ends⟩,rfl⟩
    · exact .inl (by simp [ptr_mem later])

theorem clears_unsplit (clears : Clears u keep sp es es' ws taken sp) (member : e ∈ es') : e.1 ∈ ptrs es :=
  (clears_new clears member).resolve_right (fun split => split.1 rfl)

theorem grants_new (grants : Grants k u sp es es' ws sp') (member : e ∈ es') : e.1 ∈ ptrs es ∨ e.2.lfUid = u.lfUid ∨
    ∃ e₀ ∈ es, SplitsFrom u e₀.2 ∧ e₀.2.lfType ≠ u.lfType ∧ e.2.lfUid = e₀.2.lfUid := by
  induction grants with
  | nil =>
    rw [mem_singleton.mp member]
    exact .inr (.inl rfl)
  | skip e₀ away tail ih =>
    rcases mem_cons.mp member with rfl | later
    · exact .inl (by simp)
    rcases ih later with old | own | ⟨e₁,here,rest⟩
    · exact .inl (by simp [old])
    · exact .inr (.inl own)
    · exact .inr (.inr ⟨e₁,mem_cons_of_mem _ here,rest⟩)
  | stop e₀ es own past =>
    rcases mem_cons.mp member with rfl | later
    · exact .inr (.inl rfl)
    · exact .inl (ptr_mem later)
  | equal p l es own same =>
    rcases mem_cons.mp member with rfl | later
    · exact .inl (by simp)
    · exact .inl (by simp [ptr_mem later])
  | same p l es => exact .inl (ptr_mem member)
  | inside p l own inside tail =>
    rcases mem_cons.mp member with rfl | later
    · exact .inr (.inl rfl)
    · exact .inl (by simp [clears_unsplit tail later])
  | before p l own starts reaches ends tail =>
    rcases mem_cons.mp member with rfl | later
    · exact .inl (by simp)
    rcases mem_cons.mp later with rfl | later
    · exact .inr (.inl rfl)
    · exact .inl (by simp [clears_unsplit tail later])
  | last p l es own starts ends =>
    rcases mem_cons.mp member with rfl | later
    · exact .inl (by simp)
    rcases mem_cons.mp later with rfl | later
    · exact .inr (.inl rfl)
    · exact .inl (by simp [ptr_mem later])
  | after p l es own starts fin meets ends =>
    rcases mem_cons.mp member with rfl | later
    · exact .inr (.inl rfl)
    rcases mem_cons.mp later with rfl | later
    · exact .inl (by simp)
    · exact .inl (by simp [ptr_mem later])
  | split q p l es own starts fin ends type =>
    rcases mem_cons.mp member with rfl | later
    · exact .inl (by simp)
    rcases mem_cons.mp later with rfl | later
    · exact .inr (.inl rfl)
    rcases mem_cons.mp later with rfl | later
    · exact .inr (.inr ⟨(p,l),by simp,⟨own,starts,fin,ends⟩,type,rfl⟩)
    · exact .inl (by simp [ptr_mem later])

theorem written_fair (sound : Sound c s' (v.edit f es' ws) []) (written : Written s' q uid) (away : ∀ g, q ∉ ptrs (v.held g))
    (free : ∀ t fr, v.frames t = some fr → fr.lock ≠ q ∧ fr.sparelock ≠ some q) (new : ∀ l', (q,l') ∈ es' → l'.lfUid = uid) : Fair s' := by
  obtain ⟨l',live,fair⟩ := written
  refine fair ?_
  obtain ⟨g,member⟩ := sound.placed live free
  by_cases here : g = f
  · subst g
    rw [edit_held] at member
    exact new l' member
  rw [edit_other v es' ws here] at member
  exact absurd (ptr_mem member) (away g)

def unlockOf (s : State) : Op → Option Lock
  | .advlock _ uid ap => match flockRange ap.aFl ap.size with
    | .ok (some (start,fin)) => if ap.aOp = .unlck ∧ ¬ OverLimit ap uid start fin s then some (ap.lock start fin uid) else none
    | _ => none
  | _ => none

structure Matched (s : State) (op : Op) : Prop where
  set : ∀ u, requestOf s op = some u → lfGetblock u s = .ok none → ∀ l ∈ lockList s u.lfHead, SplitsFrom u l → l.lfType ≠ u.lfType →
    l.lfUid = u.lfUid
  clear : ∀ u, unlockOf s op = some u → ∀ l ∈ lockList s u.lfHead, SplitsFrom u l → l.lfUid = u.lfUid

inductive MatchedRun (c : Procs) : State → Prop
  | initial : MatchedRun c initial
  | step (s s' : State) (op : Op) (reply : Option Reply) (prior : MatchedRun c s) (allowed : Allowed c s op) (matched : Matched s op)
      (ran : step c s op = .ok (reply,s')) : MatchedRun c s'

theorem mem_lockList (rep : Rep s v) (member : e ∈ v.held f) : e.2 ∈ lockList s f := by
  rw [rep.lockList]
  exact mem_map_of_mem member

section
variable (sound : Sound c s v [])
include sound

theorem Sound.unblocked (range : Ranged u) (free : blocker u (v.held u.lfHead) = none) : lfGetblock u s = .ok none := by
  rw [lfGetblock_spec sound.rep rfl (fun e member => (sound.proper _ e member).1.shaped.ranged) range,free]
  rfl

theorem held_live (none : s.lockf q = none) (g : Nat) : q ∉ ptrs (v.held g) := by
  intro member
  obtain ⟨l,here⟩ := mem_ptrs.mp member
  have live := sound.rep.live g _ here
  rw [none] at live
  cases live

theorem frames_live (none : s.lockf q = none) {fr : Frame} (frame : v.frames t = some fr) :
    fr.lock ≠ q ∧ fr.sparelock ≠ some q := by
  constructor
  · rintro rfl
    obtain ⟨l,loose,_⟩ := sound.frame t fr frame
    have live := (sound.rep.loose _ l loose).1
    rw [none] at live
    cases live
  intro spare
  obtain ⟨_,l,live,_⟩ := sound.spare t fr q frame spare
  rw [none] at live
  cases live

theorem advlock_fair {answer : Reply} {fl : Flock} (fair : Fair s) (matched : Matched s (.advlock t uid ap))
    (ran : lfAdvlock c t uid ap s = .ok (answer,fl,s')) (sound' : Sound c s' v' []) (advised : Advised c s v t uid ap answer v') : Fair s' := by
  rcases lfAdvlock_fair ran fair with done | ⟨q,none,returned,written⟩
  · exact done
  have away := held_live sound none
  have free : ∀ t fr, v.frames t = some fr → fr.lock ≠ q ∧ fr.sparelock ≠ some q := fun t fr => frames_live sound none
  cases advised with
  | invalid => cases returned
  | full => cases returned
  | tested =>
    obtain ⟨l',live,_⟩ := written
    obtain ⟨g,member⟩ := sound'.placed live free
    exact absurd (ptr_mem member) (away g)
  | unlocked start fin range op room es' ws sp sp' clears =>
    refine written_fair sound' written away free ?_
    intro l' member
    rcases clears_new clears member with old | ⟨_,e₀,here,splits,same⟩
    · exact absurd old (away _)
    refine same.trans (matched.clear _ ?_ _ (mem_lockList sound.rep here) splits)
    unfold unlockOf
    dsimp only
    rw [range]
    exact if_pos ⟨op,room⟩
  | set start fin range op room s₁ s₂ v' k sp r running settled =>
    cases settled with
    | refused => cases returned
    | deadlock => cases returned
    | asleep => cases returned
    | granted sp' s₂ es' ws found grants =>
      refine written_fair sound' written away free ?_
      intro l' member
      rcases grants_new grants member with old | own | ⟨e₀,here,splits,type,same⟩
      · exact absurd old (away _)
      · exact own
      refine same.trans (matched.set _ ?_ (sound.unblocked running.shaped.ranged found) _ (mem_lockList sound.rep here) splits type)
      unfold requestOf
      dsimp only
      rw [range]
      exact if_pos ⟨op,room⟩
end

theorem left_ptrs {fr : Frame} (left : Left v t fr v₁) (f : Nat) : ptrs (v₁.held f) = ptrs (v.held f) := by
  have bares : ∀ es : List Entry, ptrs es = ptrs (es.map bare) := fun es => by simp [ptrs,bare]
  rw [bares,left_held left,← bares]

theorem resumed_fair {error : Option Errno} (sound : Sound c s v []) (fair : Fair s) (matched : Matched s (.resume t error))
    (ran : step c s (.resume t error) = .ok (reply,s')) (sound' : Sound c s' v' []) (stepped : Stepped c s v (.resume t error) reply v') :
    Fair s' := by
  rcases resume_fair ran fair with done | ⟨fr,q,u,frame,spare,live,rfl,rfl,written⟩
  · exact done
  generalize answer : some (Reply.returned none) = reply at stepped
  cases stepped with
  | again t s₁ s₂ v₁ v' fr' u' r frame' loose awake left running settled =>
    rw [sound.rep.frames,frame'] at frame
    have one : fr = fr' := (some.inj frame).symm
    subst one
    have same : u' = u := some.inj ((sound.rep.loose _ u' loose).1.symm.trans live)
    subst same
    obtain ⟨off,_⟩ := sound.spare t fr q frame' spare
    have away : ∀ g, q ∉ ptrs (v₁.held g) := by
      intro g
      rw [left_ptrs left]
      exact off.2 g
    have frames : v₁.frames = update v.frames t none := by
      cases left with
      | alone => rfl
      | queued => rfl
    have free : ∀ t' fr, v₁.frames t' = some fr → fr.lock ≠ q ∧ fr.sparelock ≠ some q := by
      intro t' fr' here
      rw [frames] at here
      by_cases mine : t' = t
      · rw [mine,update_self] at here
        cases here
      rw [update_of_ne mine] at here
      obtain ⟨l,loose',_⟩ := sound.frame t' fr' here
      refine ⟨?_,fun his => (sound.apart t t' fr fr' frame' here (Ne.symm mine)).2 q spare his⟩
      rintro rfl
      rw [off.1] at loose'
      cases loose'
    cases settled with
    | refused => cases answer
    | deadlock => cases answer
    | asleep => cases answer
    | granted sp' s₂ es' ws found grants =>
      refine written_fair sound' written away free ?_
      intro l' member
      rcases grants_new grants member with old | own | ⟨e₀,here,splits,type,equal⟩
      · exact absurd old (away _)
      · exact own
      have request : requestOf s (.resume t none) = some u' := by
        change (s.frames t).bind _ = _
        rw [sound.rep.frames,frame']
        exact live
      have free' : blocker u' (v.held u'.lfHead) = none := by
        have bares := congrArg (blocker u') (left_held left u'.lfHead)
        rw [blocker_bare,blocker_bare,found] at bares
        exact map_eq_none_iff.mp bares.symm
      have there : bare e₀ ∈ (v.held u'.lfHead).map bare := left_held left _ ▸ mem_map_of_mem here
      obtain ⟨e₁,member₁,same⟩ := mem_map.mp there
      have fields : e₁.2.lfId = e₀.2.lfId ∧ e₁.2.lfStart = e₀.2.lfStart ∧ e₁.2.lfEnd = e₀.2.lfEnd ∧ e₁.2.lfType = e₀.2.lfType ∧
          e₁.2.lfUid = e₀.2.lfUid := by
        have lock := congrArg Prod.snd same
        simp only [bare,mk.injEq] at lock
        tauto
      obtain ⟨id,start,fin,kind,user⟩ := fields
      have splits' : SplitsFrom u' e₁.2 := by
        unfold SplitsFrom
        rw [id,start,fin]
        exact splits
      exact equal.trans (user.symm.trans (matched.set u' request (sound.unblocked running.shaped.ranged free') _
        (mem_lockList sound.rep member₁) splits' (kind ▸ type)))

theorem initial_fair : Fair initial := by
  refine ⟨fun p l live => (by cases live),?_,fun t fr frame => (by cases frame)⟩
  intro uid
  simp [initial,liveCount,ulong]

theorem matchedRun_fair (run : MatchedRun c s) : ∃ v, Sound c s v [] ∧ Fair s := by
  induction run with
  | initial => exact ⟨_,initial_sound c,initial_fair⟩
  | step s s' op reply prior allowed matched ran ih =>
    obtain ⟨v,sound,fair⟩ := ih
    obtain ⟨reply',s'',v',done,sound',stepped⟩ := step_spec sound allowed (step_defined ran)
    rw [ran] at done
    cases done
    refine ⟨v',sound',?_⟩
    cases op with
    | signal t =>
      cases ran
      exact fair.setWchan _
    | resume t error => exact resumed_fair sound fair matched ran sound' stepped
    | advlock t uid ap =>
      have called := ran
      unfold step at called
      obtain ⟨⟨answer,fl,s₁⟩,advlock,called⟩ := bind_ok called
      cases called
      cases stepped with
      | advlock t uid ap answer v' advised => exact advlock_fair sound fair matched advlock sound' advised

-- Every count is the number of the user's structures, and zero once nothing is
-- locked and nobody waits.
theorem accounting (run : MatchedRun c s) : Balanced s ∧
    ((∀ f, lockList s f = []) → (∀ t, s.frames t = none) → ∀ uid, s.uiLockcnt uid = 0) := by
  obtain ⟨v,sound,fair⟩ := matchedRun_fair run
  refine ⟨fair.balanced,?_⟩
  intro empty idle uid
  rw [fair.balanced uid]
  have none : ∀ p, s.lockf p = none := by
    intro p
    cases live : s.lockf p with
    | none => rfl
    | some l =>
      have free : ∀ t fr, v.frames t = some fr → fr.lock ≠ p ∧ fr.sparelock ≠ some p := by
        intro t fr frame
        rw [← sound.rep.frames,idle t] at frame
        cases frame
      obtain ⟨f,member⟩ := sound.placed live free
      have listed := mem_lockList sound.rep member
      rw [empty f] at listed
      cases listed
  have zero : liveCount s uid = 0 := by
    unfold liveCount
    simp [none]
  rw [zero]
  rfl

theorem accounting_one : ∃ s, MatchedRun singles s ∧ s.uiLockcnt 1 = 1 ∧ Balanced s ∧
    ((∀ f, lockList s f = []) → (∀ t, s.frames t = none) → ∀ uid, s.uiLockcnt uid = 0) := by
  have matched : Matched initial (.advlock 0 1 (exclusive 0 0)) := by
    refine ⟨?_,?_⟩
    · intro u _ _ l member
      cases member
    · intro u _ l member
      cases member
  have ran : step singles initial (.advlock 0 1 (exclusive 0 0)) =
      .ok (some (.returned none),after (step singles initial (.advlock 0 1 (exclusive 0 0)))) := rfl
  have run := MatchedRun.step _ _ _ _ .initial (.advlock 0 1 _ rfl (.posix rfl rfl rfl (fun _ bad => by cases bad))) matched ran
  exact ⟨_,run,rfl,accounting run⟩

def unlocking (start len : Int) : Args := ⟨.unlck,⟨start,len,0,.unlck,.seekSet⟩,⟨false,true,false⟩,.proc 0,0,0⟩

def locked : State := after (step singles initial (.advlock 0 1 (exclusive 0 0)))
def cut : State := after (step singles locked (.advlock 0 2 (unlocking 5 1)))
def released : State := after (step singles cut (.advlock 0 1 (unlocking 0 0)))

theorem count_below_zero : Reached singles released ∧ lockList released 0 = [] ∧ (∀ t, released.frames t = none) ∧
    released.uiLockcnt 1 = 2 ^ 32 - 1 ∧ ¬ Balanced released := by
  have calls : ∀ start len, Calls singles 0 (unlocking start len) := fun _ _ => .posix rfl rfl rfl (fun bad => by cases bad)
  have first : Reached singles locked :=
    .step _ _ _ (some (.returned none)) .initial (.advlock 0 1 (exclusive 0 0) rfl (.posix rfl rfl rfl (fun _ bad => by cases bad))) rfl
  have second : Reached singles cut := .step _ _ _ (some (.returned none)) first (.advlock 0 2 (unlocking 5 1) rfl (calls 5 1)) rfl
  have third : Reached singles released := .step _ _ _ (some (.returned none)) second (.advlock 0 1 (unlocking 0 0) rfl (calls 0 0)) rfl
  have low : released.uiLockcnt 1 = 2 ^ 32 - 1 := by decide +kernel
  refine ⟨third,by decide +kernel,fun t => rfl,low,?_⟩
  intro balanced
  have none : liveCount released 1 = 0 := by decide +kernel
  have count := balanced 1
  cases count
end NetbsdAvr32.Lockf
