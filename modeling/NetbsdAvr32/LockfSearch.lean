import NetbsdAvr32.LockfRep

-- lf_findoverlap and lf_getblock as searches of a list.
namespace NetbsdAvr32.Lockf
open Function Linked Outcome List Nat
variable {s : State} {v : View} {f : Nat} {l u : Lock} {e : Entry} {es left : List Entry} {c : Ovcase}

def CaseOf (lf lock : Lock) : Ovcase → Prop
  | .noOverlap => Apart lf lock
  | .equal => lf.lfStart = lock.lfStart ∧ lf.lfEnd = lock.lfEnd
  | .contains => lf.lfStart ≤ lock.lfStart ∧ lock.lfEnd ≠ -1 ∧ (lf.lfEnd = -1 ∨ lock.lfEnd ≤ lf.lfEnd) ∧
      ¬ (lf.lfStart = lock.lfStart ∧ lf.lfEnd = lock.lfEnd)
  | .contained => Inside lf lock
  | .startsBefore => lf.lfStart < lock.lfStart ∧ (lf.lfEnd = -1 ∨ lock.lfStart ≤ lf.lfEnd) ∧
      (lock.lfEnd = -1 ∨ lf.lfEnd ≠ -1 ∧ lf.lfEnd < lock.lfEnd)
  | .endsAfter => lock.lfStart < lf.lfStart ∧ lock.lfEnd ≠ -1 ∧ lf.lfStart ≤ lock.lfEnd ∧
      (lf.lfEnd = -1 ∨ lock.lfEnd < lf.lfEnd)

theorem lfOvcase_spec (ranged : Ranged l) (range : Ranged u) :
    ∃ c, lfOvcase l u = .ok c ∧ CaseOf l u c ∧ (c ≠ .noOverlap → ¬ Apart l u) := by
  unfold lfOvcase
  by_cases none : l.lfEnd ≠ -1 ∧ u.lfStart > l.lfEnd ∨ u.lfEnd ≠ -1 ∧ l.lfStart > u.lfEnd
  · exact ⟨_,if_pos none,none,fun other => absurd rfl other⟩
  rw [if_neg none]
  have meets : ¬ Apart l u := none
  by_cases equal : l.lfStart = u.lfStart ∧ l.lfEnd = u.lfEnd
  · exact ⟨_,if_pos equal,equal,fun _ => meets⟩
  rw [if_neg equal]
  by_cases contains : l.lfStart ≤ u.lfStart ∧ u.lfEnd ≠ -1 ∧ (l.lfEnd ≥ u.lfEnd ∨ l.lfEnd = -1)
  · refine ⟨_,if_pos contains,?_,fun _ => meets⟩
    exact ⟨contains.1,contains.2.1,contains.2.2.symm,equal⟩
  rw [if_neg contains]
  by_cases contained : u.lfStart ≤ l.lfStart ∧ (u.lfEnd = -1 ∨ l.lfEnd ≠ -1 ∧ u.lfEnd ≥ l.lfEnd)
  · exact ⟨_,if_pos contained,contained,fun _ => meets⟩
  rw [if_neg contained]
  by_cases before : l.lfStart < u.lfStart ∧ (l.lfEnd ≥ u.lfStart ∨ l.lfEnd = -1)
  · refine ⟨_,if_pos before,?_,fun _ => meets⟩
    refine ⟨before.1,before.2.symm,?_⟩
    omega
  rw [if_neg before]
  have after : l.lfStart > u.lfStart ∧ u.lfEnd ≠ -1 ∧ (l.lfEnd > u.lfEnd ∨ l.lfEnd = -1) := by omega
  refine ⟨_,if_pos after,?_,fun _ => meets⟩
  refine ⟨after.1,after.2.1,?_,after.2.2.symm⟩
  omega

inductive Stops (u : Lock) : Ovcase → List Entry → Prop
  | finished : Stops u .noOverlap []
  | past (e : Entry) (rest : List Entry) (own : e.2.lfId = u.lfId) (past : u.lfEnd ≠ -1 ∧ e.2.lfStart > u.lfEnd) :
      Stops u .noOverlap (e :: rest)
  | overlap (c : Ovcase) (e : Entry) (rest : List Entry) (own : e.2.lfId = u.lfId) (some : c ≠ .noOverlap) (which : CaseOf e.2 u c) :
      Stops u c (e :: rest)

def Before (u : Lock) (e : Entry) : Prop := e.2.lfId ≠ u.lfId ∨ e.2.lfEnd ≠ -1 ∧ u.lfStart > e.2.lfEnd

theorem findoverlap_self (rep : Rep s v) (file : v.held f = left ++ es) (ranged : ∀ e ∈ es, Ranged e.2) (range : Ranged u)
    (fuel : Nat) (enough : es.length < fuel) :
    ∃ skipped rest c, es = skipped ++ rest ∧ (∀ e ∈ skipped, Before u e) ∧ Stops u c rest ∧
      lfFindoverlap .self u fuel (ptrs es).head? (lastSlot (.head f) (ptrs left)) s =
        .ok ⟨c,lastSlot (.head f) (ptrs (left ++ skipped)),(ptrs rest).head?⟩ := by
  induction es generalizing left fuel with
  | nil =>
    obtain ⟨k,rfl⟩ := exists_eq_succ_of_ne_zero (ne_of_gt enough)
    exact ⟨[],[],_,rfl,by simp,.finished,by simp [lfFindoverlap]⟩
  | cons e es ih =>
    obtain ⟨k,rfl⟩ := exists_eq_succ_of_ne_zero (ne_of_gt (lt_of_le_of_lt (zero_le _) enough))
    obtain ⟨p,l⟩ := e
    have live := rep.live f (p,l) (by rw [file]; simp)
    have next := rep.next file
    have again : v.held f = (left ++ [(p,l)]) ++ es := by rw [file]; simp
    have pass : Before u (p,l) → ∃ skipped rest c, (p,l) :: es = skipped ++ rest ∧ (∀ e ∈ skipped, Before u e) ∧ Stops u c rest ∧
        lfFindoverlap .self u k (s.lfNext (.next p)) (.next p) s =
          .ok ⟨c,lastSlot (.head f) (ptrs (left ++ skipped)),(ptrs rest).head?⟩ := by
      intro before
      obtain ⟨skipped,rest,c,split,passed,stops,found⟩ :=
        ih again (fun e member => ranged e (by simp [member])) k (by simpa using enough)
      refine ⟨(p,l) :: skipped,rest,c,by rw [split]; rfl,?_,stops,?_⟩
      · intro e member
        rcases mem_cons.mp member with rfl | later
        · exact before
        · exact passed e later
      rw [next]
      simpa using found
    simp only [ptrs_cons,head?_cons,lfFindoverlap]
    rw [get_live live,ok_bind]
    by_cases other : l.lfId ≠ u.lfId
    · rw [if_pos (.inl ⟨trivial,other⟩)]
      exact pass (.inl other)
    rw [if_neg (by simpa using other)]
    have own : l.lfId = u.lfId := not_not.mp other
    obtain ⟨c,which,facts,_⟩ := lfOvcase_spec (ranged (p,l) (by simp)) range
    rw [which,ok_bind]
    cases c with
    | noOverlap =>
      by_cases past : u.lfEnd ≠ -1 ∧ l.lfStart > u.lfEnd
      · rw [if_pos ⟨trivial,past⟩]
        exact ⟨[],(p,l) :: es,.noOverlap,rfl,by simp,.past _ _ own past,by simp⟩
      rw [if_neg (fun all => past all.2)]
      refine pass (.inr ?_)
      rcases facts with before | after
      · exact before
      · exact absurd after past
    | _ => exact ⟨[],(p,l) :: es,_,rfl,by simp,.overlap _ _ _ own (by simp) facts,by simp⟩

def Blocks (u : Lock) (e : Entry) : Prop := e.2.lfId ≠ u.lfId ∧ Conflicts u e.2

theorem findoverlap_others (rep : Rep s v) (file : v.held f = left ++ es) (ranged : ∀ e ∈ es, Ranged e.2) (range : Ranged u)
    (prev : LockfSlot) (fuel : Nat) (enough : es.length < fuel) :
    ∃ skipped rest c prev', es = skipped ++ rest ∧ (∀ e ∈ skipped, ¬ Blocks u e) ∧
      (rest = [] ∧ c = .noOverlap ∨ ∃ e more, rest = e :: more ∧ e.2.lfId ≠ u.lfId ∧ c ≠ .noOverlap ∧ ¬ Apart e.2 u) ∧
      lfFindoverlap .others u fuel (ptrs es).head? prev s = .ok ⟨c,prev',(ptrs rest).head?⟩ := by
  induction es generalizing left fuel prev with
  | nil =>
    obtain ⟨k,rfl⟩ := exists_eq_succ_of_ne_zero (ne_of_gt enough)
    exact ⟨[],[],_,prev,rfl,by simp,.inl ⟨rfl,rfl⟩,by simp [lfFindoverlap]⟩
  | cons e es ih =>
    obtain ⟨k,rfl⟩ := exists_eq_succ_of_ne_zero (ne_of_gt (lt_of_le_of_lt (zero_le _) enough))
    obtain ⟨p,l⟩ := e
    have live := rep.live f (p,l) (by rw [file]; simp)
    have next := rep.next file
    have again : v.held f = (left ++ [(p,l)]) ++ es := by rw [file]; simp
    have pass : ¬ Blocks u (p,l) → ∃ skipped rest c prev', (p,l) :: es = skipped ++ rest ∧ (∀ e ∈ skipped, ¬ Blocks u e) ∧
        (rest = [] ∧ c = .noOverlap ∨ ∃ e more, rest = e :: more ∧ e.2.lfId ≠ u.lfId ∧ c ≠ .noOverlap ∧ ¬ Apart e.2 u) ∧
        lfFindoverlap .others u k (s.lfNext (.next p)) (.next p) s = .ok ⟨c,prev',(ptrs rest).head?⟩ := by
      intro free
      obtain ⟨skipped,rest,c,prev',split,passed,stops,found⟩ :=
        ih again (fun e member => ranged e (by simp [member])) (.next p) k (by simpa using enough)
      refine ⟨(p,l) :: skipped,rest,c,prev',by rw [split]; rfl,?_,stops,?_⟩
      · intro e member
        rcases mem_cons.mp member with rfl | later
        · exact free
        · exact passed e later
      rw [next]
      exact found
    simp only [ptrs_cons,head?_cons,lfFindoverlap]
    rw [get_live live,ok_bind]
    by_cases own : l.lfId = u.lfId
    · rw [if_pos (.inr ⟨trivial,own⟩)]
      exact pass (fun blocks => blocks.1 own)
    rw [if_neg (by simpa using own)]
    obtain ⟨c,which,facts,meets⟩ := lfOvcase_spec (ranged (p,l) (by simp)) range
    rw [which,ok_bind]
    by_cases none : c = .noOverlap
    · subst c
      exact pass (fun blocks => blocks.2.1 (apart_symm.mp facts))
    refine ⟨[],(p,l) :: es,c,prev,rfl,by simp,.inr ⟨_,_,rfl,own,none,meets none⟩,?_⟩
    cases c <;> first | exact absurd rfl none | simp

instance (u : Lock) (e : Entry) : Decidable (Blocks u e) := inferInstanceAs (Decidable (_ ∧ _))
def blocker (u : Lock) (es : List Entry) : Option Entry := es.find? (fun e => decide (Blocks u e))
theorem blocker_none : blocker u es = none ↔ ∀ e ∈ es, ¬ Blocks u e := by simp [blocker]

theorem blocker_some (found : blocker u es = some e) : e ∈ es ∧ Blocks u e := by
  have blocks := find?_some found
  exact ⟨mem_of_find?_eq_some found,by simpa using blocks⟩

variable {skipped rest : List Entry} {q : Ptr} {w : Lock}

theorem blocker_skip (passed : ∀ e ∈ skipped, ¬ Blocks u e) : blocker u (skipped ++ rest) = blocker u rest := by
  unfold blocker
  have none : skipped.find? (fun e => decide (Blocks u e)) = none := blocker_none.mpr passed
  rw [find?_append,none,Option.none_or]

theorem getblockLoop_spec (rep : Rep s v) (file : v.held f = left ++ es) (ranged : ∀ e ∈ es, Ranged e.2) (range : Ranged u)
    (prev : LockfSlot) (fuel : Nat) (enough : es.length < fuel) :
    getblockLoop u fuel (ptrs es).head? prev s = .ok ((blocker u es).map Prod.fst) := by
  induction fuel generalizing es left prev with
  | zero => cases enough
  | succ k ih =>
    have short : es.length < s.nextLockf + 1 := by
      have length := rep.length (f := f)
      rw [file] at length
      simp [ptrs] at length
      omega
    obtain ⟨skipped,rest,c,prev',split,passed,stops,found⟩ := findoverlap_others rep file ranged range prev _ short
    rw [split,blocker_skip passed,← split]
    rcases stops with ⟨rfl,rfl⟩ | ⟨e,more,rfl,other,present,meets⟩
    · unfold getblockLoop
      rw [found,ok_bind]
      rfl
    obtain ⟨p,l⟩ := e
    have again : v.held f = (left ++ skipped) ++ (p,l) :: more := by rw [file,split]; simp
    have live := rep.live f (p,l) (by rw [again]; simp)
    have next := rep.next again
    have round : getblockLoop u (k + 1) (ptrs es).head? prev s =
        if u.lfType = .wrlck ∨ l.lfType = .wrlck then .ok (some p) else getblockLoop u k (ptrs more).head? prev' s := by
      rw [← next]
      conv => lhs; unfold getblockLoop
      rw [found,ok_bind]
      cases c <;> first
        | exact absurd rfl present
        | (dsimp only [ptrs_cons,head?_cons]; rw [get_live live,ok_bind])
    rw [round]
    by_cases exclusive : u.lfType = .wrlck ∨ l.lfType = .wrlck
    · have blocks : Blocks u (p,l) := ⟨other,fun apart => meets (apart_symm.mp apart),exclusive⟩
      rw [if_pos exclusive,blocker,find?_cons_of_pos (by simpa using blocks)]
      rfl
    have free : ∀ e ∈ [(p,l)], ¬ Blocks u e := by
      intro e here
      rw [mem_singleton.mp here]
      exact fun blocks => exclusive blocks.2.2
    have behind : v.held f = (left ++ skipped ++ [(p,l)]) ++ more := by rw [again]; simp
    have shorter : more.length < k := by
      have length := congrArg length split
      simp at length
      omega
    have skip : blocker u ((p,l) :: more) = blocker u more := blocker_skip free
    rw [if_neg exclusive,skip]
    exact ih behind (fun e member => ranged e (by rw [split]; simp [member])) prev' shorter

theorem lfGetblock_spec (rep : Rep s v) (head : u.lfHead = f) (ranged : ∀ e ∈ v.held f, Ranged e.2) (range : Ranged u) :
    lfGetblock u s = .ok ((blocker u (v.held f)).map Prod.fst) := by
  have length := rep.length (f := f)
  have whole : v.held f = [] ++ v.held f := rfl
  have enough : (v.held f).length < s.nextLockf + 1 := by
    simp only [ptrs,length_map] at length
    omega
  unfold lfGetblock
  rw [head,(rep.chain f).first]
  exact getblockLoop_spec rep whole ranged range _ _ enough

-- lf_clearlock edits the list as `Clears` says.
variable {s' : State} {v' : View} {p x : Ptr} {right : List Entry} {sp : Option Ptr}

structure Locals (s : State) (v : View) (x : Ptr) (u : Lock) (sp : Option Ptr) : Prop where
  lock : v.Off x ∧ s.lockf x = some u
  spare : ∀ q, sp = some q → v.Off q ∧ q ≠ x ∧ ∃ l, s.lockf q = some l

theorem Locals.kept (own : Locals s v x u sp) (kept : Kept s s' v v' []) : Locals s' v' x u sp := by
  obtain ⟨off,same⟩ := kept.off x own.lock.1 (by simp)
  refine ⟨⟨off,same.trans own.lock.2⟩,?_⟩
  intro q spare
  obtain ⟨away,other,l,live⟩ := own.spare q spare
  obtain ⟨off,same⟩ := kept.off q away (by simp)
  exact ⟨off,other,l,same.trans live⟩

theorem held_off {off : Ptr} (file : v.held f = left ++ (p,l) :: right) (away : v.Off off) : off ≠ p := by
  rintro rfl
  exact away.2 f (by rw [file]; simp)

theorem gone_entry (file : v.held f = left ++ (p,l) :: right) (out : q ∉ ptrs (left ++ right)) (member : q ∈ ptrs (v.held f)) :
    q = p := by
  rw [file] at member
  simp only [ptrs_append,ptrs_cons,mem_append,mem_cons,not_or] at member out
  tauto

theorem wake_drop (rep : Rep s v) (file : v.held f = left ++ (p,l) :: right) :
    ∃ s₁ s₂ s₃, lfWakelock p s = .ok s₁ ∧ s₁.lfNext (.next p) = (ptrs right).head? ∧
      s₁.store (lastSlot (.head f) (ptrs left)) (ptrs right).head? = .ok s₂ ∧ lfFree p s₂ = .ok s₃ ∧
      Rep s₃ (v.edit f (left ++ right) l.lfBlkhd) ∧ Kept s s₃ v (v.edit f (left ++ right) l.lfBlkhd) [] := by
  obtain ⟨woke,woken⟩ := rep.wake file
  have file' := edit_held v f (left ++ (p,{l with lfBlkhd := []}) :: right) l.lfBlkhd
  have next := woken.next file'
  have live : (s.woken p l).lockf p = some {l with lfBlkhd := []} := update_self _ _ _
  have dropped := woken.drop file' rfl
  rw [edit_edit,append_nil,next] at dropped
  refine ⟨_,_,_,woke,next,woken.store file' _,lfFree_eq live,dropped,kept_list ?_ rfl ?_ ?_⟩
  · intro q member
    rw [file]
    simp only [ptrs_append,mem_append,ptrs_cons,mem_cons] at member ⊢
    rcases member with before | after
    · exact .inl (.inl before)
    · exact .inl (.inr (.inr after))
  · intro q off _
    have other : q ≠ p := fun equal => off (by rw [equal,file]; simp)
    exact (update_of_ne other _ _).trans (update_of_ne other _ _)
  intro q out either
  rw [gone_entry file out (by simpa using either)]
  exact update_self _ _ _

theorem wake_cut (rep : Rep s v) (file : v.held f = left ++ (p,l) :: right) (empty : w.lfBlkhd = []) :
    Rep ((s.woken p l).set p w) (v.edit f (left ++ (p,w) :: right) l.lfBlkhd) ∧
      Kept s ((s.woken p l).set p w) v (v.edit f (left ++ (p,w) :: right) l.lfBlkhd) [] := by
  obtain ⟨_,woken⟩ := rep.wake file
  have file' := edit_held v f (left ++ (p,{l with lfBlkhd := []}) :: right) l.lfBlkhd
  have changed := woken.setHeld file' empty
  rw [edit_edit,append_nil] at changed
  refine ⟨changed,kept_more ?_ rfl ?_⟩
  · intro q
    rw [file]
    simp
  intro q off _
  have other : q ≠ p := fun equal => off (by rw [equal,file]; simp)
  exact (update_of_ne other _ _).trans (update_of_ne other _ _)

theorem cutFront_eq (live : s.lockf p = some l) (range : Ranged u) (fin : u.lfEnd ≠ -1) :
    cutFront p u s = .ok (s.set p {l with lfStart := u.lfEnd + 1}) := by
  obtain ⟨⟨low,_⟩,bound⟩ := range
  unfold cutFront
  rw [get_live live,ok_bind,offT_ok (by omega) (by omega),ok_bind]

theorem cutBack_eq (live : s.lockf p = some l) (range : Ranged u) :
    cutBack p u s = .ok (s.set p {l with lfEnd := u.lfStart - 1}) := by
  obtain ⟨⟨low,high⟩,_⟩ := range
  unfold cutBack
  rw [get_live live,ok_bind,offT_ok (by omega) (by omega),ok_bind]

theorem Rep.linkOff (rep : Rep s v) (off : v.Off q) (y : Option Ptr) : Rep (s.link q y) v := by
  refine rep.unseen (fun _ _ => rfl) (fun f => ?_) ?_ rep.bound rfl rfl
  · have apart : Slot.head f ≠ Slot.next q := fun equal => by cases equal
    exact update_of_ne apart y s.lfNext
  intro r seen
  refine update_of_ne ?_ _ _
  intro equal
  cases equal
  exact seen off

theorem Rep.setOff (rep : Rep s v) (off : v.Off q) (live : s.lockf q = some l) : Rep (s.set q w) v := by
  refine rep.unseen ?_ (fun _ => rfl) (fun _ _ => rfl) ?_ rfl rfl
  · intro r seen
    refine update_of_ne ?_ _ _
    rintro rfl
    exact seen off
  intro r l' found
  by_cases mine : r = q
  · subst r
    exact rep.bound q l live
  · exact rep.bound r l' ((update_of_ne mine _ _).symm.trans found)

theorem Rep.freeOff (rep : Rep s v) (off : v.Off q) : Rep (s.freed q l) v := by
  refine rep.unseen ?_ (fun _ => rfl) (fun _ _ => rfl) ?_ rfl rfl
  · intro r seen
    refine update_of_ne ?_ _ _
    rintro rfl
    exact seen off
  intro r l' found
  by_cases mine : r = q
  · have gone : (s.freed q l).lockf r = none := by rw [mine]; exact update_self q none s.lockf
    rw [gone] at found
    cases found
  · exact rep.bound r l' ((update_of_ne mine _ _).symm.trans found)

theorem split_rep (rep : Rep s v) (file : v.held f = left ++ (p,l.front u) :: right) (off : v.Off q)
    (live : ∃ l, s.lockf q = some l) (away : v.Off x) (apart : q ≠ x) :
    Rep {s.set q (l.back u) with
        lfNext := update (update (update s.lfNext (.next q) (s.lfNext (.next p))) (.next x) (some q)) (.next p) (some q)}
      (v.edit f (left ++ (p,l.front u) :: (q,l.back u) :: right) []) := by
  obtain ⟨lq,live⟩ := live
  have other := held_off file off
  have set := (rep.setOff (w := l.back u) off live).linkOff away (some q)
  have file' : v.held f = (left ++ [(p,l.front u)]) ++ right := by rw [file]; simp
  have here : lastSlot (.head f) (ptrs (left ++ [(p,l.front u)])) = (.next p : LockfSlot) := by simp
  have linked := set.linkNew
    (update (update (update s.lfNext (.next q) (s.lfNext (.next p))) (.next x) (some q)) (.next p) (some q))
    file' off (u := l.back u) (update_self _ _ _) rfl (by rw [here,update_self]) ?_ ?_
  · rw [append_assoc] at linked
    exact linked
  · rw [← rep.next file]
    rw [update_of_ne (by simpa using other),update_of_ne (by simpa using apart),update_self]
  intro y notP there
  rw [here] at notP
  rw [update_of_ne notP]
  show update (update s.lfNext (.next q) _) (.next x) (some q) y = update s.lfNext (.next x) (some q) y
  by_cases mine : y = .next x
  · rw [mine,update_self,update_self]
  · rw [update_of_ne mine,update_of_ne mine,update_of_ne there]

theorem lfSplit_two (live : s.lockf p = some l) (live' : s.lockf x = some u) (range : Ranged u) (starts : l.lfStart ≠ u.lfStart)
    (ends : l.lfEnd = u.lfEnd) (sp : Option Ptr) : lfSplit p x sp s =
      .ok (sp,((s.set p {l with lfEnd := u.lfStart - 1}).link x (s.lfNext (.next p))).link p (some x)) := by
  obtain ⟨⟨low,high⟩,_⟩ := range
  unfold lfSplit
  rw [get_live live,ok_bind,get_live live',ok_bind,if_neg starts,if_pos ends,offT_ok (by omega) (by omega),ok_bind]
  rfl

theorem lfSplit_three (live : s.lockf p = some l) (live' : s.lockf x = some u) (spare : s.lockf q = some w)
    (range : Ranged u) (starts : l.lfStart ≠ u.lfStart) (ends : l.lfEnd ≠ u.lfEnd) (fin : u.lfEnd ≠ -1) : lfSplit p x (some q) s =
      .ok (none,{(s.set q {l with lfStart := u.lfEnd + 1, lfBlkhd := []}).set p {l with lfEnd := u.lfStart - 1} with
        lfNext := update (update (update s.lfNext (.next q) (s.lfNext (.next p))) (.next x) (some q)) (.next p) (some x)}) := by
  obtain ⟨⟨low,high⟩,order⟩ := range
  unfold lfSplit
  rw [get_live live,ok_bind,get_live live',ok_bind,if_neg starts,if_neg ends]
  dsimp only
  rw [get_live spare,ok_bind,offT_ok (by omega) (by omega),ok_bind,offT_ok (by omega) (by omega),ok_bind]
  rfl

theorem link_back (apart : x ≠ p) :
    ((s.link x (s.lfNext (.next p))).link p (some x)).link p (((s.link x (s.lfNext (.next p))).link p (some x)).lfNext (.next x)) =
      s.link x (s.lfNext (.next p)) := by
  have slots : Slot.next p ≠ (Slot.next x : LockfSlot) := fun equal => by cases equal; exact apart rfl
  have kept : update s.lfNext (.next x) (s.lfNext (.next p)) (.next p) = s.lfNext (.next p) := update_of_ne slots _ _
  have whole := update_eq_self (.next p) (update s.lfNext (.next x) (s.lfNext (.next p)))
  rw [kept] at whole
  simp only [State.link,update_of_ne slots.symm,update_self,update_idem,whole]

def Spent (sp sp' : Option Ptr) (used : List Ptr) : Prop := (used = [] ∧ sp' = sp) ∨ ∃ q, used = [q] ∧ sp = some q ∧ sp' = none
theorem spent_none (sp : Option Ptr) : Spent sp sp [] := .inl ⟨rfl,rfl⟩
def wakesAll (_ : Lock) : Bool := false

theorem clears_skip {keep : Lock → Bool} {rest' : List Entry} {ws taken : List Ptr} {sp sp' : Option Ptr}
    (passed : ∀ e ∈ skipped, Before u e) (tail : Clears u keep sp rest rest' ws taken sp') :
    Clears u keep sp (skipped ++ rest) (skipped ++ rest') ws taken sp' := by
  induction skipped with
  | nil => exact tail
  | cons e skipped ih => exact .skip e (passed e (by simp)) (ih (fun b member => passed b (by simp [member])))

theorem clearContained_spec (rep : Rep s v) (file : v.held f = left ++ (p,l) :: right) (ranged : Ranged l) (range : Ranged u)
    (locals : Locals s v x u sp) (own : l.lfId = u.lfId) (which : CaseOf l u .contains) (room : sp = none → u.lfStart = 0) :
    ∃ es' sp' s₁ s₂ used, lfWakelock p s = .ok s₁ ∧ clearContained x p sp s₁ = .ok (sp',s₂) ∧
      Clears u wakesAll sp ((p,l) :: right) es' l.lfBlkhd [] sp' ∧ Rep s₂ (v.edit f (left ++ es') l.lfBlkhd) ∧
      Kept s s₂ v (v.edit f (left ++ es') l.lfBlkhd) used ∧ Spent sp sp' used := by
  obtain ⟨woke,woken⟩ := rep.wake file
  obtain ⟨start,fin,reach,other⟩ := which
  have order := range.fin
  have low := ranged.start.1
  have apart := held_off file locals.lock.1
  have live : (s.woken p l).lockf p = some {l with lfBlkhd := []} := update_self _ _ _
  have live' : (s.woken p l).lockf x = some u := (update_of_ne apart _ _).trans locals.lock.2
  by_cases same : l.lfStart = u.lfStart
  · obtain ⟨changed,kept⟩ := wake_cut (w := l.back u) rep file rfl
    refine ⟨(p,l.back u) :: right,sp,_,_,[],woke,?_,.after p l right own (Int.le_of_eq same.symm) fin (by omega) (by omega),changed,kept,
      spent_none sp⟩
    unfold clearContained
    rw [get_live live',ok_bind,get_live live,ok_bind,if_pos same,cutFront_eq live range fin,ok_bind]
    rfl
  obtain ⟨changed,kept⟩ := wake_cut (w := l.front u) rep file rfl
  have file' := edit_held v f (left ++ (p,l.front u) :: right) l.lfBlkhd
  have away : (v.edit f (left ++ (p,l.front u) :: right) l.lfBlkhd).Off x := (kept.off x locals.lock.1 (by simp)).1
  by_cases last : l.lfEnd = u.lfEnd
  · refine ⟨(p,l.front u) :: right,sp,_,_,[],woke,?_,.last p l right own (by omega) ⟨fin,last⟩,
      changed.linkOff away ((s.woken p l).lfNext (.next p)),?_,spent_none sp⟩
    · unfold clearContained
      rw [get_live live',ok_bind,get_live live,ok_bind,if_neg same,lfSplit_two live live' range same last sp,ok_bind]
      exact congrArg (fun s => Except.ok (sp,s)) (link_back apart)
    · exact ⟨kept.off,kept.next,kept.only⟩
  cases spare : sp with
  | none =>
    have zero := room spare
    omega
  | some q =>
    obtain ⟨offQ,apartQ,w,liveQ⟩ := locals.spare q spare
    have otherQ := held_off file offQ
    have liveW : (s.woken p l).lockf q = some w := (update_of_ne otherQ _ _).trans liveQ
    have awayQ := (kept.off q offQ (by simp)).1
    have liveS : ((s.woken p l).set p (l.front u)).lockf q = some w := (update_of_ne otherQ _ _).trans liveW
    have split := split_rep changed file' awayQ ⟨w,liveS⟩ away apartQ
    rw [edit_edit,append_nil] at split
    refine ⟨(p,l.front u) :: (q,l.back u) :: right,none,_,_,[q],woke,?_,.split q p l right own (by omega) fin (by omega),split,?_,?_⟩
    · unfold clearContained
      rw [get_live live',ok_bind,get_live live,ok_bind,if_neg same,lfSplit_three live live' liveW range same last fin,ok_bind]
      have slots : Slot.next x ≠ (Slot.next p : LockfSlot) := fun equal => by cases equal; exact apart rfl
      simp only [State.set,State.link,update_idem,update_of_ne slots,update_self]
      rw [update_comm otherQ]
      rfl
    · refine kept_more ?_ rfl ?_
      · intro r
        rw [file]
        simp only [ptrs_append,ptrs_cons,mem_append,mem_cons,not_mem_nil,or_false]
        tauto
      intro r off notQ
      have notP : r ≠ p := fun equal => off (by rw [equal,file]; simp)
      have other : r ≠ q := by simpa using notQ
      exact (update_of_ne other _ _).trans ((update_of_ne notP _ _).trans (update_of_ne notP _ _))
    · exact .inr ⟨q,rfl,rfl,rfl⟩

def Cleared (s : State) (v : View) (f : Nat) (u : Lock) (sp : Option Ptr) (left es : List Entry) (sp' : Option Ptr) (s' : State) : Prop :=
  ∃ es' ws used, Clears u wakesAll sp es es' ws [] sp' ∧ Rep s' (v.edit f (left ++ es') ws) ∧
    Kept s s' v (v.edit f (left ++ es') ws) used ∧ Spent sp sp' used

theorem cleared_skip {sp' : Option Ptr} (passed : ∀ e ∈ skipped, Before u e)
    (cleared : Cleared s v f u sp (left ++ skipped) rest sp' s') : Cleared s v f u sp left (skipped ++ rest) sp' s' := by
  obtain ⟨es',ws,used,clears,rep,kept,spent⟩ := cleared
  rw [append_assoc] at rep kept
  exact ⟨skipped ++ es',ws,used,clears_skip passed clears,rep,kept,spent⟩

theorem Rep.short (rep : Rep s v) (file : v.held f = left ++ es) : es.length < s.nextLockf + 1 := by
  have length := rep.length (f := f)
  rw [file] at length
  simp [ptrs] at length
  omega

theorem clearLoop_spec (k : Nat) (rep : Rep s v) (file : v.held f = left ++ es) (ranged : ∀ e ∈ es, Ranged e.2) (range : Ranged u)
    (locals : Locals s v x u sp) (room : sp = none → u.lfStart = 0) (enough : es.length < k) :
    ∃ sp' s', clearLoop x k (ptrs es).head? (lastSlot (.head f) (ptrs left)) sp s = .ok (sp',s') ∧
      Cleared s v f u sp left es sp' s' := by
  induction k generalizing s v left es with
  | zero => cases enough
  | succ k ih =>
    obtain ⟨skipped,rest,c,split,passed,stops,found⟩ := findoverlap_self rep file ranged range _ (rep.short file)
    have again : v.held f = (left ++ skipped) ++ rest := by rw [file,split]; simp
    rw [clearLoop,get_live locals.lock.2,ok_bind,found,ok_bind]
    rw [split] at ranged ⊢
    have shorter : ∀ e more, rest = e :: more → more.length < k := by
      intro e more same
      rw [split,same] at enough
      simp at enough
      omega
    have untouched : Cleared s v f u sp (left ++ skipped) rest sp s → ∃ sp' s', Except.ok (sp,s) = (Except.ok (sp',s') : Except Halt _) ∧
        Cleared s v f u sp left (skipped ++ rest) sp' s' := by
      intro cleared
      exact ⟨sp,s,rfl,cleared_skip passed cleared⟩
    have same : Rep s (v.edit f ((left ++ skipped) ++ rest) []) := by rw [edit_same again]; exact rep
    have still : Kept s s v (v.edit f ((left ++ skipped) ++ rest) []) [] := by
      rw [edit_same again]
      exact kept_refl s v
    cases stops with
    | finished => exact untouched ⟨[],[],[],.nil sp,same,still,spent_none sp⟩
    | past e rest own past => exact untouched ⟨e :: rest,[],[],.stop e rest own past,same,still,spent_none sp⟩
    | overlap c e rest own present which =>
      obtain ⟨p,l⟩ := e
      have rangedL : Ranged l := ranged (p,l) (by simp)
      have rangedRest : ∀ e ∈ rest, Ranged e.2 := fun e member => ranged e (by simp [member])
      cases c with
      | noOverlap => exact absurd rfl present
      | equal =>
        obtain ⟨s₁,s₂,s₃,woke,next,stored,freed,rep',kept⟩ := wake_drop rep again
        refine ⟨sp,s₃,?_,cleared_skip passed ⟨rest,l.lfBlkhd,[],.equal p l rest own which rfl,rep',kept,spent_none sp⟩⟩
        dsimp only [ptrs_cons,head?_cons]
        rw [woke,ok_bind,next,stored,ok_bind,freed,ok_bind]
      | contains =>
        obtain ⟨es',sp',s₁,s₂,used,woke,done,clears,rep',kept,spent⟩ :=
          clearContained_spec rep again rangedL range locals own which room
        refine ⟨sp',s₂,?_,cleared_skip passed ⟨es',l.lfBlkhd,used,clears,rep',kept,spent⟩⟩
        dsimp only [ptrs_cons,head?_cons]
        rw [woke,ok_bind]
        exact done
      | contained =>
        obtain ⟨s₁,s₂,s₃,woke,next,stored,freed,rep',kept⟩ := wake_drop rep again
        obtain ⟨sp',s',ran,es',ws,used,clears,rep'',kept',spent⟩ :=
          ih rep' (edit_held ..) rangedRest (locals.kept kept) (shorter _ _ rfl)
        rw [edit_edit] at rep'' kept'
        have all := kept.trans kept'
        refine ⟨sp',s',?_,cleared_skip passed ⟨es',l.lfBlkhd ++ ws,used,.inside p l own which clears,rep'',all,spent⟩⟩
        dsimp only [ptrs_cons,head?_cons]
        rw [woke,ok_bind,next,stored,ok_bind,freed,ok_bind]
        exact ran
      | startsBefore =>
        obtain ⟨starts,reaches,ends⟩ := which
        obtain ⟨woke,_⟩ := rep.wake again
        obtain ⟨rep',kept⟩ := wake_cut (w := l.front u) rep again rfl
        have file' : (v.edit f ((left ++ skipped) ++ (p,l.front u) :: rest) l.lfBlkhd).held f =
            (left ++ skipped ++ [(p,l.front u)]) ++ rest := by rw [edit_held]; simp
        have next := rep'.next (edit_held ..)
        obtain ⟨sp',s',ran,es',ws,used,clears,rep'',kept',spent⟩ :=
          ih rep' file' rangedRest (locals.kept kept) (shorter _ _ rfl)
        have shape : left ++ skipped ++ [(p,l.front u)] ++ es' = left ++ skipped ++ (p,l.front u) :: es' := by simp
        rw [edit_edit,shape] at rep'' kept'
        have all := kept.trans kept'
        refine ⟨sp',s',?_,cleared_skip passed
          ⟨(p,l.front u) :: es',l.lfBlkhd ++ ws,used,.before p l own starts reaches ends clears,rep'',all,spent⟩⟩
        dsimp only [ptrs_cons,head?_cons]
        rw [woke,ok_bind,cutBack_eq (update_self _ _ _) range,ok_bind]
        rw [← next,ptrs_append,lastSlot_append] at ran
        exact ran
      | endsAfter =>
        obtain ⟨starts,fin,meets,ends⟩ := which
        dsimp only at starts
        obtain ⟨woke,_⟩ := rep.wake again
        obtain ⟨rep',kept⟩ := wake_cut (w := l.back u) rep again rfl
        refine ⟨sp,_,?_,cleared_skip passed ⟨(p,l.back u) :: rest,l.lfBlkhd,[],.after p l rest own (by omega) fin meets ends,rep',kept,
          spent_none sp⟩⟩
        dsimp only [ptrs_cons,head?_cons]
        rw [woke,ok_bind,cutFront_eq (update_self _ _ _) range fin,ok_bind]
        rfl

theorem lfClearlock_spec (rep : Rep s v) (locals : Locals s v x u sp) (head : u.lfHead = f) (ranged : ∀ e ∈ v.held f, Ranged e.2)
    (range : Ranged u) (room : sp = none → u.lfStart = 0) :
    ∃ sp' s', lfClearlock x sp s = .ok (sp',s') ∧ Cleared s v f u sp [] (v.held f) sp' s' := by
  have whole : v.held f = [] ++ v.held f := rfl
  have first := (rep.chain f).first
  unfold lfClearlock
  rw [get_live locals.lock.2,ok_bind,head]
  split_ifs with none
  · have empty : v.held f = [] := by
      rw [none] at first
      simpa [ptrs] using first.symm
    refine ⟨sp,s,rfl,[],[],[],?_,?_,?_,spent_none sp⟩
    · rw [empty]
      exact .nil sp
    · rw [nil_append,← empty,edit_same rfl]
      exact rep
    rw [nil_append,← empty,edit_same rfl]
    exact kept_refl s v
  rw [first]
  exact clearLoop_spec _ rep whole ranged range locals room (rep.short whole)
end NetbsdAvr32.Lockf
