import NetbsdAvr32.LockfSearch

-- lf_setlock's second half edits the list as `Grants` says.
namespace NetbsdAvr32.Lockf
open Function Linked Outcome List Slot
variable {s s' : State} {v v' : View} {f : Nat} {p k : Ptr} {l u w : Lock} {es left right : List Entry} {sp : Option Ptr}

variable {q : Ptr} {rest : List Entry}

theorem slot_off (file : v.held f = left ++ right) (off : v.Off q) : next q ≠ lastSlot (.head f) (ptrs left) := by
  intro equal
  rcases lastSlot_mem (.head f) (ptrs left) with same | ⟨r,member,same⟩
  · rw [same] at equal
    cases equal
  rw [same] at equal
  cases equal
  exact off.2 f (by rw [file]; simp [member])

theorem link_before (rep : Rep s v) (file : v.held f = left ++ right) (off : v.Off k) (live : s.lockf k = some u) (empty : u.lfBlkhd = []) :
    Rep {s with lfNext := update (update s.lfNext (lastSlot (.head f) (ptrs left)) (some k)) (.next k) (ptrs right).head?}
      (v.edit f (left ++ (k,u) :: right) []) := by
  refine rep.linkNew _ file off live empty ?_ (update_self _ _ _) ?_
  · rw [update_of_ne (slot_off file off).symm,update_self]
  intro x notPrev notK
  rw [update_of_ne notK,update_of_ne notPrev]

theorem cut_wake (rep : Rep s v) (file : v.held f = left ++ (p,l) :: right) (queue : w.lfBlkhd = l.lfBlkhd) :
    lfWakelock p (s.set p w) = .ok ((s.set p w).woken p w) ∧
      Rep ((s.set p w).woken p w) (v.edit f (left ++ (p,{w with lfBlkhd := []}) :: right) l.lfBlkhd) := by
  have changed := rep.setHeld file queue
  obtain ⟨woke,rep'⟩ := changed.wake (edit_held ..)
  rw [edit_edit,queue,nil_append] at rep'
  exact ⟨woke,rep'⟩

theorem takeOver_eq (live : s.lockf k = some u) (holder : s.lockf p = some l) : takeOver k p s =
    bif taker u l then takeBlocked k p l.lfBlkhd s else lfWakelock p s := by
  unfold takeOver taker
  rw [get_live live,ok_bind,get_live holder,ok_bind]
  cases downgrades u l <;> rfl

theorem relink_update {link : LockfSlot → Option Ptr} {ws : List Ptr} {x y : Option Ptr} {slot : LockfSlot}
    (off : ∀ r ∈ ws, slot ≠ .next r) : update (relink link ws x) slot y = relink (update link slot y) ws x := by
  funext z
  by_cases here : z = slot
  · rw [here,update_self]
    cases slot with
    | head f => simp
    | next q =>
      have out : q ∉ ws := fun member => off q member rfl
      rw [relink_out out,update_self]
  rw [update_of_ne here]
  cases z with
  | head g => rw [relink_head,relink_head,update_of_ne here]
  | next q =>
    by_cases member : q ∈ ws
    · rw [relink_in member,relink_in member]
    · rw [relink_out member,relink_out member,update_of_ne here]

theorem edit_off {ws : List Ptr} (off : v.Off q) (out : q ∉ ptrs es) : (v.edit f es ws).Off q := by
  refine ⟨off.1,?_⟩
  intro g member
  by_cases mine : g = f
  · subst g
    rw [edit_held] at member
    exact out member
  rw [edit_other v es ws mine] at member
  exact off.2 g member

theorem slot_apart (rep : Rep s v) (file : v.held f = left ++ (p,l) :: right) : next p ≠ lastSlot (.head f) (ptrs left) := by
  have nodup := rep.nodup f
  rw [file,ptrs_append] at nodup
  exact lastSlot_off nodup (fun q _ equal => by cases equal) (by simp)

theorem link_drop (rep : Rep s v) (file : v.held f = left ++ (p,l) :: right) (off : v.Off k) (live : s.lockf k = some u)
    (empty : u.lfBlkhd = []) (idle : l.lfBlkhd = []) :
    Rep ({s with lfNext := update (update s.lfNext (lastSlot (.head f) (ptrs left)) (some k)) (.next k) (ptrs right).head?}.freed p l)
      (v.edit f (left ++ (k,u) :: right) []) := by
  have apart := held_off file off
  have notPrev := slot_apart rep file
  have notK : next p ≠ (next k : LockfSlot) := fun equal => by cases equal; exact apart rfl
  have linked := link_before rep file off live empty
  have again : (v.edit f (left ++ (k,u) :: (p,l) :: right) []).held f = (left ++ [(k,u)]) ++ (p,l) :: right := by
    simp
  have dropped := linked.drop again idle
  have slot : lastSlot (.head f) (ptrs (left ++ [(k,u)])) = (.next k : LockfSlot) := by simp
  have shape : left ++ [(k,u)] ++ right = left ++ (k,u) :: right := by simp
  dsimp only at dropped
  rw [update_of_ne notK,update_of_ne notPrev,rep.next file,slot,update_idem,edit_edit,shape] at dropped
  exact dropped

theorem link_move_drop (rep : Rep s v) (file : v.held f = left ++ (p,l) :: right) (off : v.Off k) (live : s.lockf k = some u)
    (empty : u.lfBlkhd = []) :
    Rep ({s with
        lockf := update (update s.lockf p (some {l with lfBlkhd := []})) k (some {u with lfBlkhd := l.lfBlkhd})
        lfNext := update (update (relink s.lfNext l.lfBlkhd (some k)) (lastSlot (.head f) (ptrs left)) (some k)) (.next k)
          (ptrs right).head?}.freed p {l with lfBlkhd := []})
      (v.edit f (left ++ (k,{u with lfBlkhd := l.lfBlkhd}) :: right) []) := by
  have member := mem_file file
  have apart := held_off file off
  have notPrev := slot_apart rep file
  have notK : next p ≠ (next k : LockfSlot) := fun equal => by cases equal; exact apart rfl
  have linked := link_before rep file off live empty
  have moved := linked.move [] (edit_held ..)
  rw [empty,nil_append,nil_append,edit_edit] at moved
  have again : (v.edit f (left ++ (k,{u with lfBlkhd := l.lfBlkhd}) :: (p,{l with lfBlkhd := []}) :: right) []).held f =
      (left ++ [(k,{u with lfBlkhd := l.lfBlkhd})]) ++ (p,{l with lfBlkhd := []}) :: right := by
    simp
  have dropped := moved.drop again rfl
  have slot : lastSlot (.head f) (ptrs (left ++ [(k,{u with lfBlkhd := l.lfBlkhd})])) = (.next k : LockfSlot) := by simp
  have shape : left ++ [(k,{u with lfBlkhd := l.lfBlkhd})] ++ right = left ++ (k,{u with lfBlkhd := l.lfBlkhd}) :: right := by simp
  have out : p ∉ l.lfBlkhd := fun waits => rep.waiter_off member waits f (ptr_mem member)
  have waiters : ∀ r ∈ l.lfBlkhd, lastSlot (.head f) (ptrs left) ≠ .next r ∧ next k ≠ (.next r : LockfSlot) := by
    intro r waits
    obtain ⟨⟨lr,loose⟩,_⟩ := (rep.queued f _ member).2 r waits
    refine ⟨?_,?_⟩
    · intro equal
      rcases lastSlot_mem (.head f) (ptrs left) with same | ⟨q,before,same⟩
      · rw [same] at equal; cases equal
      rw [same] at equal
      cases equal
      exact rep.waiter_off member waits f (by rw [file]; simp [before])
    intro equal
    cases equal
    rw [off.1] at loose
    cases loose
  have commute : relink (update (update s.lfNext (lastSlot (.head f) (ptrs left)) (some k)) (.next k) (some p)) l.lfBlkhd (some k) =
      update (update (relink s.lfNext l.lfBlkhd (some k)) (lastSlot (.head f) (ptrs left)) (some k)) (.next k) (some p) := by
    rw [relink_update (fun r waits => (waiters r waits).1),relink_update (fun r waits => (waiters r waits).2)]
  have first : (ptrs ((p,l) :: right)).head? = some p := rfl
  dsimp only [State.moved] at dropped
  rw [first,commute,slot,update_of_ne notK,update_of_ne notPrev,relink_out out,rep.next file,update_idem,edit_edit,shape,empty] at dropped
  exact dropped

theorem swap_rep (rep : Rep s v) (file : v.held f = left ++ (p,l) :: right) (off : v.Off k) (live : s.lockf k = some u)
    (empty : u.lfBlkhd = []) : ∃ s₁ s₂ s₃, takeOver k p s = .ok s₁ ∧
      s₁.store (lastSlot (.head f) (ptrs left)) (some k) = .ok s₂ ∧ lfFree p (s₂.link k (s₂.lfNext (.next p))) = .ok s₃ ∧
      Rep s₃ (v.edit f (left ++ (k,{u with lfBlkhd := bif taker u l then l.lfBlkhd else []}) :: right)
        (bif taker u l then [] else l.lfBlkhd)) ∧ s₃.nextLockf = s.nextLockf ∧ s₃.lockf p = none ∧
      ∀ q, q ≠ p → q ≠ k → s₃.lockf q = s.lockf q := by
  have member := mem_file file
  have liveP := rep.live f _ member
  have apart := held_off file off
  have next := rep.next file
  have notPrev := slot_apart rep file
  rw [takeOver_eq live liveP]
  cases taker u l with
  | false =>
    obtain ⟨woke,woken⟩ := rep.wake file
    have file' := edit_held v f (left ++ (p,{l with lfBlkhd := []}) :: right) l.lfBlkhd
    have out : k ∉ ptrs (left ++ (p,{l with lfBlkhd := []}) :: right) := by
      have old := off.2 f
      rw [file] at old
      simpa using old
    have live' : (s.woken p l).lockf k = some u := (update_of_ne apart _ _).trans live
    have bare : {u with lfBlkhd := []} = u := by rw [← empty]
    have replaced := link_drop woken file' (edit_off off out) live' empty rfl
    rw [edit_edit,append_nil] at replaced
    refine ⟨_,_,_,woke,woken.store file' _,lfFree_eq (update_self _ _ _),?_,rfl,update_self _ _ _,?_⟩
    · dsimp only [State.link]
      rw [update_of_ne notPrev,woken.next file']
      dsimp only [cond_false]
      rw [bare]
      exact replaced
    intro q notP notK
    exact (update_of_ne notP _ _).trans (update_of_ne notP _ _)
  | true =>
    have replaced := link_move_drop rep file off live empty
    have took : takeBlocked k p l.lfBlkhd s = .ok {s with
        lockf := update (update s.lockf p (some {l with lfBlkhd := []})) k (some {u with lfBlkhd := u.lfBlkhd ++ l.lfBlkhd})
        lfNext := relink s.lfNext l.lfBlkhd (some k)} := by
      refine takeBlocked_eq live liveP rfl apart (rep.queued f _ member).1 ?_
      intro r waits
      obtain ⟨⟨lr,loose⟩,link⟩ := (rep.queued f _ member).2 r waits
      refine ⟨⟨lr,(rep.loose r lr loose).1⟩,?_,?_,link⟩
      · rintro rfl
        exact rep.waiter_off member waits f (ptr_mem member)
      rintro rfl
      rw [off.1] at loose
      cases loose
    rw [empty,nil_append] at took
    have out : p ∉ l.lfBlkhd := fun waits => rep.waiter_off member waits f (ptr_mem member)
    refine ⟨_,_,_,took,store_ok ?_ (some k),lfFree_eq ((update_of_ne apart.symm _ _).trans (update_self _ _ _)),?_,rfl,
      update_self _ _ _,?_⟩
    · intro q slot
      rcases lastSlot_mem (.head f) (ptrs left) with same | ⟨r,before,same⟩
      · rw [same] at slot; cases slot
      rw [same] at slot
      cases slot
      obtain ⟨lq,here⟩ := mem_ptrs.mp before
      have notP : q ≠ p := fun equal => notPrev (by rw [← equal,same])
      have notK : q ≠ k := fun equal => off.2 f (by rw [file,← equal]; simp [before])
      exact ⟨lq,(update_of_ne notK _ _).trans ((update_of_ne notP _ _).trans (rep.live f (q,lq) (by rw [file]; simp [here])))⟩
    · dsimp only [State.link]
      rw [update_of_ne notPrev,relink_out out,next]
      exact replaced
    intro q notP notK
    exact (update_of_ne notP _ _).trans ((update_of_ne notK _ _).trans (update_of_ne notP _ _))

theorem absorb_rep (rep : Rep s v) (middle : List Entry) (file : v.held f = left ++ (k,w) :: (middle ++ (p,l) :: right)) :
    ∃ s₁ s₂ s₃, takeOver k p s = .ok s₁ ∧
      s₁.store (lastSlot (.head f) (ptrs (left ++ (k,w) :: middle))) (s₁.lfNext (.next p)) = .ok s₂ ∧ lfFree p s₂ = .ok s₃ ∧
      Rep s₃ (v.edit f (left ++ (k,{w with lfBlkhd := w.lfBlkhd ++ bif taker w l then l.lfBlkhd else []}) :: (middle ++ right))
        (bif taker w l then [] else l.lfBlkhd)) ∧
      Kept s s₃ v (v.edit f (left ++ (k,{w with lfBlkhd := w.lfBlkhd ++ bif taker w l then l.lfBlkhd else []}) :: (middle ++ right))
        (bif taker w l then [] else l.lfBlkhd)) [] := by
  have memberK : ((k,w) : Entry) ∈ v.held f := by rw [file]; simp
  have memberP : ((p,l) : Entry) ∈ v.held f := by rw [file]; simp
  have again : v.held f = (left ++ (k,w) :: middle) ++ (p,l) :: right := by rw [file]; simp
  rw [takeOver_eq (rep.live f _ memberK) (rep.live f _ memberP)]
  cases taker w l with
  | false =>
    obtain ⟨s₁,s₂,s₃,woke,next,stored,freed,rep',kept⟩ := wake_drop rep again
    have shape : (left ++ (k,w) :: middle) ++ right = left ++ (k,{w with lfBlkhd := w.lfBlkhd ++ []}) :: (middle ++ right) := by simp
    rw [shape] at rep' kept
    rw [← next] at stored
    exact ⟨s₁,s₂,s₃,woke,stored,freed,rep',kept⟩
  | true =>
    have nodup := rep.nodup f
    rw [file] at nodup
    have apart := (nodup_two nodup).1
    have took := rep.takeBlocked middle file
    have moved := rep.move middle file
    have again' : (v.edit f (left ++ (k,{w with lfBlkhd := w.lfBlkhd ++ l.lfBlkhd}) :: (middle ++ (p,{l with lfBlkhd := []}) :: right)) []).held f =
        (left ++ (k,{w with lfBlkhd := w.lfBlkhd ++ l.lfBlkhd}) :: middle) ++ (p,{l with lfBlkhd := []}) :: right := by
      simp
    have dropped := moved.drop again' rfl
    have shape : (left ++ (k,{w with lfBlkhd := w.lfBlkhd ++ l.lfBlkhd}) :: middle) ++ right =
        left ++ (k,{w with lfBlkhd := w.lfBlkhd ++ l.lfBlkhd}) :: (middle ++ right) := by simp
    have slots : ptrs (left ++ (k,{w with lfBlkhd := w.lfBlkhd ++ l.lfBlkhd}) :: middle) = ptrs (left ++ (k,w) :: middle) := by simp
    have stored := moved.store again' ((s.moved k p w l).lfNext (.next p))
    rw [slots] at stored dropped
    rw [edit_edit,shape] at dropped
    refine ⟨_,_,_,took,stored,lfFree_eq ((update_of_ne apart.symm _ _).trans (update_self _ _ _)),dropped,kept_list ?_ rfl ?_ ?_⟩
    · intro q member
      rw [file]
      simp only [ptrs_append,ptrs_cons,mem_append,mem_cons] at member ⊢
      tauto
    · intro q off _
      have notK : q ≠ k := fun equal => off (by rw [equal,file]; simp)
      have notP : q ≠ p := fun equal => off (by rw [equal,file]; simp)
      exact (update_of_ne notP _ _).trans ((update_of_ne notK _ _).trans (update_of_ne notP _ _))
    intro q out either
    have here : q = p := gone_entry again (by simpa using out) (by simpa using either)
    rw [here]
    exact update_self _ _ _

theorem absorbLoop_spec (sp : Option Ptr) (n : Nat) (middle : List Entry) (t₀ : List Ptr) (rep : Rep s v)
    (file : v.held f = left ++ (k,{u with lfBlkhd := t₀}) :: (middle ++ es)) (ranged : ∀ e ∈ es, Ranged e.2) (range : Ranged u)
    (later : ∀ e ∈ es, e.2.lfId = u.lfId → u.lfStart < e.2.lfStart) (enough : es.length < n) :
    ∃ es' ws taken s', setLoop k n false (ptrs es).head? (lastSlot (.head f) (ptrs left ++ k :: ptrs middle)) sp s = .ok (sp,s') ∧
      Clears u (taker u) sp es es' ws taken sp ∧
      Rep s' (v.edit f (left ++ (k,{u with lfBlkhd := t₀ ++ taken}) :: (middle ++ es')) ws) ∧
      Kept s s' v (v.edit f (left ++ (k,{u with lfBlkhd := t₀ ++ taken}) :: (middle ++ es')) ws) [] := by
  induction n generalizing s v middle t₀ es with
  | zero => cases enough
  | succ n ih =>
    have member : ((k,{u with lfBlkhd := t₀}) : Entry) ∈ v.held f := by rw [file]; simp
    have live := rep.live f _ member
    have whole : v.held f = (left ++ (k,{u with lfBlkhd := t₀}) :: middle) ++ es := by rw [file]; simp
    have range' : Ranged {u with lfBlkhd := t₀} := ⟨range.start,range.fin⟩
    obtain ⟨skipped,rest,c,split,passed,stops,found⟩ := findoverlap_self rep whole ranged range' _ (rep.short whole)
    simp only [ptrs_append,ptrs_cons,append_assoc,cons_append] at found
    rw [setLoop,get_live live,ok_bind,found,ok_bind]
    rw [split] at ranged later enough file ⊢
    have untouched : Rep s (v.edit f (left ++ (k,{u with lfBlkhd := t₀ ++ []}) :: (middle ++ (skipped ++ rest))) []) ∧
        Kept s s v (v.edit f (left ++ (k,{u with lfBlkhd := t₀ ++ []}) :: (middle ++ (skipped ++ rest))) []) [] := by
      rw [append_nil,edit_same file]
      exact ⟨rep,kept_refl s v⟩
    cases stops with
    | finished =>
      exact ⟨_,[],[],s,rfl,clears_skip passed (.nil sp),untouched⟩
    | past e rest own past =>
      exact ⟨_,[],[],s,rfl,clears_skip passed (.stop e rest own past),untouched⟩
    | overlap c e rest own present which =>
      obtain ⟨p,l⟩ := e
      have start := later (p,l) (by simp) own
      have again : v.held f = left ++ (k,{u with lfBlkhd := t₀}) :: ((middle ++ skipped) ++ (p,l) :: rest) := by
        rw [file]
        simp
      have file' : v.held f = (left ++ (k,{u with lfBlkhd := t₀}) :: (middle ++ skipped)) ++ (p,l) :: rest := by
        rw [again]
        simp
      cases c with
      | noOverlap => exact absurd rfl present
      | equal =>
        have same : l.lfStart = u.lfStart := which.1
        dsimp only at start
        omega
      | contains =>
        have same : l.lfStart ≤ u.lfStart := which.1
        dsimp only at start
        omega
      | startsBefore =>
        have same : l.lfStart < u.lfStart := which.1
        dsimp only at start
        omega
      | contained =>
        obtain ⟨s₁,s₂,s₃,took,stored,freed,rep',kept⟩ := absorb_rep rep (middle ++ skipped) again
        obtain ⟨es',ws,taken,s',ran,clears,rep'',kept'⟩ := ih (middle ++ skipped) _ rep' (edit_held ..)
          (fun e member => ranged e (by simp [member])) (fun e member => later e (by simp [member])) (by simp at enough; omega)
        have all := kept.trans kept'
        rw [edit_edit] at rep'' all
        simp only [append_assoc] at rep'' all
        refine ⟨skipped ++ es',_,_,s',?_,clears_skip passed (.inside p l own which clears),rep'',all⟩
        simp only [ptrs_append,ptrs_cons] at stored ran
        dsimp only [ptrs_cons,head?_cons]
        rw [took,ok_bind,if_neg (by simp),stored,ok_bind,freed,ok_bind,rep.next file']
        exact ran
      | endsAfter =>
        obtain ⟨starts,fin,meets,ends⟩ := which
        dsimp only at starts fin meets ends
        obtain ⟨woke,rep'⟩ := cut_wake (w := {l with lfStart := u.lfEnd + 1}) rep file' rfl
        refine ⟨skipped ++ (p,l.back u) :: rest,l.lfBlkhd,[],
          (s.set p {l with lfStart := u.lfEnd + 1}).woken p {l with lfStart := u.lfEnd + 1},?_,clears_skip passed (.after p l rest own (by omega) fin meets ends),?_,?_⟩
        · dsimp only [ptrs_cons,head?_cons]
          rw [if_neg (by simp),cutFront_eq (rep.live f (p,l) (by rw [file']; simp)) range' fin,ok_bind,woke,ok_bind]
        · simp only [append_nil,append_assoc,cons_append] at rep' ⊢
          exact rep'
        refine kept_more ?_ rfl ?_
        · intro q
          rw [file']
          simp
        intro q off _
        have other : q ≠ p := fun equal => off (by rw [equal,file']; simp)
        exact (update_of_ne other _ _).trans (update_of_ne other _ _)

theorem link_behind (rep : Rep s v) (file : v.held f = left ++ (p,l) :: right) (off : v.Off k) (live : s.lockf k = some u)
    (empty : u.lfBlkhd = []) (queue : w.lfBlkhd = l.lfBlkhd) :
    Rep {s.set p w with lfNext := update (update s.lfNext (.next k) (s.lfNext (.next p))) (.next p) (some k)}
      (v.edit f (left ++ (p,w) :: (k,u) :: right) []) := by
  have apart := held_off file off
  have changed := rep.setHeld file queue
  have file' : (v.edit f (left ++ (p,w) :: right) []).held f = (left ++ [(p,w)]) ++ right := by rw [edit_held]; simp
  have out : k ∉ ptrs (left ++ (p,w) :: right) := by
    have old := off.2 f
    rw [file] at old
    simpa using old
  have slot : lastSlot (.head f) (ptrs (left ++ [(p,w)])) = (.next p : LockfSlot) := by simp
  have slots : next k ≠ (next p : LockfSlot) := fun equal => by cases equal; exact apart rfl
  have linked := changed.linkNew (update (update s.lfNext (.next k) (s.lfNext (.next p))) (.next p) (some k)) file'
    (edit_off off out) ((update_of_ne apart _ _).trans live) empty (by rw [slot,update_self])
    (by rw [update_of_ne slots,update_self]; exact rep.next file) ?_
  · rw [edit_edit] at linked
    simpa using linked
  intro x notP notK
  rw [slot] at notP
  rw [update_of_ne notP,update_of_ne notK]
  rfl

theorem link_split (rep : Rep s v) (file : v.held f = left ++ (p,l) :: right) (off : v.Off k) (live : s.lockf k = some u)
    (empty : u.lfBlkhd = []) (queue : w.lfBlkhd = l.lfBlkhd) (offQ : v.Off q) (liveQ : ∃ l, s.lockf q = some l) (apart : q ≠ k) (b : Lock)
    (idle : b.lfBlkhd = []) :
    Rep {(s.set q b).set p w with
        lfNext := update (update (update s.lfNext (.next q) (s.lfNext (.next p))) (.next k) (some q)) (.next p) (some k)}
      (v.edit f (left ++ (p,w) :: (k,u) :: (q,b) :: right) []) := by
  obtain ⟨lq,liveQ⟩ := liveQ
  have notP := held_off file off
  have notP' := held_off file offQ
  have set := rep.setOff (w := b) offQ liveQ
  have live' : (s.set q b).lockf k = some u := (update_of_ne apart.symm _ _).trans live
  have first := link_behind set file off live' empty queue
  have file' : (v.edit f (left ++ (p,w) :: (k,u) :: right) []).held f = (left ++ [(p,w),(k,u)]) ++ right := by rw [edit_held]; simp
  have out : q ∉ ptrs (left ++ (p,w) :: (k,u) :: right) := by
    have old := offQ.2 f
    rw [file] at old
    simp at old ⊢
    tauto
  have slot : lastSlot (.head f) (ptrs (left ++ [(p,w),(k,u)])) = (.next k : LockfSlot) := by simp
  have slotsK : next k ≠ (next p : LockfSlot) := fun equal => by cases equal; exact notP rfl
  have slotsQ : next q ≠ (next p : LockfSlot) := fun equal => by cases equal; exact notP' rfl
  have slotsQK : next q ≠ (next k : LockfSlot) := fun equal => by cases equal; exact apart rfl
  have linked := first.linkNew (u := b)
    (update (update (update s.lfNext (.next q) (s.lfNext (.next p))) (.next k) (some q)) (.next p) (some k)) file'
    (edit_off offQ out) ((update_of_ne notP' _ _).trans (update_self _ _ _)) idle
    (by rw [slot,update_of_ne slotsK,update_self])
    (by rw [update_of_ne slotsQ,update_of_ne slotsQK,update_self]; exact rep.next file) ?_
  · rw [edit_edit] at linked
    simpa using linked
  intro x notK notQ
  rw [slot] at notK
  show _ = update (update s.lfNext (.next k) (s.lfNext (.next p))) (.next p) (some k) x
  by_cases isP : x = .next p
  · rw [isP,update_self,update_self]
  · rw [update_of_ne isP,update_of_ne notK,update_of_ne notQ,update_of_ne isP,update_of_ne notK]

def Granted (s : State) (v : View) (f : Nat) (k : Ptr) (u : Lock) (sp : Option Ptr) (left es : List Entry) (sp' : Option Ptr)
    (s' : State) : Prop :=
  ∃ es' ws used, Grants k u sp es es' ws sp' ∧ Rep s' (v.edit f (left ++ es') ws) ∧
    Kept s s' v (v.edit f (left ++ es') ws) (k :: used) ∧ Spent sp sp' used

theorem granted_skip {skipped : List Entry} {sp' : Option Ptr} (passed : ∀ e ∈ skipped, Before u e)
    (granted : Granted s v f k u sp (left ++ skipped) rest sp' s') : Granted s v f k u sp left (skipped ++ rest) sp' s' := by
  obtain ⟨es',ws,used,grants,rep,kept,spent⟩ := granted
  rw [append_assoc] at rep kept
  refine ⟨skipped ++ es',ws,used,?_,rep,kept,spent⟩
  clear rep kept
  induction skipped with
  | nil => exact grants
  | cons e skipped ih => exact .skip e (passed e (by simp)) (ih (fun b member => passed b (by simp [member])))

theorem setEqual_spec (rep : Rep s v) (file : v.held f = left ++ (p,l) :: right) (off : v.Off k) (live : s.lockf k = some u)
    (own : l.lfId = u.lfId) (same : l.lfStart = u.lfStart ∧ l.lfEnd = u.lfEnd) :
    ∃ s', setEqual k p s = .ok s' ∧ Granted s v f k u sp left ((p,l) :: right) sp s' := by
  have member := mem_file file
  have liveP := rep.live f _ member
  have apart := held_off file off
  have slots : ∀ w : Lock, ptrs (left ++ (p,w) :: right) = ptrs (v.held f) := by
    intro w
    rw [file]
    simp
  have fewer : ∀ w : Lock, ∀ q ∈ ptrs (left ++ (p,w) :: right), q ∈ ptrs (v.held f) ∨ q ∈ [k] :=
    fun w q here => .inl (slots w ▸ here)
  have mine : ∀ (w : Lock) (q : Ptr), q ∉ ptrs (left ++ (p,w) :: right) → q ∈ ptrs (v.held f) ∨ q ∈ [k] → q = k := by
    intro w q out either
    rw [slots] at out
    simpa [out] using either
  have out : ∀ w : Lock, k ∉ ptrs (left ++ (p,w) :: right) := by
    intro w here
    have old := off.2 f
    rw [file] at old
    exact old (by simpa using here)
  unfold setEqual
  rw [get_live live,ok_bind,get_live liveP,ok_bind]
  have grants : Grants k u sp ((p,l) :: right) _ _ sp := .equal p l right own same
  unfold taker at grants
  cases down : downgrades u l with
  | true =>
    rw [down] at grants
    obtain ⟨woke,woken⟩ := rep.wake file
    have changed := woken.setHeld (w := {l with lfType := u.lfType, lfBlkhd := []}) (edit_held ..) rfl
    rw [edit_edit,append_nil] at changed
    have freed := changed.freeOff (l := u) (edit_off off (out _))
    refine ⟨_,?_,_,_,[],grants,freed,kept_list (fewer _) rfl ?_ ?_,spent_none sp⟩
    · dsimp only [cond_true]
      rw [woke,ok_bind,get_live (update_self _ _ _),ok_bind]
      exact lfFree_eq ((update_of_ne apart _ _).trans ((update_of_ne apart _ _).trans live))
    · intro q away other
      have notP : q ≠ p := fun equal => away (by rw [equal]; exact ptr_mem member)
      have notK : q ≠ k := by simpa using other
      exact (update_of_ne notK _ _).trans ((update_of_ne notP _ _).trans (update_of_ne notP _ _))
    intro q gone either
    rw [mine _ q gone either]
    exact update_self _ _ _
  | false =>
    rw [down] at grants
    have changed := rep.setHeld (w := {l with lfType := u.lfType}) file rfl
    have freed := changed.freeOff (l := u) (edit_off off (out _))
    refine ⟨_,?_,_,_,[],grants,freed,kept_list (fewer _) rfl ?_ ?_,spent_none sp⟩
    · dsimp only [cond_false]
      rw [ok_bind,get_live liveP,ok_bind]
      exact lfFree_eq ((update_of_ne apart _ _).trans live)
    · intro q away other
      have notP : q ≠ p := fun equal => away (by rw [equal]; exact ptr_mem member)
      have notK : q ≠ k := by simpa using other
      exact (update_of_ne notK _ _).trans (update_of_ne notP _ _)
    intro q gone either
    rw [mine _ q gone either]
    exact update_self _ _ _

theorem parts_used {parts : List Entry} {used : List Ptr} (file : v.held f = left ++ (p,l) :: right)
    (all : ∀ q, q ∈ ptrs parts ↔ q = p ∨ q ∈ used) (q : Ptr) :
    q ∈ ptrs (left ++ parts ++ right) ↔ q ∈ ptrs (v.held f) ∨ q ∈ used := by
  rw [file]
  simp only [ptrs_append,ptrs_cons,mem_append,mem_cons,all]
  tauto

theorem setBefore_spec (sp : Option Ptr) (rep : Rep s v) (file : v.held f = left ++ (p,l) :: right) (off : v.Off k) (live : s.lockf k = some u)
    (empty : u.lfBlkhd = []) (range : Ranged u) (own : l.lfId = u.lfId) (starts : u.lfStart ≤ l.lfStart) (fin : u.lfEnd ≠ -1)
    (meets : l.lfStart ≤ u.lfEnd) (ends : l.lfEnd = -1 ∨ u.lfEnd < l.lfEnd) :
    ∃ s₁ s₂ s₃, s.store (lastSlot (.head f) (ptrs left)) (some k) = .ok s₁ ∧ cutFront p u (s₁.link k (some p)) = .ok s₂ ∧
      lfWakelock p s₂ = .ok s₃ ∧ Granted s v f k u sp left ((p,l) :: right) sp s₃ := by
  have member := mem_file file
  have linked := link_before rep file off live empty
  have file' : (v.edit f (left ++ (k,u) :: (p,l) :: right) []).held f = (left ++ [(k,u)]) ++ (p,l) :: right := by
    simp
  obtain ⟨woke,rep'⟩ := cut_wake (w := {l with lfStart := u.lfEnd + 1}) linked file' rfl
  have shape : ∀ w : Lock, left ++ [(k,u)] ++ (p,w) :: right = left ++ [(k,u),(p,w)] ++ right := by simp
  rw [edit_edit,nil_append,shape] at rep'
  refine ⟨_,_,_,rep.store file _,cutFront_eq (rep.live f _ member) range fin,woke,_,_,[],.after p l right own starts fin meets ends,?_,?_,
    spent_none sp⟩
  · have same : left ++ (k,u) :: (p,l.back u) :: right = left ++ [(k,u),(p,l.back u)] ++ right := by simp
    rw [same]
    exact rep'
  have same : left ++ (k,u) :: (p,l.back u) :: right = left ++ [(k,u),(p,l.back u)] ++ right := by simp
  rw [same]
  refine kept_more (parts_used file ?_) rfl ?_
  · intro q
    simp
    tauto
  intro q away _
  have notP : q ≠ p := fun equal => away (by rw [equal]; exact ptr_mem member)
  exact (update_of_ne notP _ _).trans (update_of_ne notP _ _)

theorem setContained_spec (rep : Rep s v) (file : v.held f = left ++ (p,l) :: right) (locals : Locals s v k u sp)
    (empty : u.lfBlkhd = []) (ranged : Ranged l) (range : Ranged u) (own : l.lfId = u.lfId) (which : CaseOf l u .contains)
    (room : sp = none → u.lfStart = 0) : ∃ sp' s', setContained k p (lastSlot (.head f) (ptrs left)) sp s = .ok (sp',s') ∧
      Granted s v f k u sp left ((p,l) :: right) sp' s' := by
  have member := mem_file file
  have liveP := rep.live f _ member
  obtain ⟨off,live⟩ := locals.lock
  obtain ⟨start,fin,reach,other⟩ := which
  have order := range.fin
  have low := ranged.start.1
  unfold setContained
  rw [get_live live,ok_bind,get_live liveP,ok_bind]
  split
  · next type =>
    rw [lfFree_eq live]
    have freed := rep.freeOff (l := u) off
    have inside : Inside u l := by
      unfold Inside
      omega
    refine ⟨sp,_,rfl,_,[],[],.same p l right own inside type,?_,?_,spent_none sp⟩
    · rw [← file,edit_same rfl]
      exact freed
    rw [← file,edit_same rfl]
    refine ⟨?_,rfl,?_⟩
    · intro q away used
      have notK : q ≠ k := by simpa using used
      exact ⟨away,update_of_ne notK _ _⟩
    intro q l' alive away
    have notK : q ≠ k := by
      rintro rfl
      rw [show (s.freed q u).lockf q = none from update_self _ _ _] at alive
      cases alive
    exact ⟨away,(update_of_ne notK _ _).symm.trans alive,by simpa using notK⟩
  next type =>
  by_cases same : l.lfStart = u.lfStart
  · rw [if_pos same]
    obtain ⟨s₁,s₂,s₃,stored,cut,woke,granted⟩ :=
      setBefore_spec sp rep file off live empty range own (Int.le_of_eq same.symm) fin (by omega) (by omega)
    refine ⟨sp,s₃,?_,granted⟩
    rw [stored,ok_bind,cut,ok_bind,woke,ok_bind]
  rw [if_neg same]
  by_cases last : l.lfEnd = u.lfEnd
  · have linked := link_behind (w := {l with lfEnd := u.lfStart - 1}) rep file off live empty rfl
    obtain ⟨woke,rep'⟩ := linked.wake (edit_held ..)
    rw [edit_edit,nil_append] at rep'
    refine ⟨sp,_,?_,_,_,[],.last p l right own (by omega) ⟨fin,last⟩,rep',?_,spent_none sp⟩
    · rw [lfSplit_two liveP live range same last sp,ok_bind]
      exact (congrArg (· >>= fun s => Except.ok (sp,s)) woke).trans (ok_bind _ _)
    have shape : left ++ (p,l.front u) :: (k,u) :: right = left ++ [(p,l.front u),(k,u)] ++ right := by simp
    rw [shape]
    refine kept_more ?_ rfl ?_
    · exact parts_used file (by simp)
    intro q away _
    have notP : q ≠ p := fun equal => away (by rw [equal]; exact ptr_mem member)
    exact (update_of_ne notP _ _).trans (update_of_ne notP _ _)
  cases spare : sp with
  | none =>
    have zero := room spare
    omega
  | some q =>
    obtain ⟨offQ,apartQ,w,liveQ⟩ := locals.spare q spare
    have linked := link_split (w := {l with lfEnd := u.lfStart - 1}) rep file off live empty rfl offQ ⟨w,liveQ⟩ apartQ (l.back u) rfl
    obtain ⟨woke,rep'⟩ := linked.wake (edit_held ..)
    rw [edit_edit,nil_append] at rep'
    refine ⟨none,_,?_,_,_,[q],.split q p l right own (by omega) fin (by omega) type,rep',?_,.inr ⟨q,rfl,rfl,rfl⟩⟩
    · rw [lfSplit_three liveP live liveQ range same last fin,ok_bind]
      exact (congrArg (· >>= fun s => Except.ok (none,s)) woke).trans (ok_bind _ _)
    have shape : left ++ (p,l.front u) :: (k,u) :: (q,l.back u) :: right =
        left ++ [(p,l.front u),(k,u),(q,l.back u)] ++ right := by simp
    rw [shape]
    refine kept_more ?_ rfl ?_
    · exact parts_used file (by simp)
    intro r away other
    have notP : r ≠ p := fun equal => away (by rw [equal]; exact ptr_mem member)
    have notQ : r ≠ q := by
      simp at other
      exact other.2
    exact (update_of_ne notP _ _).trans ((update_of_ne notP _ _).trans (update_of_ne notQ _ _))

theorem later_rest (sorted : Sorted ((p,l) :: rest)) (own : l.lfId = u.lfId)
    (reaches : l.lfEnd = -1 ∨ u.lfStart ≤ l.lfEnd) : ∀ e ∈ rest, e.2.lfId = u.lfId → u.lfStart < e.2.lfStart := by
  intro e member same
  have next := (pairwise_cons.mp sorted).1 e member (own.trans same.symm)
  dsimp only at next
  omega

theorem setInside_spec (n : Nat) (rep : Rep s v) (file : v.held f = left ++ (p,l) :: rest) (locals : Locals s v k u sp)
    (empty : u.lfBlkhd = []) (ranged : ∀ e ∈ (p,l) :: rest, Ranged e.2) (range : Ranged u) (sorted : Sorted ((p,l) :: rest))
    (own : l.lfId = u.lfId) (inside : Inside l u) (enough : rest.length < n) :
    ∃ s₁ s₂ s₃ s', takeOver k p s = .ok s₁ ∧ s₁.store (lastSlot (.head f) (ptrs left)) (some k) = .ok s₂ ∧
      lfFree p (s₂.link k (s₂.lfNext (.next p))) = .ok s₃ ∧ setLoop k n false (s.lfNext (.next p)) (.next k) sp s₃ = .ok (sp,s') ∧
      Granted s v f k u sp left ((p,l) :: rest) sp s' := by
  obtain ⟨off,live⟩ := locals.lock
  obtain ⟨s₁,s₂,s₃,took,stored,freed,rep',next,dead,same⟩ := swap_rep rep file off live empty
  have fin := (ranged (p,l) (by simp)).fin
  have reaches : l.lfEnd = -1 ∨ u.lfStart ≤ l.lfEnd := by
    unfold Inside at inside
    dsimp only at fin
    omega
  obtain ⟨es',ws,taken,s',ran,clears,rep'',kept⟩ := absorbLoop_spec sp n [] _ rep' (edit_held ..)
    (fun e member => ranged e (by simp [member])) range (later_rest sorted own reaches) enough
  have kept₀ : Kept s s₃ v (v.edit f (left ++ (k,{u with lfBlkhd := bif taker u l then l.lfBlkhd else []}) :: rest)
      (bif taker u l then [] else l.lfBlkhd)) [k] := kept_list ?_ next ?_ ?_
  · have all := kept₀.trans kept
    rw [edit_edit] at rep'' all
    refine ⟨s₁,s₂,s₃,s',took,stored,freed,?_,_,_,[],.inside p l own inside clears,rep'',all,spent_none sp⟩
    rw [rep.next file]
    simpa using ran
  · intro q member
    rw [file]
    simp only [ptrs_append,ptrs_cons,mem_append,mem_cons] at member ⊢
    tauto
  · intro q away other
    refine same q ?_ (by simpa using other)
    rintro rfl
    exact away (by rw [file]; simp)
  intro q out either
  rw [file] at either
  simp only [ptrs_append,ptrs_cons,mem_append,mem_cons,not_mem_nil,or_false,not_or] at either out
  have here : q = p := by tauto
  rw [here]
  exact dead

theorem cut_behind (rep : Rep s v) (file : v.held f = left ++ (p,l) :: right) (off : v.Off k) (live : s.lockf k = some u)
    (empty : u.lfBlkhd = []) (range : Ranged u) :
    ∃ s₁ s₂, cutBack p u ((s.link k (s.lfNext (.next p))).link p (some k)) = .ok s₁ ∧ lfWakelock p s₁ = .ok s₂ ∧
      Rep s₂ (v.edit f (left ++ (p,l.front u) :: (k,u) :: right) l.lfBlkhd) ∧
      Kept s s₂ v (v.edit f (left ++ (p,l.front u) :: (k,u) :: right) l.lfBlkhd) [k] := by
  have member := mem_file file
  have linked := link_behind (w := {l with lfEnd := u.lfStart - 1}) rep file off live empty rfl
  obtain ⟨woke,rep'⟩ := linked.wake (edit_held ..)
  rw [edit_edit,nil_append] at rep'
  refine ⟨_,_,cutBack_eq (rep.live f _ member) range,woke,rep',kept_more ?_ rfl ?_⟩
  · have two : left ++ (p,l.front u) :: (k,u) :: right = left ++ [(p,l.front u),(k,u)] ++ right := by simp
    rw [two]
    exact parts_used file (by simp)
  intro q away _
  have notP : q ≠ p := fun equal => away (by rw [equal]; exact ptr_mem member)
  exact (update_of_ne notP _ _).trans (update_of_ne notP _ _)

theorem setBehind_spec (n : Nat) (rep : Rep s v) (file : v.held f = left ++ (p,l) :: rest) (locals : Locals s v k u sp)
    (empty : u.lfBlkhd = []) (ranged : ∀ e ∈ rest, Ranged e.2) (range : Ranged u) (sorted : Sorted ((p,l) :: rest))
    (own : l.lfId = u.lfId) (starts : l.lfStart < u.lfStart) (reaches : l.lfEnd = -1 ∨ u.lfStart ≤ l.lfEnd)
    (ends : u.lfEnd = -1 ∨ l.lfEnd ≠ -1 ∧ l.lfEnd < u.lfEnd) (enough : rest.length < n) :
    ∃ s₁ s₂ s', cutBack p u ((s.link k (s.lfNext (.next p))).link p (some k)) = .ok s₁ ∧ lfWakelock p s₁ = .ok s₂ ∧
      setLoop k n false (s.lfNext (.next p)) (.next k) sp s₂ = .ok (sp,s') ∧ Granted s v f k u sp left ((p,l) :: rest) sp s' := by
  obtain ⟨off,live⟩ := locals.lock
  obtain ⟨s₁,s₂,cut,woke,rep',kept₀⟩ := cut_behind rep file off live empty range
  have bare : u = {u with lfBlkhd := []} := by rw [← empty]
  have shape : left ++ (p,l.front u) :: (k,u) :: rest = (left ++ [(p,l.front u)]) ++ (k,{u with lfBlkhd := []}) :: ([] ++ rest) := by
    rw [← bare]
    simp
  obtain ⟨es',ws,taken,s',ran,clears,rep'',kept⟩ := absorbLoop_spec sp n [] [] rep' ((edit_held ..).trans shape)
    ranged range (later_rest sorted own reaches) enough
  have all := kept₀.trans kept
  have same : ∀ rest : List Entry, left ++ [(p,l.front u)] ++ (k,{u with lfBlkhd := [] ++ taken}) :: ([] ++ rest) =
      left ++ (p,l.front u) :: (k,{u with lfBlkhd := taken}) :: rest := by simp
  rw [edit_edit,same] at rep'' all
  refine ⟨s₁,s₂,s',cut,woke,?_,_,_,[],.before p l own starts reaches ends clears,rep'',all,spent_none sp⟩
  rw [rep.next file]
  simpa using ran

theorem setLoop_spec (n : Nat) (rep : Rep s v) (locals : Locals s v k u sp) (empty : u.lfBlkhd = [])
    (ranged : ∀ e ∈ v.held f, Ranged e.2) (range : Ranged u) (sorted : Sorted (v.held f)) (room : sp = none → u.lfStart = 0)
    (enough : (v.held f).length < n) :
    ∃ sp' s', setLoop k n true (ptrs (v.held f)).head? (.head f) sp s = .ok (sp',s') ∧ Granted s v f k u sp [] (v.held f) sp' s' := by
  obtain ⟨n,rfl⟩ := Nat.exists_eq_succ_of_ne_zero (Nat.ne_of_gt (Nat.lt_of_le_of_lt (Nat.zero_le _) enough))
  obtain ⟨off,live⟩ := locals.lock
  have whole : v.held f = [] ++ v.held f := rfl
  obtain ⟨skipped,rest,c,split,passed,stops,found⟩ := findoverlap_self rep whole ranged range _ (rep.short whole)
  simp only [ptrs_nil,lastSlot_nil,nil_append] at found
  rw [setLoop,get_live live,ok_bind,found,ok_bind]
  have bound : ∀ e more, rest = e :: more → more.length < n := by
    intro e more same
    rw [split,same] at enough
    simp at enough
    omega
  have sortedRest : Sorted rest := by
    rw [split] at sorted
    exact (pairwise_append.mp sorted).2.1
  have rangedRest : ∀ e ∈ rest, Ranged e.2 := fun e member => ranged e (by rw [split]; simp [member])
  have between : Grants k u sp rest ((k,u) :: rest) [] sp →
      ∃ sp' s', (do let s ← s.store (lastSlot (.head f) (ptrs skipped)) (some k); .ok (sp,s.link k (ptrs rest).head?)) =
        (Except.ok (sp',s') : Except Halt (Option Ptr × State)) ∧ Granted s v f k u sp [] (v.held f) sp' s' := by
    intro grants
    have linked := link_before rep split off live empty
    refine ⟨sp,{s with lfNext := update (update s.lfNext (lastSlot (.head f) (ptrs skipped)) (some k)) (.next k) (ptrs rest).head?},?_,?_⟩
    · rw [rep.store split,ok_bind]
      rfl
    have granted : Granted s v f k u sp skipped rest sp _ :=
      ⟨_,_,[],grants,linked,kept_more ?_ rfl (fun _ _ _ => rfl),spent_none sp⟩
    · rw [split]
      exact granted_skip passed granted
    intro q
    rw [split]
    simp only [ptrs_append,ptrs_cons,mem_append,mem_cons,not_mem_nil,or_false]
    tauto
  have done : ∀ {sp' : Option Ptr} {s' : State}, Granted s v f k u sp skipped rest sp' s' → Granted s v f k u sp [] (v.held f) sp' s' := by
    intro sp' s' granted
    rw [split]
    exact granted_skip passed granted
  cases stops with
  | finished => exact between (.nil sp)
  | past e rest own past => exact between (.stop e rest own past)
  | overlap c e rest own present which =>
    obtain ⟨p,l⟩ := e
    cases c with
    | noOverlap => exact absurd rfl present
    | equal =>
      obtain ⟨s',ran,granted⟩ := setEqual_spec rep split off live own which
      refine ⟨sp,s',?_,done granted⟩
      dsimp only [ptrs_cons,head?_cons]
      rw [ran,ok_bind]
    | contains =>
      obtain ⟨sp',s',ran,granted⟩ := setContained_spec rep split locals empty (rangedRest (p,l) (by simp)) range own which room
      exact ⟨sp',s',ran,done granted⟩
    | contained =>
      obtain ⟨s₁,s₂,s₃,s',took,stored,freed,ran,granted⟩ :=
        setInside_spec n rep split locals empty rangedRest range sortedRest own which (bound _ _ rfl)
      refine ⟨sp,s',?_,done granted⟩
      dsimp only [ptrs_cons,head?_cons]
      rw [took,ok_bind,if_pos rfl,stored,ok_bind,freed,ok_bind]
      exact ran
    | startsBefore =>
      obtain ⟨starts,reaches,ends⟩ := which
      obtain ⟨s₁,s₂,s',cut,woke,ran,granted⟩ := setBehind_spec n rep split locals empty (fun e member => rangedRest e (by simp [member]))
        range sortedRest own starts reaches ends (bound _ _ rfl)
      refine ⟨sp,s',?_,done granted⟩
      dsimp only [ptrs_cons,head?_cons]
      rw [cut,ok_bind,woke,ok_bind]
      exact ran
    | endsAfter =>
      obtain ⟨starts,fin,meets,ends⟩ := which
      obtain ⟨s₁,s₂,s₃,stored,cut,woke,granted⟩ :=
        setBefore_spec sp rep split off live empty range own (Int.le_of_lt starts) fin meets ends
      refine ⟨sp,s₃,?_,done granted⟩
      dsimp only [ptrs_cons,head?_cons]
      rw [if_pos rfl,stored,ok_bind,cut,ok_bind,woke,ok_bind]
end NetbsdAvr32.Lockf
