import NetbsdAvr32.Linked
import NetbsdAvr32.LockfHeld

-- The pointer structure stands for lists of records: held locks by file, and
-- the requests of LWPs in lf_setlock.
namespace NetbsdAvr32.Lockf
open Function Linked Outcome List

structure View where
  held : Nat → List Entry
  loose : Ptr → Option Lock
  wchan : Nat → Option Ptr
  frames : Nat → Option Frame

def ptrs (es : List Entry) : List Ptr := es.map Prod.fst

@[simp] theorem ptrs_nil : ptrs [] = [] := rfl
@[simp] theorem ptrs_cons (e : Entry) (es : List Entry) : ptrs (e :: es) = e.1 :: ptrs es := rfl
@[simp] theorem ptrs_append (es es' : List Entry) : ptrs (es ++ es') = ptrs es ++ ptrs es' := map_append
def View.withHeld (v : View) (f : Nat) (es : List Entry) : View := {v with held := update v.held f es}
def View.Off (v : View) (p : Ptr) : Prop := v.loose p = none ∧ ∀ f, p ∉ ptrs (v.held f)

structure Rep (s : State) (v : View) : Prop where
  chain : ∀ f, Chain s.lfNext (.head f) (ptrs (v.held f))
  nodup : ∀ f, (ptrs (v.held f)).Nodup
  apart : ∀ f g p, p ∈ ptrs (v.held f) → p ∈ ptrs (v.held g) → f = g
  live : ∀ f e, e ∈ v.held f → s.lockf e.1 = some e.2
  loose : ∀ r l, v.loose r = some l → s.lockf r = some l ∧ ∀ f, r ∉ ptrs (v.held f)
  bound : ∀ p l, s.lockf p = some l → p < s.nextLockf
  queued : ∀ f e, e ∈ v.held f → e.2.lfBlkhd.Nodup ∧
    ∀ r ∈ e.2.lfBlkhd, (∃ l, v.loose r = some l) ∧ s.lfNext (.next r) = some e.1
  unqueued : ∀ r l, v.loose r = some l → (∀ f e, e ∈ v.held f → r ∉ e.2.lfBlkhd) → s.lfNext (.next r) = none
  wchan : s.wchan = v.wchan
  frames : s.frames = v.frames

variable {s s' : State} {v v' : View} {f g : Nat} {p k r : Ptr} {l u : Lock} {e : Entry} {es es' left right : List Entry}
  {sp sp' : Option Ptr} {ws : List Ptr}

theorem mem_file (file : es = left ++ e :: right) : e ∈ es := by rw [file]; simp
theorem ptr_mem (member : e ∈ es) : e.1 ∈ ptrs es := mem_map_of_mem member
theorem mem_ptrs : p ∈ ptrs es ↔ ∃ l, (p,l) ∈ es := by simp [ptrs]

theorem Rep.entry (rep : Rep s v) (one : e ∈ v.held f) (two : e' ∈ v.held g) (same : e.1 = e'.1) : f = g ∧ e = e' := by
  have first := rep.live f e one
  rw [same,rep.live g e' two] at first
  have both : e = e' := Prod.ext same (Option.some.inj first).symm
  exact ⟨rep.apart f g e.1 (ptr_mem one) (same ▸ ptr_mem two),both⟩

-- What a change of one file's list must leave alone.
structure Change (s s' : State) (v : View) (f : Nat) (es' : List Entry) : Prop where
  chain : Chain s'.lfNext (.head f) (ptrs es')
  nodup : (ptrs es').Nodup
  new : ∀ p ∈ ptrs es', p ∈ ptrs (v.held f) ∨ v.Off p
  live : ∀ e ∈ es', s'.lockf e.1 = some e.2
  rest : ∀ q, q ∉ ptrs (v.held f) → q ∉ ptrs es' → s'.lockf q = s.lockf q
  bound : s'.nextLockf = s.nextLockf ∧ ∀ q l, s'.lockf q = some l → ∃ l', s.lockf q = some l'
  heads : ∀ g, g ≠ f → s'.lfNext (.head g) = s.lfNext (.head g)
  links : ∀ q, q ∉ ptrs (v.held f) → q ∉ ptrs es' → (∀ e ∈ v.held f, q ∉ e.2.lfBlkhd) → s'.lfNext (.next q) = s.lfNext (.next q)
  queued : ∀ e ∈ es', e.2.lfBlkhd.Nodup ∧
    ∀ r ∈ e.2.lfBlkhd, (∃ e' ∈ v.held f, r ∈ e'.2.lfBlkhd) ∧ s'.lfNext (.next r) = some e.1
  freed : ∀ r, (∃ e ∈ v.held f, r ∈ e.2.lfBlkhd) → (∀ e ∈ es', r ∉ e.2.lfBlkhd) → s'.lfNext (.next r) = none
  frames : s'.frames = s.frames

theorem Rep.oneQueue (rep : Rep s v) (one : e ∈ v.held f) (two : e' ∈ v.held g) (first : r ∈ e.2.lfBlkhd)
    (second : r ∈ e'.2.lfBlkhd) : f = g ∧ e = e' := by
  have here := ((rep.queued f e one).2 r first).2
  have there := ((rep.queued g e' two).2 r second).2
  rw [here] at there
  exact rep.entry one two (Option.some.inj there)

theorem Change.rep (change : Change s s' v f es') (rep : Rep s v) : Rep s' {v.withHeld f es' with wchan := s'.wchan} := by
  have held : ∀ g, g ≠ f → (v.withHeld f es').held g = v.held g := fun g other => update_of_ne other _ _
  have here : (v.withHeld f es').held f = es' := update_self _ _ _
  have away : ∀ g, g ≠ f → ∀ p ∈ ptrs (v.held g), p ∉ ptrs (v.held f) ∧ p ∉ ptrs es' := by
    intro g other p member
    have first : p ∉ ptrs (v.held f) := fun both => other (rep.apart g f p member both)
    refine ⟨first,?_⟩
    intro second
    rcases change.new p second with old | off
    · exact first old
    · exact off.2 g member
  have waits : ∀ r l, v.loose r = some l → r ∉ ptrs (v.held f) ∧ r ∉ ptrs es' := by
    intro r l loose
    have off := (rep.loose r l loose).2
    refine ⟨off f,?_⟩
    intro second
    rcases change.new r second with old | both
    · exact off f old
    rw [both.1] at loose
    cases loose
  have single : ∀ g e, g ≠ f → e ∈ v.held g → ∀ r ∈ e.2.lfBlkhd, ∀ e' ∈ v.held f, r ∉ e'.2.lfBlkhd := by
    intro g e other member r first e' member' second
    exact other (rep.oneQueue member member' first second).1
  have plain : ∀ g e, g ≠ f → e ∈ v.held g → ∀ e' ∈ v.held f, e.1 ∉ e'.2.lfBlkhd := by
    intro g e other member e' member' waiting
    obtain ⟨l,loose⟩ := ((rep.queued f e' member').2 e.1 waiting).1
    exact (rep.loose _ l loose).2 g (ptr_mem member)
  refine ⟨?_,?_,?_,?_,?_,?_,?_,?_,rfl,change.frames.trans rep.frames⟩
  · intro g
    by_cases mine : g = f
    · subst g
      rw [here]
      exact change.chain
    rw [held g mine]
    refine (rep.chain g).frame (change.heads g mine) ?_
    intro p member
    obtain ⟨l,entry⟩ := mem_ptrs.mp member
    exact change.links p (away g mine p member).1 (away g mine p member).2 (plain g (p,l) mine entry)
  · intro g
    by_cases mine : g = f
    · subst g
      rw [here]
      exact change.nodup
    rw [held g mine]
    exact rep.nodup g
  · intro g g' p first second
    by_cases mine : g = f
    · subst g
      by_cases too : g' = f
      · exact too.symm
      rw [here] at first
      rw [held g' too] at second
      exact absurd first (away g' too p second).2
    rw [held g mine] at first
    by_cases too : g' = f
    · subst g'
      rw [here] at second
      exact absurd second (away g mine p first).2
    rw [held g' too] at second
    exact rep.apart g g' p first second
  · intro g e member
    by_cases mine : g = f
    · subst g
      rw [here] at member
      exact change.live e member
    rw [held g mine] at member
    have off := away g mine e.1 (ptr_mem member)
    rw [change.rest e.1 off.1 off.2]
    exact rep.live g e member
  · intro r l loose
    have off := waits r l loose
    refine ⟨(change.rest r off.1 off.2).trans (rep.loose r l loose).1,?_⟩
    intro g
    by_cases mine : g = f
    · subst g
      rw [here]
      exact off.2
    rw [held g mine]
    exact (rep.loose r l loose).2 g
  · intro p l found
    rw [change.bound.1]
    obtain ⟨l',old⟩ := change.bound.2 p l found
    exact rep.bound p l' old
  · intro g e member
    by_cases mine : g = f
    · subst g
      rw [here] at member
      refine ⟨(change.queued e member).1,?_⟩
      intro r waiting
      obtain ⟨⟨e',member',before⟩,link⟩ := (change.queued e member).2 r waiting
      exact ⟨((rep.queued f e' member').2 r before).1,link⟩
    rw [held g mine] at member
    refine ⟨(rep.queued g e member).1,?_⟩
    intro r waiting
    obtain ⟨⟨l,loose⟩,link⟩ := (rep.queued g e member).2 r waiting
    have off := waits r l loose
    refine ⟨⟨l,loose⟩,?_⟩
    rw [change.links r off.1 off.2 (single g e mine member r waiting)]
    exact link
  intro r l loose none
  have off := waits r l loose
  by_cases waited : ∃ e ∈ v.held f, r ∈ e.2.lfBlkhd
  · refine change.freed r waited ?_
    intro e member
    exact none f e (by rw [here]; exact member)
  have before : ∀ e ∈ v.held f, r ∉ e.2.lfBlkhd := fun e member waiting => waited ⟨e,member,waiting⟩
  rw [change.links r off.1 off.2 before]
  refine rep.unqueued r l loose ?_
  intro g e member
  by_cases mine : g = f
  · subst g
    exact before e member
  · exact none g e (by rw [held g mine]; exact member)

def rouse (ws : List Ptr) (wchan : Nat → Option Ptr) (t : Nat) : Option Ptr :=
  match wchan t with
  | none => none
  | some r => if r ∈ ws then none else some r

theorem rouse_nil (wchan : Nat → Option Ptr) : rouse [] wchan = wchan := by
  funext t
  unfold rouse
  cases wchan t <;> simp

theorem rouse_cons (wchan : Nat → Option Ptr) (ws : List Ptr) (r : Ptr) :
    rouse ws (fun t => if wchan t = some r then none else wchan t) = rouse (r :: ws) wchan := by
  funext t
  simp only [rouse]
  cases held : wchan t with
  | none => simp
  | some q =>
    by_cases same : q = r
    · subst q; simp
    · simp [same]

theorem rouse_append (ws ws' : List Ptr) (wchan : Nat → Option Ptr) : rouse ws' (rouse ws wchan) = rouse (ws ++ ws') wchan := by
  funext t
  unfold rouse
  cases held : wchan t with
  | none => rfl
  | some q =>
    by_cases first : q ∈ ws
    · simp [first]
    · simp [first]

def View.edit (v : View) (f : Nat) (es : List Entry) (ws : List Ptr) : View :=
  {v with held := update v.held f es, wchan := rouse ws v.wchan}

@[simp] theorem edit_held (v : View) (f : Nat) (es : List Entry) (ws : List Ptr) : (v.edit f es ws).held f = es :=
  update_self _ _ _

theorem edit_other (v : View) (es : List Entry) (ws : List Ptr) (other : g ≠ f) : (v.edit f es ws).held g = v.held g :=
  update_of_ne other _ _

@[simp] theorem edit_loose (v : View) (f : Nat) (es : List Entry) (ws : List Ptr) : (v.edit f es ws).loose = v.loose := rfl
@[simp] theorem edit_frames (v : View) (f : Nat) (es : List Entry) (ws : List Ptr) : (v.edit f es ws).frames = v.frames := rfl

theorem edit_edit (v : View) (f : Nat) (es es' : List Entry) (ws ws' : List Ptr) :
    (v.edit f es ws).edit f es' ws' = v.edit f es' (ws ++ ws') := by
  simp [View.edit,rouse_append]

theorem edit_same (file : v.held f = es) : v.edit f es [] = v := by
  rw [View.edit,← file,update_eq_self,rouse_nil]

theorem Change.quiet (change : Change s s' v f es') (rep : Rep s v) (wchan : s'.wchan = s.wchan) : Rep s' (v.edit f es' []) := by
  have result := change.rep rep
  rw [wchan,rep.wchan] at result
  rw [View.edit,rouse_nil]
  exact result

theorem get_live (live : s.lockf p = some l) : s.get p = .ok l := by simp [State.get,live]

theorem offT_ok {x : Int} (low : -1 ≤ x) (high : x ≤ offMax) : offT x = .ok x := by
  have least : -offMax - 1 ≤ x := by
    have : -offMax - 1 ≤ -1 := by decide
    omega
  exact if_pos ⟨least,high⟩

def relink (link : LockfSlot → Option Ptr) (ws : List Ptr) (x : Option Ptr) : LockfSlot → Option Ptr
  | .head f => link (.head f)
  | .next r => if r ∈ ws then x else link (.next r)

@[simp] theorem relink_head (link : LockfSlot → Option Ptr) (ws : List Ptr) (x : Option Ptr) (f : Nat) :
    relink link ws x (.head f) = link (.head f) := rfl

theorem relink_in {link : LockfSlot → Option Ptr} {x : Option Ptr} (member : r ∈ ws) : relink link ws x (.next r) = x :=
  if_pos member

theorem relink_out {link : LockfSlot → Option Ptr} {x : Option Ptr} (off : r ∉ ws) :
    relink link ws x (.next r) = link (.next r) := if_neg off

theorem relink_cons (link : LockfSlot → Option Ptr) (ws : List Ptr) (x : Option Ptr) (r : Ptr) :
    relink (update link (.next r) x) ws x = relink link (r :: ws) x := by
  funext slot
  cases slot with
  | head f => simp [relink]
  | next q =>
    by_cases later : q ∈ ws
    · simp [relink,later]
    by_cases same : q = r
    · subst q; simp [relink]
    · simp [relink,later,same]

theorem relink_nil (link : LockfSlot → Option Ptr) (x : Option Ptr) : relink link [] x = link := by
  funext slot
  cases slot <;> simp [relink]

def State.woken (p : Ptr) (l : Lock) (s : State) : State :=
  {s with
    lockf := update s.lockf p (some {l with lfBlkhd := []})
    lfNext := relink s.lfNext l.lfBlkhd none
    wchan := rouse l.lfBlkhd s.wchan}

theorem wakeBlocked_eq (live : s.lockf p = some l) (queue : l.lfBlkhd = ws)
    (nodup : ws.Nodup) (waiting : ∀ r ∈ ws, (∃ l, s.lockf r = some l) ∧ r ≠ p ∧ s.lfNext (.next r) = some p) :
    wakeBlocked p ws s = .ok (s.woken p l) := by
  induction ws generalizing s l with
  | nil =>
    have same : {l with lfBlkhd := []} = l := by rw [← queue]
    have table : update s.lockf p (some l) = s.lockf := by rw [← live,update_eq_self]
    simp [wakeBlocked,State.woken,same,table,queue,relink_nil,rouse_nil]
  | cons r ws ih =>
    obtain ⟨out,nodup⟩ := nodup_cons.mp nodup
    obtain ⟨⟨lr,alive⟩,other,link⟩ := waiting r (by simp)
    unfold wakeBlocked
    rw [get_live alive,ok_bind,get_live live,ok_bind,if_neg (by simp [link])]
    rw [ih (l := {l with lfBlkhd := ws}) (by simp [State.set,State.link,State.broadcast]) rfl nodup ?_]
    · rw [State.woken,State.woken,queue,← rouse_cons,← relink_cons]
      simp only [State.set,State.link,State.broadcast,update_idem]
      rfl
    intro q member
    obtain ⟨⟨lq,alive⟩,different,link⟩ := waiting q (by simp [member])
    have apart : q ≠ r := fun same => out (same ▸ member)
    exact ⟨⟨lq,by simp [State.set,State.link,State.broadcast,different,alive]⟩,different,
      by simp [State.set,State.link,State.broadcast,apart,link]⟩

theorem takeBlocked_eq {o : Lock} (live : s.lockf k = some l) (holder : s.lockf p = some o) (queue : o.lfBlkhd = ws) (apart : k ≠ p)
    (nodup : ws.Nodup)
    (waiting : ∀ r ∈ ws, (∃ l, s.lockf r = some l) ∧ r ≠ p ∧ r ≠ k ∧ s.lfNext (.next r) = some p) :
    takeBlocked k p ws s = .ok {s with
      lockf := update (update s.lockf p (some {o with lfBlkhd := []})) k (some {l with lfBlkhd := l.lfBlkhd ++ ws})
      lfNext := relink s.lfNext ws (some k)} := by
  induction ws generalizing s l o with
  | nil =>
    have same : {o with lfBlkhd := []} = o := by rw [← queue]
    have table : update s.lockf p (some o) = s.lockf := by rw [← holder,update_eq_self]
    have table' : update s.lockf k (some l) = s.lockf := by rw [← live,update_eq_self]
    simp [takeBlocked,same,table,table',relink_nil]
  | cons r ws ih =>
    obtain ⟨out,nodup⟩ := nodup_cons.mp nodup
    obtain ⟨⟨lr,alive⟩,other,another,link⟩ := waiting r (by simp)
    have still : ((s.set p {o with lfBlkhd := ws}).link r (some k)).get k = .ok l :=
      get_live (by simp [State.set,State.link,apart,live])
    unfold takeBlocked
    rw [get_live alive,ok_bind,get_live holder,ok_bind,if_neg (by simp [link])]
    dsimp only
    rw [still,ok_bind]
    rw [ih (l := {l with lfBlkhd := l.lfBlkhd ++ [r]}) (o := {o with lfBlkhd := ws}) (by simp [State.set])
      (by simp [State.set,State.link,apart.symm]) rfl nodup ?_]
    · simp only [State.set,State.link,relink_cons,append_assoc,cons_append,nil_append]
      congr 2
      funext q
      by_cases mine : q = k
      · subst q; simp
      by_cases his : q = p
      · subst q; simp [mine]
      · simp [mine,his]
    intro q member
    obtain ⟨⟨lq,alive⟩,different,differs,link⟩ := waiting q (by simp [member])
    have away : q ≠ r := fun same => out (same ▸ member)
    exact ⟨⟨lq,by simp [State.set,State.link,different,differs,alive]⟩,different,differs,
      by simp [State.set,State.link,away,link]⟩

theorem mem_replaced {l' : Lock} (nodup : (ptrs (left ++ (p,l) :: right)).Nodup) (member : e ∈ left ++ (p,l') :: right) :
    e = (p,l') ∨ (e ∈ left ++ (p,l) :: right ∧ e.1 ≠ p) := by
  simp only [ptrs_append,ptrs_cons] at nodup
  obtain ⟨_,second,across⟩ := nodup_append.mp nodup
  have out := (nodup_cons.mp second).1
  rcases mem_append.mp member with before | later
  · exact .inr ⟨by simp [before],across _ (ptr_mem before) p (by simp)⟩
  rcases mem_cons.mp later with rfl | after
  · exact .inl rfl
  · exact .inr ⟨by simp [after],fun same => out (same ▸ ptr_mem after)⟩

theorem mem_dropped (nodup : (ptrs (left ++ (p,l) :: right)).Nodup) (member : e ∈ left ++ right) :
    e ∈ left ++ (p,l) :: right ∧ e.1 ≠ p := by
  have here : e ∈ left ++ (p,l) :: right := by
    rcases mem_append.mp member with before | after
    · simp [before]
    · simp [after]
  simp only [ptrs_append,ptrs_cons] at nodup
  obtain ⟨_,second,across⟩ := nodup_append.mp nodup
  have out := (nodup_cons.mp second).1
  refine ⟨here,?_⟩
  rcases mem_append.mp member with before | after
  · exact across _ (ptr_mem before) p (by simp)
  · exact fun same => out (same ▸ ptr_mem after)

theorem mem_middle (e : Entry) : e ∈ left ++ e :: right := by simp

theorem mem_kept (w : Lock) (member : e ∈ left ++ (p,l) :: right) : e = (p,l) ∨ (e ∈ left ++ (p,w) :: right ∧ e ∈ left ++ right) := by
  rcases mem_append.mp member with before | later
  · exact .inr ⟨by simp [before],by simp [before]⟩
  rcases mem_cons.mp later with rfl | after
  · exact .inl rfl
  · exact .inr ⟨by simp [after],by simp [after]⟩

theorem Rep.waiter_off (rep : Rep s v) (member : e ∈ v.held f) (waits : r ∈ e.2.lfBlkhd) (g : Nat) : r ∉ ptrs (v.held g) := by
  obtain ⟨l,loose⟩ := ((rep.queued f e member).2 r waits).1
  exact (rep.loose r l loose).2 g

theorem Rep.replaced {w : Lock} (rep : Rep s v) (file : v.held f = left ++ (p,l) :: right) (lockf : s'.lockf = update s.lockf p (some w))
    (bound : s'.nextLockf = s.nextLockf) (frames : s'.frames = s.frames) (heads : ∀ g, s'.lfNext (.head g) = s.lfNext (.head g))
    (links : ∀ q, (∀ e ∈ v.held f, q ∉ e.2.lfBlkhd) → s'.lfNext (.next q) = s.lfNext (.next q))
    (queued : ∀ e ∈ left ++ (p,w) :: right, e.2.lfBlkhd.Nodup ∧
      ∀ r ∈ e.2.lfBlkhd, (∃ e' ∈ v.held f, r ∈ e'.2.lfBlkhd) ∧ s'.lfNext (.next r) = some e.1)
    (freed : ∀ r, (∃ e ∈ v.held f, r ∈ e.2.lfBlkhd) → (∀ e ∈ left ++ (p,w) :: right, r ∉ e.2.lfBlkhd) → s'.lfNext (.next r) = none) :
    Change s s' v f (left ++ (p,w) :: right) := by
  have member := mem_file file
  have nodup := rep.nodup f
  have same : ptrs (left ++ (p,w) :: right) = ptrs (v.held f) := by rw [file]; simp
  refine ⟨?_,same ▸ nodup,fun q held => .inl (same ▸ held),?_,?_,⟨bound,?_⟩,fun g _ => heads g,fun q _ _ => links q,queued,freed,frames⟩
  · rw [same]
    exact (rep.chain f).frame (heads f) fun q held => links q fun e mem waits => rep.waiter_off mem waits f held
  · intro e here
    rw [file] at nodup
    rw [lockf]
    rcases mem_replaced nodup here with rfl | ⟨old,other⟩
    · exact update_self _ _ _
    rw [← file] at old
    exact (update_of_ne other _ _).trans (rep.live f e old)
  · intro q off _
    rw [lockf]
    exact update_of_ne (fun equal : q = p => off (equal ▸ ptr_mem member)) _ _
  intro q l' found
  rw [lockf] at found
  by_cases mine : q = p
  · exact ⟨l,mine ▸ rep.live f _ member⟩
  · exact ⟨l',(update_of_ne mine _ _).symm.trans found⟩

theorem Rep.wake (rep : Rep s v) (file : v.held f = left ++ (p,l) :: right) : lfWakelock p s = .ok (s.woken p l) ∧
    Rep (s.woken p l) (v.edit f (left ++ (p,{l with lfBlkhd := []}) :: right) l.lfBlkhd) := by
  have member := mem_file file
  have nodup := rep.nodup f
  have live : s.lockf p = some l := rep.live f _ member
  constructor
  · unfold lfWakelock
    rw [get_live live,ok_bind]
    refine wakeBlocked_eq live rfl (rep.queued f _ member).1 ?_
    intro r waits
    obtain ⟨⟨lr,loose⟩,link⟩ := (rep.queued f _ member).2 r waits
    refine ⟨⟨lr,(rep.loose r lr loose).1⟩,?_,link⟩
    rintro rfl
    exact rep.waiter_off member waits f (ptr_mem member)
  have change : Change s (s.woken p l) v f (left ++ (p,{l with lfBlkhd := []}) :: right) := by
    have others : ∀ e ∈ v.held f, e.1 ≠ p → ∀ r ∈ e.2.lfBlkhd, r ∉ l.lfBlkhd := by
      intro e here other r waits both
      exact other (congrArg Prod.fst (rep.oneQueue here member waits both).2)
    refine rep.replaced file rfl rfl rfl (fun _ => rfl) (fun q free => relink_out (free _ member)) ?_ ?_
    · intro e here
      rw [file] at nodup
      rcases mem_replaced nodup here with rfl | ⟨old,other⟩
      · exact ⟨nodup_nil,fun r waits => by cases waits⟩
      rw [← file] at old
      refine ⟨(rep.queued f e old).1,fun r waits => ⟨⟨e,old,waits⟩,?_⟩⟩
      exact (relink_out (others e old other r waits)).trans ((rep.queued f e old).2 r waits).2
    rintro r ⟨e,old,waits⟩ none
    rw [file] at old
    rcases mem_kept {l with lfBlkhd := []} old with rfl | ⟨kept,_⟩
    · exact relink_in waits
    · exact absurd waits (none e kept)
  have result := change.rep rep
  rw [View.edit,← rep.wchan]
  exact result

theorem Rep.setHeld {w : Lock} (rep : Rep s v) (file : v.held f = left ++ (p,l) :: right) (queue : w.lfBlkhd = l.lfBlkhd) :
    Rep (s.set p w) (v.edit f (left ++ (p,w) :: right) []) := by
  have member := mem_file file
  have nodup := rep.nodup f
  have change : Change s (s.set p w) v f (left ++ (p,w) :: right) := by
    refine rep.replaced file rfl rfl rfl (fun _ => rfl) (fun _ _ => rfl) ?_ ?_
    · intro e here
      rw [file] at nodup
      rcases mem_replaced nodup here with rfl | ⟨old,_⟩
      · rw [queue]
        exact ⟨(rep.queued f _ member).1,fun r waits => ⟨⟨_,member,waits⟩,((rep.queued f _ member).2 r waits).2⟩⟩
      rw [← file] at old
      exact ⟨(rep.queued f e old).1,fun r waits => ⟨⟨e,old,waits⟩,((rep.queued f e old).2 r waits).2⟩⟩
    rintro r ⟨e,old,waits⟩ none
    rw [file] at old
    rcases mem_kept w old with rfl | ⟨kept,_⟩
    · exact absurd (queue ▸ waits) (none (p,w) (mem_middle _))
    · exact absurd waits (none e kept)
  exact change.quiet rep rfl

theorem store_ok {slot : LockfSlot} (live : ∀ q, slot = .next q → ∃ l, s.lockf q = some l) (x : Option Ptr) :
    s.store slot x = .ok {s with lfNext := update s.lfNext slot x} := by
  cases slot with
  | head f => rfl
  | next q =>
    obtain ⟨l,alive⟩ := live q rfl
    simp only [State.store,get_live alive,ok_bind]

theorem Rep.store (rep : Rep s v) (file : v.held f = left ++ right) (x : Option Ptr) :
    s.store (lastSlot (.head f) (ptrs left)) x = .ok {s with lfNext := update s.lfNext (lastSlot (.head f) (ptrs left)) x} := by
  refine store_ok ?_ x
  intro q slot
  rcases lastSlot_mem (.head f) (ptrs left) with same | ⟨r,member,same⟩
  · rw [same] at slot
    cases slot
  rw [same] at slot
  cases slot
  obtain ⟨l,here⟩ := mem_ptrs.mp member
  exact ⟨l,rep.live f (q,l) (by rw [file]; simp [here])⟩

def State.freed (p : Ptr) (l : Lock) (s : State) : State :=
  {s with
    lockf := update s.lockf p none
    uiLockcnt := update s.uiLockcnt l.lfUid (ulong (s.uiLockcnt l.lfUid + (2 ^ 32 - 1)))}

theorem lfFree_eq (live : s.lockf p = some l) : lfFree p s = .ok (s.freed p l) := by
  unfold lfFree
  rw [get_live live,ok_bind]
  rfl

theorem Rep.drop (rep : Rep s v) (file : v.held f = left ++ (p,l) :: right) (empty : l.lfBlkhd = []) :
    Rep ({s with lfNext := update s.lfNext (lastSlot (.head f) (ptrs left)) (s.lfNext (.next p))}.freed p l)
      (v.edit f (left ++ right) []) := by
  have member := mem_file file
  have nodup := rep.nodup f
  have chain := rep.chain f
  rw [file] at nodup
  rw [file,ptrs_append,ptrs_cons] at chain
  have slots := nodup
  rw [ptrs_append,ptrs_cons] at slots
  have subset : ∀ q ∈ ptrs (left ++ right), q ∈ ptrs (v.held f) := by
    intro q held
    rw [file]
    simp only [ptrs_append,mem_append,ptrs_cons,mem_cons] at held ⊢
    rcases held with before | after
    · exact .inl before
    · exact .inr (.inr after)
  have onList : ∀ q, q ∉ ptrs (v.held f) → Slot.next q ≠ lastSlot (.head f) (ptrs left) := by
    intro q off equal
    rcases lastSlot_mem (.head f) (ptrs left) with same | ⟨q',held,same⟩
    · rw [same] at equal; cases equal
    rw [same] at equal
    cases equal
    exact off (subset q (by simp [held]))
  have change : Change s ({s with lfNext := update s.lfNext (lastSlot (.head f) (ptrs left)) (s.lfNext (.next p))}.freed p l)
      v f (left ++ right) := by
    refine ⟨?_,?_,fun q held => .inl (subset q held),?_,?_,⟨rfl,?_⟩,?_,?_,?_,?_,rfl⟩
    · rw [ptrs_append]
      exact chain.unlink slots (fun q _ equal => by cases equal) (update_self _ _ _) (fun x other _ => update_of_ne other _ _)
    · rw [ptrs_append]
      obtain ⟨first,second,across⟩ := nodup_append.mp slots
      exact nodup_append.mpr ⟨first,(nodup_cons.mp second).2,fun a before b after => across a before b (by simp [after])⟩
    · intro e here
      obtain ⟨old,other⟩ := mem_dropped nodup here
      rw [← file] at old
      exact (update_of_ne other _ _).trans (rep.live f e old)
    · intro q off _
      have other : q ≠ p := fun equal => off (equal ▸ ptr_mem member)
      exact update_of_ne other _ _
    · intro q l' found
      by_cases mine : q = p
      · subst q
        exact ⟨l,rep.live f _ member⟩
      · exact ⟨l',(update_of_ne mine _ _).symm.trans found⟩
    · intro g other
      refine update_of_ne ?_ _ _
      intro equal
      rcases lastSlot_mem (.head f) (ptrs left) with same | ⟨q,_,same⟩
      · rw [same] at equal; cases equal; exact other rfl
      · rw [same] at equal; cases equal
    · intro q off _ _
      exact update_of_ne (onList q off) _ _
    · intro e here
      obtain ⟨old,other⟩ := mem_dropped nodup here
      rw [← file] at old
      refine ⟨(rep.queued f e old).1,fun r waits => ⟨⟨e,old,waits⟩,?_⟩⟩
      exact (update_of_ne (onList r (rep.waiter_off old waits f)) _ _).trans ((rep.queued f e old).2 r waits).2
    rintro r ⟨e,old,waits⟩ none
    rw [file] at old
    rcases mem_kept l old with rfl | ⟨_,kept⟩
    · rw [empty] at waits
      cases waits
    · exact absurd waits (none e kept)
  exact change.quiet rep rfl

theorem Rep.linkNew (rep : Rep s v) (link : LockfSlot → Option Ptr) (file : v.held f = left ++ right) (off : v.Off k)
    (live : s.lockf k = some u) (empty : u.lfBlkhd = []) (here : link (lastSlot (.head f) (ptrs left)) = some k)
    (behind : link (.next k) = (ptrs right).head?)
    (same : ∀ x, x ≠ lastSlot (.head f) (ptrs left) → x ≠ .next k → link x = s.lfNext x) :
    Rep {s with lfNext := link} (v.edit f (left ++ (k,u) :: right) []) := by
  have nodup := rep.nodup f
  have chain := rep.chain f
  have out := off.2 f
  rw [file,ptrs_append] at nodup chain out
  have waiter : ∀ e ∈ v.held f, ∀ r ∈ e.2.lfBlkhd, link (.next r) = s.lfNext (.next r) := by
    intro e member r waits
    obtain ⟨⟨lr,loose⟩,_⟩ := (rep.queued f e member).2 r waits
    refine same _ ?_ ?_
    · intro equal
      rcases lastSlot_mem (.head f) (ptrs left) with last | ⟨q,held,last⟩
      · rw [last] at equal; cases equal
      rw [last] at equal
      cases equal
      exact rep.waiter_off member waits f (by rw [file]; simp [held])
    intro equal
    cases equal
    rw [off.1] at loose
    cases loose
  have change : Change s {s with lfNext := link} v f (left ++ (k,u) :: right) := by
    refine ⟨?_,?_,?_,?_,fun _ _ _ => rfl,⟨rfl,fun q l found => ⟨l,found⟩⟩,?_,?_,?_,?_,rfl⟩
    · rw [ptrs_append,ptrs_cons]
      exact chain.insert nodup (fun q _ equal => by cases equal) (fun equal => by cases equal) out here behind same
    · rw [ptrs_append,ptrs_cons]
      obtain ⟨first,second,across⟩ := nodup_append.mp nodup
      rw [mem_append,not_or] at out
      refine nodup_append.mpr ⟨first,nodup_cons.mpr ⟨out.2,second⟩,?_⟩
      intro a before b after
      rcases mem_cons.mp after with rfl | after
      · exact fun equal => out.1 (equal ▸ before)
      · exact across a before b after
    · intro q held
      rw [ptrs_append,ptrs_cons] at held
      rcases mem_append.mp held with before | later
      · exact .inl (by rw [file]; simp [before])
      rcases mem_cons.mp later with rfl | after
      · exact .inr off
      · exact .inl (by rw [file]; simp [after])
    · intro e member
      rcases mem_append.mp member with before | later
      · exact rep.live f e (by rw [file]; simp [before])
      rcases mem_cons.mp later with rfl | after
      · exact live
      · exact rep.live f e (by rw [file]; simp [after])
    · intro g other
      refine same _ ?_ (fun equal => by cases equal)
      intro equal
      rcases lastSlot_mem (.head f) (ptrs left) with last | ⟨q,_,last⟩
      · rw [last] at equal; cases equal; exact other rfl
      · rw [last] at equal; cases equal
    · intro q old new _
      refine same _ ?_ ?_
      · intro equal
        rcases lastSlot_mem (.head f) (ptrs left) with last | ⟨q',held,last⟩
        · rw [last] at equal; cases equal
        rw [last] at equal
        cases equal
        exact old (by rw [file]; simp [held])
      intro equal
      cases equal
      exact new (by simp)
    · intro e member
      have old : e = (k,u) ∨ e ∈ v.held f := by
        rw [file]
        rcases mem_append.mp member with before | later
        · exact .inr (by simp [before])
        rcases mem_cons.mp later with rfl | after
        · exact .inl rfl
        · exact .inr (by simp [after])
      rcases old with rfl | old
      · rw [empty]
        exact ⟨nodup_nil,fun r waits => by cases waits⟩
      refine ⟨(rep.queued f e old).1,fun r waits => ⟨⟨e,old,waits⟩,?_⟩⟩
      rw [← ((rep.queued f e old).2 r waits).2]
      exact waiter e old r waits
    rintro r ⟨e,old,waits⟩ none
    rw [file] at old
    refine absurd waits (none e ?_)
    rcases mem_append.mp old with before | after
    · simp [before]
    · simp [after]
  exact change.quiet rep rfl

theorem Rep.unseen (rep : Rep s v) (lockf : ∀ q, ¬ v.Off q → s'.lockf q = s.lockf q)
    (heads : ∀ f, s'.lfNext (.head f) = s.lfNext (.head f)) (links : ∀ q, ¬ v.Off q → s'.lfNext (.next q) = s.lfNext (.next q))
    (bound : ∀ q l, s'.lockf q = some l → q < s'.nextLockf) (wchan : s'.wchan = s.wchan) (frames : s'.frames = s.frames) :
    Rep s' v := by
  have held : ∀ f q, q ∈ ptrs (v.held f) → ¬ v.Off q := fun f q member off => off.2 f member
  have loose : ∀ q l, v.loose q = some l → ¬ v.Off q := fun q l found off => by rw [off.1] at found; cases found
  refine ⟨?_,rep.nodup,rep.apart,?_,?_,bound,?_,?_,wchan.trans rep.wchan,frames.trans rep.frames⟩
  · intro f
    exact (rep.chain f).frame (heads f) (fun q member => links q (held f q member))
  · intro f e member
    rw [lockf e.1 (held f e.1 (ptr_mem member))]
    exact rep.live f e member
  · intro r l found
    rw [lockf r (loose r l found)]
    exact rep.loose r l found
  · intro f e member
    refine ⟨(rep.queued f e member).1,?_⟩
    intro r waits
    obtain ⟨⟨l,found⟩,link⟩ := (rep.queued f e member).2 r waits
    exact ⟨⟨l,found⟩,(links r (loose r l found)).trans link⟩
  intro r l found free
  exact (links r (loose r l found)).trans (rep.unqueued r l found free)

def State.moved (k p : Ptr) (u l : Lock) (s : State) : State :=
  {s with
    lockf := update (update s.lockf p (some {l with lfBlkhd := []})) k (some {u with lfBlkhd := u.lfBlkhd ++ l.lfBlkhd})
    lfNext := relink s.lfNext l.lfBlkhd (some k)}

theorem nodup_two {middle : List Entry} (nodup : (ptrs (left ++ (k,u) :: (middle ++ (p,l) :: right))).Nodup) :
    k ≠ p ∧ ∀ e ∈ left ++ middle ++ right, e.1 ≠ k ∧ e.1 ≠ p := by
  simp only [ptrs_append,ptrs_cons,nodup_append,nodup_cons,mem_append,mem_cons,not_or] at nodup
  obtain ⟨_,⟨⟨offMiddle,other,offRight⟩,_,⟨outRight,_⟩,apart⟩,across⟩ := nodup
  refine ⟨other,?_⟩
  intro e member
  simp only [mem_append] at member
  rcases member with (before | between) | after
  · exact ⟨across e.1 (ptr_mem before) k (.inl rfl),across e.1 (ptr_mem before) p (.inr (.inr (.inl rfl)))⟩
  · exact ⟨fun same => offMiddle (same ▸ ptr_mem between),apart e.1 (ptr_mem between) p (.inl rfl)⟩
  · exact ⟨fun same => offRight (same ▸ ptr_mem after),fun same => outRight (same ▸ ptr_mem after)⟩

theorem Rep.move (rep : Rep s v) (middle : List Entry) (file : v.held f = left ++ (k,u) :: (middle ++ (p,l) :: right)) :
    Rep (s.moved k p u l) (v.edit f
      (left ++ (k,{u with lfBlkhd := u.lfBlkhd ++ l.lfBlkhd}) :: (middle ++ (p,{l with lfBlkhd := []}) :: right)) []) := by
  have memberK : ((k,u) : Entry) ∈ v.held f := by rw [file]; simp
  have memberP : ((p,l) : Entry) ∈ v.held f := by rw [file]; simp
  have nodup := rep.nodup f
  have same : ptrs (left ++ (k,{u with lfBlkhd := u.lfBlkhd ++ l.lfBlkhd}) :: (middle ++ (p,{l with lfBlkhd := []}) :: right)) =
      ptrs (v.held f) := by
    rw [file]
    simp
  rw [file] at nodup
  obtain ⟨apart,others⟩ := nodup_two nodup
  have entries : ∀ e ∈ left ++ (k,{u with lfBlkhd := u.lfBlkhd ++ l.lfBlkhd}) :: (middle ++ (p,{l with lfBlkhd := []}) :: right),
      e = (k,{u with lfBlkhd := u.lfBlkhd ++ l.lfBlkhd}) ∨ e = (p,{l with lfBlkhd := []}) ∨
      (e ∈ v.held f ∧ e.1 ≠ k ∧ e.1 ≠ p) := by
    intro e member
    simp only [mem_append,mem_cons] at member
    rw [file]
    rcases member with before | here | between | there | after
    · exact .inr (.inr ⟨by simp [before],others e (by simp [before])⟩)
    · exact .inl here
    · exact .inr (.inr ⟨by simp [between],others e (by simp [between])⟩)
    · exact .inr (.inl there)
    · exact .inr (.inr ⟨by simp [after],others e (by simp [after])⟩)
  have outside : ∀ e ∈ v.held f, e.1 ≠ p → ∀ r ∈ e.2.lfBlkhd, r ∉ l.lfBlkhd := by
    intro e here other r waits both
    exact other (congrArg Prod.fst (rep.oneQueue here memberP waits both).2)
  have change : Change s (s.moved k p u l) v f
      (left ++ (k,{u with lfBlkhd := u.lfBlkhd ++ l.lfBlkhd}) :: (middle ++ (p,{l with lfBlkhd := []}) :: right)) := by
    refine ⟨?_,?_,?_,?_,?_,⟨rfl,?_⟩,fun _ _ => rfl,?_,?_,?_,rfl⟩
    · rw [same]
      refine (rep.chain f).frame rfl ?_
      intro q held
      exact relink_out (fun waits => rep.waiter_off memberP waits f held)
    · rw [same,file]
      exact nodup
    · intro q held
      rw [same] at held
      exact .inl held
    · intro e here
      rcases entries e here with rfl | rfl | ⟨old,notK,notP⟩
      · exact update_self _ _ _
      · exact (update_of_ne apart.symm _ _).trans (update_self _ _ _)
      · exact (update_of_ne notK _ _).trans ((update_of_ne notP _ _).trans (rep.live f e old))
    · intro q off _
      have notK : q ≠ k := fun equal => off (equal ▸ ptr_mem memberK)
      have notP : q ≠ p := fun equal => off (equal ▸ ptr_mem memberP)
      exact (update_of_ne notK _ _).trans (update_of_ne notP _ _)
    · intro q l' found
      by_cases isK : q = k
      · exact ⟨u,by rw [isK]; exact rep.live f _ memberK⟩
      by_cases isP : q = p
      · exact ⟨l,by rw [isP]; exact rep.live f _ memberP⟩
      · exact ⟨l',(update_of_ne isP _ _).symm.trans ((update_of_ne isK _ _).symm.trans found)⟩
    · intro q _ _ free
      exact relink_out (free _ memberP)
    · intro e here
      rcases entries e here with rfl | rfl | ⟨old,_,notP⟩
      · refine ⟨?_,?_⟩
        · refine nodup_append.mpr ⟨(rep.queued f _ memberK).1,(rep.queued f _ memberP).1,?_⟩
          intro a first b second equal
          subst b
          exact outside _ memberK apart a first second
        intro r waits
        rcases mem_append.mp waits with mine | his
        · refine ⟨⟨_,memberK,mine⟩,?_⟩
          exact (relink_out (outside _ memberK apart r mine)).trans ((rep.queued f _ memberK).2 r mine).2
        · exact ⟨⟨_,memberP,his⟩,relink_in his⟩
      · exact ⟨nodup_nil,fun r waits => by cases waits⟩
      refine ⟨(rep.queued f e old).1,fun r waits => ⟨⟨e,old,waits⟩,?_⟩⟩
      exact (relink_out (outside e old notP r waits)).trans ((rep.queued f e old).2 r waits).2
    rintro r ⟨e,old,waits⟩ none
    rw [file] at old
    simp only [mem_append,mem_cons] at old
    rcases old with before | rfl | between | rfl | after
    · exact absurd waits (none e (by simp [before]))
    · exact absurd (mem_append_left _ waits) (none _ (mem_middle _))
    · exact absurd waits (none e (by simp [between]))
    · exact absurd (mem_append_right _ waits) (none _ (mem_middle _))
    · exact absurd waits (none e (by simp [after]))
  exact change.quiet rep rfl

theorem Rep.takeBlocked (rep : Rep s v) (middle : List Entry) (file : v.held f = left ++ (k,u) :: (middle ++ (p,l) :: right)) :
    Lockf.takeBlocked k p l.lfBlkhd s = .ok (s.moved k p u l) := by
  have memberK : ((k,u) : Entry) ∈ v.held f := by rw [file]; simp
  have memberP : ((p,l) : Entry) ∈ v.held f := by rw [file]; simp
  have nodup := rep.nodup f
  rw [file] at nodup
  refine takeBlocked_eq (rep.live f _ memberK) (rep.live f _ memberP) rfl (nodup_two nodup).1 (rep.queued f _ memberP).1 ?_
  intro r waits
  obtain ⟨⟨lr,loose⟩,link⟩ := (rep.queued f _ memberP).2 r waits
  refine ⟨⟨lr,(rep.loose r lr loose).1⟩,?_,?_,link⟩
  · rintro rfl
    exact rep.waiter_off memberP waits f (ptr_mem memberP)
  rintro rfl
  exact rep.waiter_off memberP waits f (ptr_mem memberK)

theorem Rep.first (rep : Rep s v) (file : v.held f = left ++ right) :
    s.lfNext (lastSlot (.head f) (ptrs left)) = (ptrs right).head? := by
  have chain := rep.chain f
  rw [file,ptrs_append] at chain
  exact (chain_append.mp chain).2.first

theorem Rep.next (rep : Rep s v) (file : v.held f = left ++ (p,l) :: right) : s.lfNext (.next p) = (ptrs right).head? := by
  have again : v.held f = (left ++ [(p,l)]) ++ right := by rw [file]; simp
  have first := rep.first again
  rw [ptrs_append,lastSlot_append] at first
  exact first

theorem Rep.length (rep : Rep s v) : (ptrs (v.held f)).length ≤ s.nextLockf := by
  refine length_bound (rep.nodup f) ?_
  intro p member
  obtain ⟨l,here⟩ := mem_ptrs.mp member
  exact rep.bound p l (rep.live f _ here)

structure Kept (s s' : State) (v v' : View) (used : List Ptr) : Prop where
  off : ∀ q, v.Off q → q ∉ used → v'.Off q ∧ s'.lockf q = s.lockf q
  next : s'.nextLockf = s.nextLockf
  only : ∀ q l, s'.lockf q = some l → v'.Off q → v.Off q ∧ s.lockf q = some l ∧ q ∉ used

theorem kept_refl (s : State) (v : View) : Kept s s v v [] :=
  ⟨fun _ off _ => ⟨off,rfl⟩,rfl,fun _ _ live off => ⟨off,live,not_mem_nil⟩⟩

theorem Kept.trans {s'' : State} {v'' : View} {used used' : List Ptr} (first : Kept s s' v v' used) (second : Kept s' s'' v' v'' used') :
    Kept s s'' v v'' (used ++ used') := by
  refine ⟨?_,second.next.trans first.next,?_⟩
  · intro q off away
    simp only [mem_append,not_or] at away
    obtain ⟨middle,same⟩ := first.off q off away.1
    obtain ⟨after,same'⟩ := second.off q middle away.2
    exact ⟨after,same'.trans same⟩
  intro q l live off
  obtain ⟨middle,alive,out⟩ := second.only q l live off
  obtain ⟨before,old,out'⟩ := first.only q l alive middle
  exact ⟨before,old,fun member => (mem_append.mp member).elim out' out⟩

theorem kept_list {used : List Ptr} (fewer : ∀ q ∈ ptrs es', q ∈ ptrs (v.held f) ∨ q ∈ used) (next : s'.nextLockf = s.nextLockf)
    (same : ∀ q, q ∉ ptrs (v.held f) → q ∉ used → s'.lockf q = s.lockf q)
    (gone : ∀ q, q ∉ ptrs es' → q ∈ ptrs (v.held f) ∨ q ∈ used → s'.lockf q = none) : Kept s s' v (v.edit f es' ws) used := by
  refine ⟨?_,next,?_⟩
  · intro q off other
    refine ⟨⟨off.1,?_⟩,same q (off.2 f) other⟩
    intro g member
    by_cases mine : g = f
    · subst g
      rw [edit_held] at member
      rcases fewer q member with old | new
      · exact off.2 f old
      · exact other new
    rw [edit_other v es' ws mine] at member
    exact off.2 g member
  intro q l live off
  have out := off.2 f
  rw [edit_held] at out
  have away : q ∉ ptrs (v.held f) ∧ q ∉ used := by
    rw [← not_or]
    intro either
    rw [gone q out either] at live
    cases live
  refine ⟨⟨off.1,?_⟩,(same q away.1 away.2).symm.trans live,away.2⟩
  intro g member
  by_cases mine : g = f
  · subst g
    exact away.1 member
  · exact off.2 g (by rw [edit_other v es' ws mine]; exact member)

theorem kept_more {used : List Ptr} (equal : ∀ q, q ∈ ptrs es' ↔ q ∈ ptrs (v.held f) ∨ q ∈ used) (next : s'.nextLockf = s.nextLockf)
    (same : ∀ q, q ∉ ptrs (v.held f) → q ∉ used → s'.lockf q = s.lockf q) : Kept s s' v (v.edit f es' ws) used :=
  kept_list (fun q => (equal q).mp) next same (fun q out either => absurd ((equal q).mpr either) out)
end NetbsdAvr32.Lockf
