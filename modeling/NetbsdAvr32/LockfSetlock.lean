import NetbsdAvr32.LockfSound

-- A request goes to sleep on the lock that blocks it, and leaves the queue.
namespace NetbsdAvr32.Lockf
open Function Linked Outcome
variable {c : Procs} {s s' : State} {v v' : View} {mine mine' : List Ptr} {f t : Nat} {p k : Ptr} {l b u : Lock} {e : Entry}
  {es es' left right : List Entry} {sp sp' : Option Ptr} {ws : List Ptr}

def View.sleep (v : View) (f : Nat) (es : List Entry) (t : Nat) (k : Ptr) (u : Lock) (sp : Option Ptr) : View where
  held := update v.held f es
  loose := update v.loose k (some u)
  wchan := update v.wchan t (some k)
  frames := update v.frames t (some ⟨k,sp⟩)

def State.sleep (s : State) (t : Nat) (k p : Ptr) (b : Lock) (sp : Option Ptr) : State :=
  {(s.link k (some p)).set p {b with lfBlkhd := b.lfBlkhd ++ [k]} with
    wchan := update s.wchan t (some k)
    frames := update s.frames t (some ⟨k,sp⟩)}

theorem sleepOn_eq (live : s.lockf p = some b) : sleepOn t k p sp s = .ok (s.sleep t k p b sp) := by
  have still : (s.link k (some p)).get p = .ok b := get_live live
  unfold sleepOn
  dsimp only
  rw [still,ok_bind]
  rfl

theorem ptrs_requeue (file : v.held f = left ++ (p,b) :: right) (w : Lock) (g : Nat) :
    ptrs (update v.held f (left ++ (p,w) :: right) g) = ptrs (v.held g) := by
  by_cases mine : g = f
  · subst g
    rw [update_self,file]
    simp
  · rw [update_of_ne mine]

theorem mem_requeue {g : Nat} {w : Lock} (rep : Rep s v) (file : v.held f = left ++ (p,b) :: right)
    (member : e ∈ update v.held f (left ++ (p,w) :: right) g) : (g = f ∧ e = (p,w)) ∨ (e ∈ v.held g ∧ e.1 ≠ p) := by
  by_cases mine : g = f
  · subst g
    rw [update_self] at member
    have nodup := rep.nodup f
    rw [file] at nodup
    rcases mem_replaced nodup member with here | old
    · exact .inl ⟨rfl,here⟩
    rw [← file] at old
    exact .inr old
  rw [update_of_ne mine] at member
  refine .inr ⟨member,?_⟩
  rintro rfl
  exact mine (rep.apart g f e.1 (ptr_mem member) (by rw [file]; simp))

theorem Rep.sleep (t : Nat) (sp : Option Ptr) (rep : Rep s v) (file : v.held f = left ++ (p,b) :: right) (off : v.Off k)
    (live : s.lockf k = some u) :
    Rep (s.sleep t k p b sp) (v.sleep f (left ++ (p,{b with lfBlkhd := b.lfBlkhd ++ [k]}) :: right) t k u sp) := by
  have memberP := mem_file file
  have slots := ptrs_requeue file {b with lfBlkhd := b.lfBlkhd ++ [k]}
  have here : ((p,{b with lfBlkhd := b.lfBlkhd ++ [k]}) : Entry) ∈
      update v.held f (left ++ (p,{b with lfBlkhd := b.lfBlkhd ++ [k]}) :: right) f := by rw [update_self]; simp
  have unqueued : ∀ g e, e ∈ v.held g → k ∉ e.2.lfBlkhd := by
    intro g e member waits
    obtain ⟨⟨l,loose⟩,_⟩ := (rep.queued g e member).2 k waits
    rw [off.1] at loose
    cases loose
  have link : ∀ r, r ≠ k → (s.sleep t k p b sp).lfNext (.next r) = s.lfNext (.next r) := by
    intro r other
    have notK : Slot.next r ≠ (Slot.next k : LockfSlot) := fun equal => by cases equal; exact other rfl
    exact update_of_ne notK (some p) s.lfNext
  have known : ∀ r l, update v.loose k (some u) r = some l → (r = k ∧ l = u) ∨ (r ≠ k ∧ v.loose r = some l) := by
    intro r l loose
    by_cases mine : r = k
    · rw [mine,update_self] at loose
      cases loose
      exact .inl ⟨mine,rfl⟩
    · exact .inr ⟨mine,(update_of_ne mine _ _).symm.trans loose⟩
  refine ⟨?_,?_,?_,?_,?_,?_,?_,?_,?_,?_⟩
  · intro g
    change Chain _ _ (ptrs (update v.held f _ g))
    rw [slots g]
    have head : Slot.head g ≠ (Slot.next k : LockfSlot) := fun equal => by cases equal
    refine (rep.chain g).frame (update_of_ne head (some p) s.lfNext) ?_
    intro q member
    exact link q (fun equal => off.2 g (equal ▸ member))
  · intro g
    change (ptrs (update v.held f _ g)).Nodup
    rw [slots g]
    exact rep.nodup g
  · intro g g' q
    change q ∈ ptrs (update v.held f _ g) → q ∈ ptrs (update v.held f _ g') → g = g'
    rw [slots g,slots g']
    exact rep.apart g g' q
  · intro g e member
    rcases mem_requeue rep file member with ⟨_,rfl⟩ | ⟨old,other⟩
    · exact update_self _ _ _
    · exact (update_of_ne other _ _).trans (rep.live g e old)
  · intro r l loose
    have off' : ∀ g, r ∉ ptrs (v.held g) ∧ s.lockf r = some l := by
      intro g
      rcases known r l loose with ⟨rfl,rfl⟩ | ⟨_,old⟩
      · exact ⟨off.2 g,live⟩
      · exact ⟨(rep.loose r l old).2 g,(rep.loose r l old).1⟩
    have other : r ≠ p := by
      rintro rfl
      exact (off' f).1 (ptr_mem memberP)
    refine ⟨(update_of_ne other _ _).trans (off' f).2,?_⟩
    intro g
    change r ∉ ptrs (update v.held f _ g)
    rw [slots g]
    exact (off' g).1
  · intro q l' found
    by_cases mine : q = p
    · subst q
      exact rep.bound p b (rep.live f _ memberP)
    · exact rep.bound q l' ((update_of_ne mine _ _).symm.trans found)
  · intro g e member
    rcases mem_requeue rep file member with ⟨_,rfl⟩ | ⟨old,other⟩
    · have out := unqueued f _ memberP
      refine ⟨?_,?_⟩
      · refine List.nodup_append.mpr ⟨(rep.queued f _ memberP).1,List.nodup_singleton k,?_⟩
        intro a first d second equal
        rw [List.mem_singleton.mp second] at equal
        exact out (equal ▸ first)
      intro r waits
      rcases List.mem_append.mp waits with old | new
      · obtain ⟨⟨l,loose⟩,next⟩ := (rep.queued f _ memberP).2 r old
        have notK : r ≠ k := fun equal => out (equal ▸ old)
        exact ⟨⟨l,(update_of_ne notK _ _).trans loose⟩,(link r notK).trans next⟩
      rw [List.mem_singleton.mp new]
      exact ⟨⟨u,update_self _ _ _⟩,update_self _ _ _⟩
    refine ⟨(rep.queued g e old).1,?_⟩
    intro r waits
    obtain ⟨⟨l,loose⟩,next⟩ := (rep.queued g e old).2 r waits
    have notK : r ≠ k := fun equal => unqueued g e old (equal ▸ waits)
    exact ⟨⟨l,(update_of_ne notK _ _).trans loose⟩,(link r notK).trans next⟩
  · intro r l loose none
    have notK : r ≠ k := by
      rintro rfl
      exact none f _ here (by simp)
    have old : v.loose r = some l := (update_of_ne notK _ _).symm.trans loose
    refine (link r notK).trans (rep.unqueued r l old ?_)
    intro g e member waits
    by_cases same : e = (p,b)
    · subst e
      exact none f _ here (by simp [waits])
    refine none g e ?_ waits
    by_cases mine : g = f
    · subst g
      change e ∈ update v.held f _ f
      rw [update_self]
      rw [file] at member
      rcases mem_kept {b with lfBlkhd := b.lfBlkhd ++ [k]} member with equal | ⟨kept,_⟩
      · exact absurd equal same
      · exact kept
    change e ∈ update v.held f _ g
    rw [update_of_ne mine]
    exact member
  · exact congrArg (update · t (some k)) rep.wchan
  · exact congrArg (update · t (some ⟨k,sp⟩)) rep.frames

theorem Rep.dequeue (rep : Rep s v) (file : v.held f = left ++ (p,b) :: right) (waits : k ∈ b.lfBlkhd) :
    Rep ((s.set p {b with lfBlkhd := b.lfBlkhd.erase k}).link k none)
      (v.edit f (left ++ (p,{b with lfBlkhd := b.lfBlkhd.erase k}) :: right) []) := by
  have memberP := mem_file file
  have nodup := rep.nodup f
  have queue := (rep.queued f _ memberP).1
  have link : ∀ r, r ≠ k → ((s.set p {b with lfBlkhd := b.lfBlkhd.erase k}).link k none).lfNext (.next r) = s.lfNext (.next r) := by
    intro r other
    have notK : Slot.next r ≠ (Slot.next k : LockfSlot) := fun equal => by cases equal; exact other rfl
    exact update_of_ne notK none s.lfNext
  have change : Change s ((s.set p {b with lfBlkhd := b.lfBlkhd.erase k}).link k none) v f
      (left ++ (p,{b with lfBlkhd := b.lfBlkhd.erase k}) :: right) := by
    refine rep.replaced file rfl rfl rfl (fun g => ?_) (fun q free => link q fun equal => free _ memberP (equal ▸ waits)) ?_ ?_
    · have head : Slot.head g ≠ (Slot.next k : LockfSlot) := fun equal => by cases equal
      exact update_of_ne head none s.lfNext
    · intro e here
      rw [file] at nodup
      rcases mem_replaced nodup here with rfl | ⟨old,other⟩
      · refine ⟨queue.erase k,?_⟩
        intro r left
        have before := List.mem_of_mem_erase left
        refine ⟨⟨_,memberP,before⟩,?_⟩
        have notK : r ≠ k := fun equal => (queue.mem_erase_iff.mp left).1 equal
        exact (link r notK).trans ((rep.queued f _ memberP).2 r before).2
      rw [← file] at old
      refine ⟨(rep.queued f e old).1,fun r before => ⟨⟨e,old,before⟩,?_⟩⟩
      have notK : r ≠ k := by
        rintro rfl
        exact other (congrArg Prod.fst (rep.oneQueue old memberP before waits).2)
      exact (link r notK).trans ((rep.queued f e old).2 r before).2
    rintro r ⟨e,old,before⟩ none
    by_cases mine : r = k
    · subst r
      exact update_self _ _ _
    rw [file] at old
    rcases mem_kept {b with lfBlkhd := b.lfBlkhd.erase k} old with rfl | ⟨kept,_⟩
    · exact absurd ((List.mem_erase_of_ne mine).mpr before) (none _ (mem_middle _))
    · exact absurd before (none e kept)
  exact change.quiet rep rfl

theorem Rep.claim (rep : Rep s v) (free : ∀ g e, e ∈ v.held g → k ∉ e.2.lfBlkhd) : Rep s {v with loose := update v.loose k none} := by
  have old : ∀ r l, update v.loose k none r = some l → r ≠ k ∧ v.loose r = some l := by
    intro r l loose
    by_cases mine : r = k
    · rw [mine,update_self] at loose
      cases loose
    · exact ⟨mine,(update_of_ne mine _ _).symm.trans loose⟩
  refine ⟨rep.chain,rep.nodup,rep.apart,rep.live,?_,rep.bound,?_,?_,rep.wchan,rep.frames⟩
  · intro r l loose
    exact rep.loose r l (old r l loose).2
  · intro g e member
    refine ⟨(rep.queued g e member).1,?_⟩
    intro r waits
    obtain ⟨⟨l,loose⟩,next⟩ := (rep.queued g e member).2 r waits
    have notK : r ≠ k := fun equal => free g e member (equal ▸ waits)
    exact ⟨⟨l,(update_of_ne notK _ _).trans loose⟩,next⟩
  intro r l loose none
  exact rep.unqueued r l (old r l loose).2 none

theorem Rep.setFrames (rep : Rep s v) (frames : Nat → Option Frame) : Rep {s with frames := frames} {v with frames := frames} :=
  ⟨rep.chain,rep.nodup,rep.apart,rep.live,rep.loose,rep.bound,rep.queued,rep.unqueued,rep.wchan,rfl⟩

theorem Rep.setWchan (rep : Rep s v) (wchan : Nat → Option Ptr) : Rep {s with wchan := wchan} {v with wchan := wchan} :=
  ⟨rep.chain,rep.nodup,rep.apart,rep.live,rep.loose,rep.bound,rep.queued,rep.unqueued,rfl,rep.frames⟩

structure Running (c : Procs) (s : State) (v : View) (t : Nat) (k : Ptr) (u : Lock) (sp : Option Ptr) : Prop where
  sound : Sound c s v (k :: sp.toList)
  idle : v.frames t = none
  locals : Locals s v k u sp
  shaped : Shaped u
  empty : u.lfBlkhd = []
  own : u.lfFlags.posix = true → u.lfId = .proc (c.proc t)
  fresh : ∀ t' fr q, v.frames t' = some fr → fr.sparelock = some q → q ≠ k ∧ sp ≠ some q
  plain : ∀ q l, sp = some q → s.lockf q = some l → l.lfBlkhd = []

theorem Proper.queue (proper : Proper b) (q : List Ptr) : Proper {b with lfBlkhd := q} := by
  refine ⟨⟨⟨proper.shaped.ranged.start,proper.shaped.ranged.fin⟩,?_⟩,proper.known⟩
  cases proper.shaped.style with
  | posix p posix flock owner => exact .posix p posix flock owner
  | flock x posix flock owner whole => exact .flock x posix flock owner whole

variable {q used : List Ptr}

theorem requeue_mem {g : Nat} (rep : Rep s v) (file : v.held f = left ++ (p,b) :: right)
    (member : e ∈ update v.held f (left ++ (p,{b with lfBlkhd := q}) :: right) g) :
    ∃ e₀ ∈ v.held g, ∃ w, e.2 = {e₀.2 with lfBlkhd := w} := by
  rcases mem_requeue rep file member with ⟨rfl,rfl⟩ | ⟨old,_⟩
  · exact ⟨(p,b),by rw [file]; simp,q,rfl⟩
  · exact ⟨e,old,e.2.lfBlkhd,rfl⟩

theorem requeue_proper (sound : Sound c s v mine) (file : v.held f = left ++ (p,b) :: right) (g : Nat) :
    ∀ e ∈ update v.held f (left ++ (p,{b with lfBlkhd := q}) :: right) g, Proper e.2 ∧ e.2.lfHead = g := by
  intro e member
  obtain ⟨e₀,old,w,same⟩ := requeue_mem sound.rep file member
  obtain ⟨proper,head⟩ := sound.proper g e₀ old
  rw [same]
  exact ⟨proper.queue w,head⟩

theorem requeue_sorted (sound : Sound c s v mine) (file : v.held f = left ++ (p,b) :: right) (g : Nat) :
    Sorted (update v.held f (left ++ (p,{b with lfBlkhd := q}) :: right) g) := by
  by_cases mine : g = f
  · subst g
    rw [update_self]
    have sorted := sound.sorted f
    rw [file] at sorted
    obtain ⟨first,second,across⟩ := List.pairwise_append.mp sorted
    obtain ⟨after,rest⟩ := List.pairwise_cons.mp second
    refine List.pairwise_append.mpr ⟨first,List.pairwise_cons.mpr ⟨after,rest⟩,?_⟩
    intro a member d later
    rcases List.mem_cons.mp later with rfl | later
    · exact across a member (p,b) (by simp)
    · exact across a member d (by simp [later])
  rw [update_of_ne mine]
  exact sound.sorted g

theorem requeue_free (sound : Sound c s v mine) (file : v.held f = left ++ (p,b) :: right) (g : Nat) :
    ∀ e ∈ update v.held f (left ++ (p,{b with lfBlkhd := q}) :: right) g,
    ∀ e' ∈ update v.held f (left ++ (p,{b with lfBlkhd := q}) :: right) g, e.2.lfId ≠ e'.2.lfId → ¬ Conflicts e.2 e'.2 := by
  intro e member e' member'
  obtain ⟨e₀,old,w,same⟩ := requeue_mem sound.rep file member
  obtain ⟨e₁,old',w',same'⟩ := requeue_mem sound.rep file member'
  rw [same,same']
  exact sound.free g e₀ old e₁ old'

theorem Off.sleep {q : Ptr} (file : v.held f = left ++ (p,b) :: right) (w : Lock) (off : v.Off q) (other : q ≠ k) :
    (v.sleep f (left ++ (p,w) :: right) t k u sp).Off q := by
  refine ⟨(update_of_ne other _ _).trans off.1,?_⟩
  intro g
  change q ∉ ptrs (update v.held f _ g)
  rw [ptrs_requeue file w g]
  exact off.2 g

theorem Running.sleep (running : Running c s v t k u sp) (known : u.lfType ≠ .unlck) (room : Room u sp) (head : u.lfHead = f) (file : v.held f = left ++ (p,b) :: right)
    (blocks : Blocks u (p,b)) : Sound c (s.sleep t k p b sp)
      (v.sleep f (left ++ (p,{b with lfBlkhd := b.lfBlkhd ++ [k]}) :: right) t k u sp) [] := by
  obtain ⟨sound,idle,locals,shaped,empty,own,fresh,plain⟩ := running
  obtain ⟨off,live⟩ := locals.lock
  have memberP := mem_file file
  have here : ((p,{b with lfBlkhd := b.lfBlkhd ++ [k]}) : Entry) ∈
      update v.held f (left ++ (p,{b with lfBlkhd := b.lfBlkhd ++ [k]}) :: right) f := by rw [update_self]; simp
  have frames : ∀ t' fr, update v.frames t (some ⟨k,sp⟩) t' = some fr →
      (t' = t ∧ fr = ⟨k,sp⟩) ∨ (t' ≠ t ∧ v.frames t' = some fr ∧ fr.lock ≠ k) := by
    intro t' fr frame
    by_cases mine : t' = t
    · rw [mine,update_self] at frame
      cases frame
      exact .inl ⟨mine,rfl⟩
    have old := (update_of_ne mine _ _).symm.trans frame
    obtain ⟨l,loose,_⟩ := sound.frame t' fr old
    refine .inr ⟨mine,old,?_⟩
    intro equal
    rw [equal,off.1] at loose
    cases loose
  have others : ∀ t' fr, v.frames t' = some fr → t' ≠ t := by
    rintro t' fr frame rfl
    rw [idle] at frame
    cases frame
  refine ⟨sound.rep.sleep t sp file off live,requeue_proper sound file,requeue_sorted sound file,requeue_free sound file,?_,?_,?_,?_,
    ?_,?_,?_⟩
  · intro g e member r waits
    rcases mem_requeue sound.rep file member with ⟨rfl,rfl⟩ | ⟨old,_⟩
    · rcases List.mem_append.mp waits with queued | new
      · obtain ⟨l,loose,place,other,conflict⟩ := sound.waits g _ memberP r queued
        have notK : r ≠ k := by
          rintro rfl
          rw [off.1] at loose
          cases loose
        exact ⟨l,(update_of_ne notK _ _).trans loose,place,other,conflict⟩
      rw [List.mem_singleton.mp new]
      exact ⟨u,update_self _ _ _,head,blocks.1.symm,blocks.2⟩
    obtain ⟨l,loose,rest⟩ := sound.waits g e old r waits
    have notK : r ≠ k := by
      rintro rfl
      rw [off.1] at loose
      cases loose
    exact ⟨l,(update_of_ne notK _ _).trans loose,rest⟩
  · intro t' fr frame
    rcases frames t' fr frame with ⟨rfl,rfl⟩ | ⟨_,old,notK⟩
    · exact ⟨u,update_self _ _ _,⟨⟨shaped,known⟩,empty,own⟩,room⟩
    obtain ⟨l,loose,rest⟩ := sound.frame t' fr old
    exact ⟨l,(update_of_ne notK _ _).trans loose,rest⟩
  · intro r l loose
    by_cases mine : r = k
    · exact ⟨t,⟨k,sp⟩,update_self _ _ _,mine.symm⟩
    obtain ⟨t',fr,frame,lock⟩ := sound.loose r l ((update_of_ne mine _ _).symm.trans loose)
    exact ⟨t',fr,(update_of_ne (others t' fr frame) _ _).trans frame,lock⟩
  · intro t₁ t₂ fr₁ fr₂ frame₁ frame₂ apart
    rcases frames t₁ fr₁ frame₁ with ⟨rfl,rfl⟩ | ⟨_,old₁,notK₁⟩
    · rcases frames t₂ fr₂ frame₂ with ⟨rfl,_⟩ | ⟨_,old₂,notK₂⟩
      · exact absurd rfl apart
      · exact ⟨notK₂.symm,fun q mine his => (fresh t₂ fr₂ q old₂ his).2 mine⟩
    rcases frames t₂ fr₂ frame₂ with ⟨rfl,rfl⟩ | ⟨_,old₂,_⟩
    · exact ⟨notK₁,fun q his mine => (fresh t₁ fr₁ q old₁ his).2 mine⟩
    · exact sound.apart t₁ t₂ fr₁ fr₂ old₁ old₂ apart
  · intro t' fr q frame spare
    have away : v.Off q ∧ q ≠ k ∧ ∃ l, s.lockf q = some l ∧ l.lfBlkhd = [] := by
      rcases frames t' fr frame with ⟨_,rfl⟩ | ⟨_,old,_⟩
      · obtain ⟨offQ,notK,l,alive⟩ := locals.spare q spare
        exact ⟨offQ,notK,l,alive,plain q l spare alive⟩
      obtain ⟨offQ,rest⟩ := sound.spare t' fr q old spare
      exact ⟨offQ,(fresh t' fr q old spare).1,rest⟩
    obtain ⟨offQ,notK,l,alive,bare⟩ := away
    exact ⟨Off.sleep file _ offQ notK,l,(update_of_ne (held_off file offQ) _ _).trans alive,bare⟩
  · intro t' r asleep
    by_cases mine : t' = t
    · subst t'
      change update v.wchan t (some k) t = some r at asleep
      rw [update_self] at asleep
      cases asleep
      exact ⟨⟨⟨k,sp⟩,update_self _ _ _,rfl⟩,f,_,here,by simp⟩
    obtain ⟨⟨fr,frame,lock⟩,g,e,member,waits⟩ := sound.asleep t' r ((update_of_ne mine _ _).symm.trans asleep)
    refine ⟨⟨fr,(update_of_ne mine _ _).trans frame,lock⟩,?_⟩
    by_cases same : e = (p,b)
    · subst e
      exact ⟨f,_,here,by simp [waits]⟩
    refine ⟨g,e,?_,waits⟩
    change e ∈ update v.held f _ g
    by_cases file' : g = f
    · subst g
      rw [update_self]
      rw [file] at member
      rcases mem_kept {b with lfBlkhd := b.lfBlkhd ++ [k]} member with equal | ⟨kept,_⟩
      · exact absurd equal same
      · exact kept
    rw [update_of_ne file']
    exact member
  intro q l alive away
  have notP : q ≠ p := by
    rintro rfl
    exact away.2 f (ptr_mem here)
  have notK : q ≠ k := by
    rintro rfl
    have loose := away.1
    rw [show (v.sleep f _ t q u sp).loose q = some u from update_self _ _ _] at loose
    cases loose
  have offQ : v.Off q := by
    refine ⟨(update_of_ne notK _ _).symm.trans away.1,?_⟩
    intro g
    rw [← ptrs_requeue file {b with lfBlkhd := b.lfBlkhd ++ [k]} g]
    exact away.2 g
  rcases sound.owned q l ((update_of_ne notP _ _).symm.trans alive) offQ with ⟨t',fr,frame,spare⟩ | mine
  · exact .inl ⟨t',fr,(update_of_ne (others t' fr frame) _ _).trans frame,spare⟩
  rcases List.mem_cons.mp mine with equal | spare
  · exact absurd equal notK
  · exact .inl ⟨t,⟨k,sp⟩,update_self _ _ _,by simpa using spare⟩

theorem Sound.dequeue (sound : Sound c s v mine) (file : v.held f = left ++ (p,b) :: right) (waits : k ∈ b.lfBlkhd)
    (awake : ∀ t, v.wchan t ≠ some k) : Sound c ((s.set p {b with lfBlkhd := b.lfBlkhd.erase k}).link k none)
      (v.edit f (left ++ (p,{b with lfBlkhd := b.lfBlkhd.erase k}) :: right) []) mine := by
  have memberP := mem_file file
  have slots := ptrs_requeue file {b with lfBlkhd := b.lfBlkhd.erase k}
  have wchan : (v.edit f (left ++ (p,{b with lfBlkhd := b.lfBlkhd.erase k}) :: right) []).wchan = v.wchan := rouse_nil _
  have away : ∀ q, (v.edit f (left ++ (p,{b with lfBlkhd := b.lfBlkhd.erase k}) :: right) []).Off q ↔ v.Off q := by
    intro q
    refine and_congr Iff.rfl (forall_congr' fun g => ?_)
    change q ∉ ptrs (update v.held f _ g) ↔ _
    rw [slots g]
  have here : ((p,{b with lfBlkhd := b.lfBlkhd.erase k}) : Entry) ∈
      update v.held f (left ++ (p,{b with lfBlkhd := b.lfBlkhd.erase k}) :: right) f := by rw [update_self]; simp
  refine ⟨sound.rep.dequeue file waits,requeue_proper sound file,requeue_sorted sound file,requeue_free sound file,?_,sound.frame,
    sound.loose,sound.apart,?_,?_,?_⟩
  · intro g e member r queued
    rcases mem_requeue sound.rep file member with ⟨rfl,rfl⟩ | ⟨old,_⟩
    · exact sound.waits g _ memberP r (List.mem_of_mem_erase queued)
    · exact sound.waits g e old r queued
  · intro t fr q frame spare
    obtain ⟨off,l,live,idle⟩ := sound.spare t fr q frame spare
    exact ⟨(away q).mpr off,l,(update_of_ne (held_off file off) _ _).trans live,idle⟩
  · intro t r asleep
    rw [wchan] at asleep
    obtain ⟨frame,g,e,member,queued⟩ := sound.asleep t r asleep
    have other : r ≠ k := fun equal => awake t (equal ▸ asleep)
    refine ⟨frame,?_⟩
    by_cases same : e = (p,b)
    · subst e
      exact ⟨f,_,here,(List.mem_erase_of_ne other).mpr queued⟩
    refine ⟨g,e,?_,queued⟩
    change e ∈ update v.held f _ g
    by_cases file' : g = f
    · subst g
      rw [update_self]
      rw [file] at member
      rcases mem_kept {b with lfBlkhd := b.lfBlkhd.erase k} member with equal | ⟨kept,_⟩
      · exact absurd equal same
      · exact kept
    rw [update_of_ne file']
    exact member
  intro q l alive off
  have notP : q ≠ p := by
    rintro rfl
    exact off.2 f (ptr_mem here)
  exact sound.owned q l ((update_of_ne notP _ _).symm.trans alive) ((away q).mp off)

theorem Sound.claim {fr : Frame} (sound : Sound c s v []) (frame : v.frames t = some fr) (awake : v.wchan t = none)
    (free : ∀ g e, e ∈ v.held g → fr.lock ∉ e.2.lfBlkhd) : ∃ u, v.loose fr.lock = some u ∧ u.lfType ≠ .unlck ∧
      Room u fr.sparelock ∧
      Running c {s with frames := update v.frames t none}
        {v with loose := update v.loose fr.lock none, frames := update v.frames t none} t fr.lock u fr.sparelock := by
  obtain ⟨u,loose,request,room⟩ := sound.frame t fr frame
  have old : ∀ t' fr', update v.frames t none t' = some fr' → t' ≠ t ∧ v.frames t' = some fr' := by
    intro t' fr' here
    by_cases mine : t' = t
    · rw [mine,update_self] at here
      cases here
    · exact ⟨mine,(update_of_ne mine _ _).symm.trans here⟩
  have off : ∀ q, v.Off q → View.Off {v with loose := update v.loose fr.lock none, frames := update v.frames t none} q := by
    intro q away
    refine ⟨?_,away.2⟩
    by_cases mine : q = fr.lock
    · rw [mine]
      exact update_self _ _ _
    · exact (update_of_ne mine _ _).trans away.1
  have others : ∀ t' fr' q, v.frames t' = some fr' → fr'.sparelock = some q → q ≠ fr.lock := by
    rintro t' fr' q here spare rfl
    rw [(sound.spare t' fr' _ here spare).1.1] at loose
    cases loose
  refine ⟨u,loose,request.proper.known,room,⟨?_,update_self _ _ _,⟨⟨⟨update_self _ _ _,(sound.rep.loose _ u loose).2⟩,
    (sound.rep.loose _ u loose).1⟩,?_⟩,request.proper.shaped,request.empty,request.own,?_,?_⟩⟩
  · refine ⟨(sound.rep.claim free).setFrames _,sound.proper,sound.sorted,sound.free,?_,?_,?_,?_,?_,?_,?_⟩
    · intro g e member r waits
      obtain ⟨l,here,rest⟩ := sound.waits g e member r waits
      have other : r ≠ fr.lock := fun equal => free g e member (equal ▸ waits)
      exact ⟨l,(update_of_ne other _ _).trans here,rest⟩
    · intro t' fr' here
      obtain ⟨other,before⟩ := old t' fr' here
      obtain ⟨l,waits,rest⟩ := sound.frame t' fr' before
      have lock := (sound.apart t' t fr' fr before frame other).1
      exact ⟨l,(update_of_ne lock _ _).trans waits,rest⟩
    · intro r l here
      have other : r ≠ fr.lock := by
        rintro rfl
        change update v.loose fr.lock none fr.lock = some l at here
        rw [update_self] at here
        cases here
      obtain ⟨t',fr',before,lock⟩ := sound.loose r l ((update_of_ne other _ _).symm.trans here)
      have notT : t' ≠ t := by
        rintro rfl
        rw [frame] at before
        cases before
        exact other lock.symm
      exact ⟨t',fr',(update_of_ne notT _ _).trans before,lock⟩
    · intro t₁ t₂ fr₁ fr₂ here₁ here₂
      exact sound.apart t₁ t₂ fr₁ fr₂ (old t₁ fr₁ here₁).2 (old t₂ fr₂ here₂).2
    · intro t' fr' q here spare
      obtain ⟨away,rest⟩ := sound.spare t' fr' q (old t' fr' here).2 spare
      exact ⟨off q away,rest⟩
    · intro t' r asleep
      obtain ⟨⟨fr',before,lock⟩,queued⟩ := sound.asleep t' r asleep
      have notT : t' ≠ t := by
        rintro rfl
        rw [awake] at asleep
        cases asleep
      exact ⟨⟨fr',(update_of_ne notT _ _).trans before,lock⟩,queued⟩
    intro q l alive away
    by_cases mine : q = fr.lock
    · exact .inr (by simp [mine])
    rcases sound.owned q l alive ⟨(update_of_ne mine _ _).symm.trans away.1,away.2⟩ with ⟨t',fr',before,spare⟩ | none
    · by_cases same : t' = t
      · subst t'
        rw [frame] at before
        cases before
        exact .inr (by simp [spare])
      · exact .inl ⟨t',fr',(update_of_ne same _ _).trans before,spare⟩
    · cases none
  · intro q spare
    obtain ⟨away,l,alive,_⟩ := sound.spare t fr q frame spare
    exact ⟨off q away,others t fr q frame spare,l,alive⟩
  · intro t' fr' q here spare
    obtain ⟨other,before⟩ := old t' fr' here
    exact ⟨others t' fr' q before spare,fun mine => (sound.apart t t' fr fr' frame before other.symm).2 q mine spare⟩
  · intro q l spare alive
    obtain ⟨_,l',alive',bare⟩ := sound.spare t fr q frame spare
    rw [alive'] at alive
    cases alive
    exact bare

def waitsFor (c : Procs) (s : State) (p : Nat) : Option Nat :=
  match c.pLwps p with
  | [t] => match s.wchan t with
    | none => none
    | some r => match (s.lfNext (.next r)).bind s.lockf with
      | none => none
      | some l => match l.lfFlags.posix, l.lfId with
        | true, .proc q => some q
        | _, _ => none
  | _ => none

def chase (c : Procs) (s : State) (curproc : Nat) : Nat → Nat → Nat → Bool × Nat
  | 0, i, _ => (false,i + 1)
  | k + 1, i, p => match waitsFor c s p with
    | none => (false,i + 1)
    | some q => if q = curproc then (true,i + 1) else chase c s curproc k (i + 1) q

def detects (c : Procs) (s : State) (curproc : Nat) (lock block : Lock) : Bool :=
  match block.lfId with
  | .file _ => false
  | .proc p => lock.lfFlags.posix && block.lfFlags.posix &&
    ((chase c s curproc maxlockdepth 0 p).1 || decide ((chase c s curproc maxlockdepth 0 p).2 ≥ maxlockdepth))

theorem Sound.queued {r : Ptr} (sound : Sound c s v mine) (asleep : s.wchan t = some r) :
    ∃ l f e, v.loose r = some l ∧ s.lockf r = some l ∧ e ∈ v.held f ∧ r ∈ e.2.lfBlkhd ∧ s.lfNext (.next r) = some e.1 ∧
      s.lockf e.1 = some e.2 ∧ Proper e.2 := by
  rw [sound.rep.wchan] at asleep
  obtain ⟨_,f,e,member,waits⟩ := sound.asleep t r asleep
  obtain ⟨⟨l,loose⟩,next⟩ := (sound.rep.queued f e member).2 r waits
  exact ⟨l,f,e,loose,(sound.rep.loose r l loose).1,member,waits,next,sound.rep.live f e member,(sound.proper f e member).1⟩

theorem waitChain_eq (sound : Sound c s v mine) (curproc n i p : Nat) :
    waitChain c curproc n i p s = .ok (chase c s curproc n i p) := by
  induction n generalizing i p with
  | zero => rfl
  | succ n ih =>
    unfold waitChain chase waitsFor
    cases lwps : c.pLwps p with
    | nil => exact absurd lwps (c.some p)
    | cons t more =>
      cases more with
      | cons t' more => rfl
      | nil =>
        dsimp only
        rw [if_neg (by simp)]
        cases asleep : s.wchan t with
        | none => rfl
        | some r =>
          obtain ⟨l,f,e,_,live,_,_,next,alive,proper⟩ := sound.queued asleep
          dsimp only
          rw [get_live live,ok_bind,next,Option.bind_some,alive]
          dsimp only
          rw [get_live alive,ok_bind]
          cases proper.shaped.style with
          | flock x posix _ _ _ => rw [if_pos posix,posix]
          | posix q posix _ owner =>
            rw [if_neg (by simp [posix]),posix,owner]
            dsimp only
            split_ifs with back
            · rfl
            · exact ih (i + 1) q

theorem deadlocks_eq (sound : Sound c s v mine) (curproc : Nat) (u b : Lock) (proper : Proper b) :
    deadlocks c curproc u b s = .ok (detects c s curproc u b) := by
  unfold deadlocks detects
  cases proper.shaped.style with
  | flock x posix _ owner _ =>
    rw [if_neg (by simp [posix]),owner]
  | posix p posix _ owner =>
    rw [owner]
    dsimp only
    by_cases mine : u.lfFlags.posix = true
    · rw [if_pos ⟨mine,posix⟩,waitChain_eq sound,ok_bind,mine,posix]
      rfl
    · simp [Bool.eq_false_iff.mpr mine]

structure Spare (s : State) (v : View) (q : Ptr) : Prop where
  off : v.Off q
  live : ∃ l, s.lockf q = some l
  fresh : ∀ t fr, v.frames t = some fr → fr.sparelock ≠ some q

theorem Running.refuse (running : Running c s v t k u sp) : Sound c (s.freed k u) v sp.toList ∧
    ∀ q, sp = some q → Spare (s.freed k u) v q := by
  obtain ⟨sound,idle,locals,shaped,empty,own,fresh,plain⟩ := running
  obtain ⟨off,live⟩ := locals.lock
  refine ⟨⟨sound.rep.freeOff off,sound.proper,sound.sorted,sound.free,sound.waits,sound.frame,sound.loose,sound.apart,?_,sound.asleep,
    ?_⟩,?_⟩
  · intro t' fr q frame spare
    obtain ⟨away,l,alive,bare⟩ := sound.spare t' fr q frame spare
    exact ⟨away,l,(update_of_ne (fresh t' fr q frame spare).1 _ _).trans alive,bare⟩
  · intro q l alive away
    have notK : q ≠ k := by
      rintro rfl
      rw [show (s.freed q u).lockf q = none from update_self _ _ _] at alive
      cases alive
    rcases sound.owned q l ((update_of_ne notK _ _).symm.trans alive) away with frame | mine
    · exact .inl frame
    rcases List.mem_cons.mp mine with equal | spare
    · exact absurd equal notK
    · exact .inr spare
  intro q spare
  obtain ⟨away,notK,l,alive⟩ := locals.spare q spare
  exact ⟨away,⟨l,(update_of_ne notK _ _).trans alive⟩,fun t' fr frame his => (fresh t' fr q frame his).2 spare⟩

section
variable (spent : Spent sp sp' used)
include spent

theorem Spent.unused {q : Ptr} (spare : sp' = some q) : sp = some q ∧ used = [] := by
  rcases spent with ⟨none,same⟩ | ⟨_,_,_,gone⟩
  · exact ⟨same.symm.trans spare,none⟩
  rw [gone] at spare
  cases spare

theorem Spent.kept {q : Ptr} (spare : sp = some q) (out : q ∉ used) : sp' = some q := by
  rcases spent with ⟨_,same⟩ | ⟨r,one,took,_⟩
  · exact same.trans spare
  rw [took] at spare
  cases spare
  exact absurd (by rw [one]; simp) out

theorem Spent.one {q : Ptr} (member : q ∈ used) : sp = some q := by
  rcases spent with ⟨none,_⟩ | ⟨r,one,took,_⟩
  · rw [none] at member
    cases member
  rw [one] at member
  rw [List.mem_singleton.mp member]
  exact took

theorem Spent.none (none : sp = none) : sp' = Option.none := by
  rcases spent with ⟨_,same⟩ | ⟨_,_,_,gone⟩
  · exact same.trans none
  · exact gone
end
section
variable (running : Running c s v t k u sp)
include running

theorem Running.ranged (f : Nat) : ∀ e ∈ v.held f, Ranged e.2 :=
  fun e member => (running.sound.proper f e member).1.shaped.ranged

theorem Running.grant (known : u.lfType ≠ .unlck) (room : Room u sp) (head : u.lfHead = f)
    (free : ∀ e ∈ v.held f, ¬ Blocks u e) (n : Nat) (enough : (v.held f).length < n) :
    ∃ sp' s' es' ws, setLoop k n true (s.lfNext (.head f)) (.head f) sp s = .ok (sp',s') ∧ Grants k u sp (v.held f) es' ws sp' ∧
      Sound c s' (v.edit f es' ws) sp'.toList ∧ ∀ q, sp' = some q → Spare s' (v.edit f es' ws) q := by
  have ranged := running.ranged f
  obtain ⟨sound,idle,locals,shaped,empty,own,fresh,plain⟩ := running
  obtain ⟨sp',s',ran,es',ws,used,grants,rep,kept,spent⟩ :=
    setLoop_spec n sound.rep locals empty ranged shaped.ranged (sound.sorted f) room.start enough
  rw [← (sound.rep.chain f).first] at ran
  have changes := grants_changes grants ranged shaped.ranged (sound.sorted f) empty
  refine ⟨sp',s',es',ws,ran,grants,sound.change head changes rep kept shaped (fun _ => ⟨known,free⟩) ?_ ?_,?_⟩
  · intro t' fr q frame spare used
    obtain ⟨notK,other⟩ := fresh t' fr q frame spare
    rcases List.mem_cons.mp used with equal | member
    · exact notK equal
    · exact other (spent.one member)
  · intro q mine out
    rcases List.mem_cons.mp mine with rfl | spare
    · exact absurd (List.mem_cons_self ..) out
    simp only [Option.mem_toList] at spare ⊢
    exact spent.kept spare (fun member => out (List.mem_cons_of_mem _ member))
  intro q spare
  obtain ⟨before,none⟩ := spent.unused spare
  obtain ⟨off,notK,l,live⟩ := locals.spare q before
  obtain ⟨off',same⟩ := kept.off q off (by rw [none]; simpa using notK)
  exact ⟨off',⟨l,same.trans live⟩,fun t' fr frame his => (fresh t' fr q frame his).2 before⟩

theorem Running.clear (room : Room u sp) (head : u.lfHead = f) :
    ∃ sp' s' es' ws, lfClearlock k sp s = .ok (sp',s') ∧ Clears u wakesAll sp (v.held f) es' ws [] sp' ∧
      (sp = none → sp' = none) ∧ Running c s' (v.edit f es' ws) t k u sp' := by
  have ranged := running.ranged f
  obtain ⟨sound,idle,locals,shaped,empty,own,fresh,plain⟩ := running
  obtain ⟨sp',s',ran,es',ws,used,clears,rep,kept,spent⟩ := lfClearlock_spec sound.rep locals head ranged shaped.ranged room.start
  have changes := clears_changes clears ranged shaped.ranged (sound.sorted f)
  have outK : k ∉ used := by
    intro member
    obtain ⟨_,notK,_⟩ := locals.spare k (spent.one member)
    exact notK rfl
  obtain ⟨offK,sameK⟩ := kept.off k locals.lock.1 outK
  have left : ∀ q, sp' = some q → (v.edit f es' ws).Off q ∧ q ≠ k ∧ ∃ l, s.lockf q = some l ∧ s'.lockf q = some l := by
    intro q spare
    obtain ⟨before,none⟩ := spent.unused spare
    obtain ⟨off,notK,l,live⟩ := locals.spare q before
    obtain ⟨off',same⟩ := kept.off q off (by rw [none]; simp)
    exact ⟨off',notK,l,live,same.trans live⟩
  refine ⟨sp',s',es',ws,ran,clears,spent.none,?_,idle,⟨⟨offK,sameK.trans locals.lock.2⟩,?_⟩,shaped,empty,own,?_,?_⟩
  · refine sound.change head changes rep kept shaped (fun no => no.elim) ?_ ?_
    · intro t' fr q frame spare member
      exact (fresh t' fr q frame spare).2 (spent.one member)
    intro q mine out
    rcases List.mem_cons.mp mine with rfl | spare
    · exact List.mem_cons_self ..
    simp only [Option.mem_toList] at spare
    simp [spent.kept spare out]
  · intro q spare
    obtain ⟨off,notK,l,_,live⟩ := left q spare
    exact ⟨off,notK,l,live⟩
  · intro t' fr q frame his
    obtain ⟨notK,other⟩ := fresh t' fr q frame his
    exact ⟨notK,fun mine => other (spent.unused mine).1⟩
  intro q l spare live
  obtain ⟨_,_,l',before,same⟩ := left q spare
  rw [same] at live
  cases live
  exact plain q _ (spent.unused spare).1 before

theorem Running.retype (type : LockType) :
    Running c (s.set k {u with lfType := type}) v t k {u with lfType := type} sp := by
  obtain ⟨sound,idle,locals,shaped,empty,own,fresh,plain⟩ := running
  obtain ⟨off,live⟩ := locals.lock
  have others : ∀ q, q ≠ k → (s.set k {u with lfType := type}).lockf q = s.lockf q := fun q other => update_of_ne other _ _
  refine ⟨⟨sound.rep.setOff off live,sound.proper,sound.sorted,sound.free,sound.waits,sound.frame,sound.loose,sound.apart,?_,sound.asleep,
    ?_⟩,idle,⟨⟨off,update_self _ _ _⟩,?_⟩,⟨⟨shaped.ranged.start,shaped.ranged.fin⟩,?_⟩,empty,own,fresh,?_⟩
  · intro t' fr q frame spare
    obtain ⟨away,l,alive,bare⟩ := sound.spare t' fr q frame spare
    exact ⟨away,l,(others q (fresh t' fr q frame spare).1).trans alive,bare⟩
  · intro q l alive away
    by_cases mine : q = k
    · exact .inr (by simp [mine])
    · exact sound.owned q l ((others q mine).symm.trans alive) away
  · intro q spare
    obtain ⟨away,notK,l,alive⟩ := locals.spare q spare
    exact ⟨away,notK,l,(others q notK).trans alive⟩
  · cases shaped.style with
    | posix p posix flock owner => exact .posix p posix flock owner
    | flock x posix flock owner whole => exact .flock x posix flock owner whole
  intro q l spare alive
  have notK := (locals.spare q spare).2.1
  exact plain q l spare ((others q notK).symm.trans alive)
end

theorem Room.retype (room : Room u sp) (type : LockType) : Room {u with lfType := type} sp := ⟨room.start,room.flock⟩

theorem Running.giveUp (running : Running c s v t k u sp) (room : Room u sp) (head : u.lfHead = f) :
    ∃ s' v', giveUpShared k s = .ok s' ∧ Running c s' v' t k u sp ∧
      (v' = v ∧ s' = s ∨ u.lfFlags.flock = true ∧ ∃ es' ws sp', v' = v.edit f es' ws ∧
        Clears {u with lfType := .unlck} wakesAll none (v.held f) es' ws [] sp') := by
  have live := running.locals.lock.2
  unfold giveUpShared
  rw [get_live live,ok_bind]
  split_ifs with gives
  · have none := room.flock gives.1
    subst none
    obtain ⟨sp',s₁,es',ws,ran,clears,left,running₁⟩ := (running.retype .unlck).clear (room.retype .unlck) head
    have none := left rfl
    subst none
    have running₂ := running₁.retype .wrlck
    have same : {u with lfType := .wrlck} = u := by rw [← gives.2]
    refine ⟨s₁.set k u,v.edit f es' ws,?_,?_,.inr ⟨gives.1,es',ws,none,rfl,clears⟩⟩
    · rw [ran,ok_bind]
      dsimp only
      rw [get_live running₁.locals.lock.2,ok_bind]
      rw [same]
    rw [same] at running₂
    exact running₂
  · exact ⟨s,v,rfl,running,.inl ⟨rfl,rfl⟩⟩

def Setlock.spare : Setlock → Option Ptr
  | .returned _ sp => sp
  | .asleep => none

inductive Settled (c : Procs) (s : State) (v : View) (t : Nat) (k : Ptr) (u : Lock) (sp : Option Ptr) : Setlock → State → View → Prop
  | granted (sp' : Option Ptr) (s' : State) (es' : List Entry) (ws : List Ptr) (found : blocker u (v.held u.lfHead) = none)
      (grants : Grants k u sp (v.held u.lfHead) es' ws sp') :
      Settled c s v t k u sp (.returned none sp') s' (v.edit u.lfHead es' ws)
  | refused (e : Entry) (found : blocker u (v.held u.lfHead) = some e) (wait : u.lfFlags.wait = false) :
      Settled c s v t k u sp (.returned (some .eagain) sp) (s.freed k u) v
  | deadlock (e : Entry) (found : blocker u (v.held u.lfHead) = some e) (wait : u.lfFlags.wait = true)
      (detected : detects c s (c.proc t) u e.2 = true) :
      Settled c s v t k u sp (.returned (some .edeadlk) sp) (s.freed k u) v
  | asleep (s₁ : State) (v₁ : View) (left right : List Entry) (e : Entry) (found : blocker u (v.held u.lfHead) = some e)
      (wait : u.lfFlags.wait = true) (clear : detects c s (c.proc t) u e.2 = false)
      (gave : v₁ = v ∧ s₁ = s ∨ u.lfFlags.flock = true ∧ ∃ es' ws sp', v₁ = v.edit u.lfHead es' ws ∧
        Clears {u with lfType := .unlck} wakesAll none (v.held u.lfHead) es' ws [] sp')
      (file : v₁.held u.lfHead = left ++ e :: right) :
      Settled c s v t k u sp .asleep (s₁.sleep t k e.1 e.2 sp)
        (v₁.sleep u.lfHead (left ++ (e.1,{e.2 with lfBlkhd := e.2.lfBlkhd ++ [k]}) :: right) t k u sp)

theorem lfSetlock_spec (running : Running c s v t k u sp) (known : u.lfType ≠ .unlck) (room : Room u sp) :
    ∃ r s' v', lfSetlock c t k sp s = .ok (r,s') ∧ Settled c s v t k u sp r s' v' ∧ Sound c s' v' r.spare.toList ∧
      ∀ q, r.spare = some q → Spare s' v' q := by
  have live := running.locals.lock.2
  have length := running.sound.rep.length (f := u.lfHead)
  unfold lfSetlock
  rw [get_live live,ok_bind]
  rw [lfGetblock_spec running.sound.rep rfl (running.ranged _) running.shaped.ranged,ok_bind]
  cases found : blocker u (v.held u.lfHead) with
  | none =>
    obtain ⟨sp',s',es',ws,ran,grants,sound,spare⟩ :=
      running.grant known room rfl (blocker_none.mp found) (s.nextLockf + 1) (by simp [ptrs] at length; omega)
    refine ⟨.returned none sp',s',_,?_,.granted sp' s' es' ws found grants,sound,spare⟩
    dsimp only [Option.map_none]
    rw [ran,ok_bind]
  | some e =>
    obtain ⟨member,blocks⟩ := blocker_some found
    dsimp only [Option.map_some]
    by_cases wait : u.lfFlags.wait = false
    · obtain ⟨sound,spare⟩ := running.refuse
      refine ⟨.returned (some .eagain) sp,_,v,?_,.refused e found wait,sound,spare⟩
      rw [if_pos wait,lfFree_eq live,ok_bind]
    rw [if_neg wait,get_live (running.sound.rep.live _ e member),ok_bind,
      deadlocks_eq running.sound _ _ _ (running.sound.proper _ e member).1,ok_bind]
    have waits : u.lfFlags.wait = true := by simpa using wait
    cases check : detects c s (c.proc t) u e.2 with
    | true =>
      obtain ⟨sound,spare⟩ := running.refuse
      refine ⟨.returned (some .edeadlk) sp,_,v,?_,.deadlock e found waits check,sound,spare⟩
      rw [lfFree_eq live,ok_bind]
    | false =>
      obtain ⟨s₁,v₁,gave,running₁,how⟩ := running.giveUp room rfl
      have still : e ∈ v₁.held u.lfHead := by
        rcases how with ⟨rfl,_⟩ | ⟨_,es',ws,_,rfl,clears⟩
        · exact member
        rw [edit_held]
        exact (clears_entry clears member).resolve_right fun mine => blocks.1 mine.1
      obtain ⟨left,right,file⟩ := List.append_of_mem still
      refine ⟨.asleep,_,_,?_,.asleep s₁ v₁ left right e found waits check how file,
        running₁.sleep known room rfl file blocks,fun q spare => by cases spare⟩
      rw [gave,ok_bind,sleepOn_eq (running₁.sound.rep.live _ e still),ok_bind]
end NetbsdAvr32.Lockf
