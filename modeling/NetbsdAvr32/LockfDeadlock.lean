import NetbsdAvr32.Hops
import NetbsdAvr32.LockfMap

-- Who waits for whom, and the deadlock check.
namespace NetbsdAvr32.Lockf
open Function Linked Outcome Option List
variable {c : Procs} {s s' s₁ s₂ : State} {v v' v₁ : View} {mine mine' : List Ptr} {f g t t' uid p q cur : Nat} {k r b : Ptr} {l u : Lock}
  {e : Entry} {es es' left right : List Entry} {sp sp' : Option Ptr} {ws : List Ptr} {o : Owner} {op : Op} {reply : Option Reply}

def Waits (v : View) (t : Nat) (o : Owner) : Prop := ∃ r f e, v.wchan t = some r ∧ e ∈ v.held f ∧ r ∈ e.2.lfBlkhd ∧ e.2.lfId = o

theorem waitsFor_iff (sound : Sound c s v mine) (one : c.pLwps p = [t]) : waitsFor c s p = some q ↔ Waits v t (.proc q) := by
  unfold waitsFor
  rw [one]
  dsimp only
  constructor
  · intro found
    cases asleep : s.wchan t with
    | none =>
      rw [asleep] at found
      cases found
    | some r =>
      obtain ⟨l,f,e,_,_,member,waits,next,alive,proper⟩ := sound.queued asleep
      rw [asleep] at found
      dsimp only at found
      rw [next,Option.bind_some,alive] at found
      dsimp only at found
      refine ⟨r,f,e,sound.rep.wchan ▸ asleep,member,waits,?_⟩
      cases proper.shaped.style with
      | flock x posix _ _ _ =>
        rw [posix] at found
        cases found
      | posix p posix _ owner =>
        rw [posix,owner] at found
        cases found
        exact owner
  rintro ⟨r,f,e,asleep,member,waits,owner⟩
  have next := ((sound.rep.queued f e member).2 r waits).2
  rw [← sound.rep.wchan] at asleep
  rw [asleep]
  dsimp only
  rw [next,Option.bind_some,sound.rep.live f e member]
  dsimp only
  cases (sound.proper f e member).1.shaped.style with
  | flock x _ _ other _ =>
    rw [other] at owner
    cases owner
  | posix p posix _ _ => rw [posix,owner]

section Single
variable (single : ∀ p, ∃ t, c.pLwps p = [t])
include single

theorem own_lwp (t : Nat) : c.pLwps (c.proc t) = [t] := by
  obtain ⟨t',one⟩ := single (c.proc t)
  have member := c.member t
  rw [one] at member ⊢
  rw [mem_singleton.mp member]

theorem waitsFor_sub (sound : Sound c s v mine) (sound' : Sound c s' v' mine') (sub : ∀ t o, Waits v' t o → Waits v t o) (p q : Nat)
    (waits : waitsFor c s' p = some q) : waitsFor c s p = some q := by
  obtain ⟨t,one⟩ := single p
  rw [waitsFor_iff sound one]
  exact sub t _ ((waitsFor_iff sound' one).mp waits)

theorem waitsFor_same (sound : Sound c s v mine) (sound' : Sound c s' v' mine') (same : ∀ t o, Waits v' t o ↔ Waits v t o) :
    waitsFor c s' = waitsFor c s := by
  funext p
  refine ext fun q => ?_
  exact ⟨waitsFor_sub single sound sound' (fun t o => (same t o).mp) p q,waitsFor_sub single sound' sound (fun t o => (same t o).mpr) p q⟩

theorem waitsFor_awake (sound : Sound c s v mine) (awake : v.wchan t = none) : waitsFor c s (c.proc t) = none := by
  cases waits : waitsFor c s (c.proc t) with
  | none => rfl
  | some q =>
    obtain ⟨r,_,_,asleep,_⟩ := (waitsFor_iff sound (own_lwp single t)).mp waits
    rw [awake] at asleep
    cases asleep
end Single

theorem changes_waits {granted : Prop} (changes : Changes u granted (v.held f) es' ws) (waits : Waits (v.edit f es' ws) t o) : Waits v t o := by
  obtain ⟨r,g,e,asleep,member,queued,owner⟩ := waits
  have before : v.wchan t = some r := by
    change rouse ws v.wchan t = some r at asleep
    unfold rouse at asleep
    cases wchan : v.wchan t with
    | none => rw [wchan] at asleep; cases asleep
    | some q =>
      rw [wchan] at asleep
      by_cases woken : q ∈ ws
      · simp [woken] at asleep
      · simpa [woken] using asleep
  by_cases here : g = f
  · subst g
    rw [edit_held] at member
    rcases changes.entry e member with old | ⟨_,_,part⟩ | ⟨_,given⟩
    · exact ⟨r,f,e,before,old,queued,owner⟩
    · rw [part.empty] at queued
      cases queued
    obtain ⟨e₀,old,own,_,_,was⟩ := given.waiters r queued
    exact ⟨r,f,e₀,before,old,was,own.trans (given.own.symm.trans owner)⟩
  rw [edit_other v es' ws here] at member
  exact ⟨r,g,e,before,member,queued,owner⟩

theorem left_waits {fr : Frame} (left : Left v t fr v₁) (waits : Waits v₁ t' o) : Waits v t' o := by
  obtain ⟨r,g,e,asleep,member,queued,owner⟩ := waits
  cases left with
  | alone => exact ⟨r,g,e,asleep,member,queued,owner⟩
  | queued f left right p b file =>
    have wchan : v.wchan t' = some r := by
      change rouse [] v.wchan t' = some r at asleep
      rwa [rouse_nil] at asleep
    by_cases here : g = f
    · subst g
      change e ∈ update v.held f _ f at member
      rw [update_self] at member
      rcases mem_append.mp member with before | later
      · exact ⟨r,f,e,wchan,by rw [file]; simp [before],queued,owner⟩
      rcases mem_cons.mp later with rfl | later
      · exact ⟨r,f,(p,b),wchan,by rw [file]; simp,mem_of_mem_erase queued,owner⟩
      · exact ⟨r,f,e,wchan,by rw [file]; simp [later],queued,owner⟩
    change e ∈ update v.held f _ g at member
    rw [update_of_ne here] at member
    exact ⟨r,g,e,wchan,member,queued,owner⟩

theorem left_waits_iff {fr : Frame} (sound : Sound c s v mine) (frame : v.frames t = some fr) (awake : v.wchan t = none) (left : Left v t fr v₁) :
    Waits v₁ t' o ↔ Waits v t' o := by
  refine ⟨left_waits left,?_⟩
  rintro ⟨r,g,e,asleep,member,queued,owner⟩
  have other : r ≠ fr.lock := by
    rintro rfl
    obtain ⟨⟨fr',here,lock⟩,_⟩ := sound.asleep t' _ asleep
    by_cases same : t' = t
    · subst t'
      rw [awake] at asleep
      cases asleep
    · exact (sound.apart t' t fr' fr here frame same).1 lock
  cases left with
  | alone => exact ⟨r,g,e,asleep,member,queued,owner⟩
  | queued f left right p b file =>
    have wchan : rouse [] v.wchan t' = some r := by rw [rouse_nil]; exact asleep
    by_cases here : g = f
    · subst g
      rw [file] at member
      have entry : ∀ e : Entry, e ∈ left ++ (p,{b with lfBlkhd := b.lfBlkhd.erase fr.lock}) :: right →
          e ∈ update v.held f (left ++ (p,{b with lfBlkhd := b.lfBlkhd.erase fr.lock}) :: right) f := by
        intro e member
        rw [update_self]
        exact member
      rcases mem_kept {b with lfBlkhd := b.lfBlkhd.erase fr.lock} member with rfl | ⟨kept,_⟩
      · exact ⟨r,f,_,wchan,entry _ (mem_middle _),(mem_erase_of_ne other).mpr queued,owner⟩
      · exact ⟨r,f,e,wchan,entry e kept,queued,owner⟩
    refine ⟨r,g,e,wchan,?_,queued,owner⟩
    change e ∈ update v.held f _ g
    rw [update_of_ne here]
    exact member

theorem sleep_waits (sound : Sound c s v mine) (off : v.Off k) (file : v.held f = left ++ (b,l) :: right)
    (waits : Waits (v.sleep f (left ++ (b,{l with lfBlkhd := l.lfBlkhd ++ [k]}) :: right) t k u sp) t' o) :
    Waits v t' o ∨ t' = t ∧ o = l.lfId := by
  obtain ⟨r,g,e,asleep,member,queued,owner⟩ := waits
  have unqueued : ∀ g e, e ∈ v.held g → k ∉ e.2.lfBlkhd := by
    intro g e member waits
    obtain ⟨⟨l,loose⟩,_⟩ := (sound.rep.queued g e member).2 k waits
    rw [off.1] at loose
    cases loose
  by_cases same : t' = t
  · subst t'
    change update v.wchan t (some k) t = some r at asleep
    rw [update_self] at asleep
    cases asleep
    rcases mem_requeue sound.rep file member with ⟨_,rfl⟩ | ⟨old,_⟩
    · exact .inr ⟨rfl,owner.symm⟩
    · exact absurd queued (unqueued g e old)
  have before : v.wchan t' = some r := (update_of_ne same _ _).symm.trans asleep
  have notK : r ≠ k := by
    rintro rfl
    obtain ⟨_,g',e',old,queue⟩ := sound.asleep t' r before
    exact unqueued g' e' old queue
  refine .inl ?_
  rcases mem_requeue sound.rep file member with ⟨rfl,rfl⟩ | ⟨old,_⟩
  · rcases mem_append.mp queued with queue | new
    · exact ⟨r,g,(b,l),before,by rw [file]; simp,queue,owner⟩
    · exact absurd (mem_singleton.mp new) notK
  · exact ⟨r,g,e,before,old,queued,owner⟩

theorem settled_waits {r : Setlock} (running : Running c s v t k u sp) (settled : Settled c s v t k u sp r s' v') (posix : u.lfFlags.posix = true)
    (waits : Waits v' t' o) : Waits v t' o ∨ t' = t ∧ ∃ e, blocker u (v.held u.lfHead) = some e ∧ detects c s (c.proc t) u e.2 = false ∧ o = e.2.lfId := by
  have ranged := running.ranged u.lfHead
  have range := running.shaped.ranged
  have sorted := running.sound.sorted u.lfHead
  cases settled with
  | granted sp' s' es' ws found grants => exact .inl (changes_waits (grants_changes grants ranged range sorted running.empty) waits)
  | refused => exact .inl waits
  | deadlock => exact .inl waits
  | asleep s₁ v₁ left right e found wait clear gave file =>
    have same : v₁ = v := by
      rcases gave with ⟨same,_⟩ | ⟨flock,_⟩
      · exact same
      cases running.shaped.style with
      | posix p _ other =>
        rw [other] at flock
        cases flock
      | flock x other =>
        rw [other] at posix
        cases posix
    subst same
    rcases sleep_waits running.sound running.locals.lock.1 file waits with old | ⟨here,owner⟩
    · exact .inl old
    · exact .inr ⟨here,e,found,clear,owner⟩

inductive Chased (w : Nat → Option Nat) (cur k i p : Nat) : Bool × Nat → Prop
  | met (j n : Nat) (path : hops w (n + 1) p = some cur) : Chased w cur k i p (true,j)
  | ended (d z : Nat) (short : d < k) (path : hops w d p = some z) (stop : w z = none) (missed : ∀ n, hops w (n + 1) p ≠ some cur) :
      Chased w cur k i p (false,i + d + 1)
  | long (z : Nat) (path : hops w k p = some z) : Chased w cur k i p (false,i + k + 1)

theorem chase_spec (c : Procs) (s : State) (cur k i p : Nat) : Chased (waitsFor c s) cur k i p (chase c s cur k i p) := by
  induction k generalizing i p with
  | zero => exact .long p rfl
  | succ k ih =>
    unfold chase
    cases edge : waitsFor c s p with
    | none =>
      refine .ended 0 p (Nat.succ_pos k) rfl edge ?_
      intro n path
      obtain ⟨q,step,_⟩ := hops_succ.mp path
      rw [edge] at step
      cases step
    | some q =>
      dsimp only
      split_ifs with back
      · exact .met _ 0 (hops_succ.mpr ⟨q,edge,congrArg some back⟩)
      have further : ∀ {n z}, hops (waitsFor c s) n q = some z → hops (waitsFor c s) (n + 1) p = some z :=
        fun path => hops_succ.mpr ⟨q,edge,path⟩
      generalize rest : chase c s cur k (i + 1) q = found
      have spec := ih (i + 1) q
      rw [rest] at spec
      cases spec with
      | met j n path => exact .met j (n + 1) (further path)
      | ended d z short path stop missed =>
        rw [show i + 1 + d + 1 = i + (d + 1) + 1 by omega]
        refine .ended (d + 1) z (by omega) (further path) stop ?_
        intro n path
        obtain ⟨q',step,rest⟩ := hops_succ.mp path
        rw [edge] at step
        cases step
        cases n with
        | zero => exact back (some.inj rest)
        | succ n => exact missed n rest
      | long z path =>
        rw [show i + 1 + k + 1 = i + (k + 1) + 1 by omega]
        exact .long z (further path)

theorem detects_posix (block : Proper l) (owner : l.lfId = .proc q) (posix : u.lfFlags.posix = true) :
    detects c s cur u l = ((chase c s cur maxlockdepth 0 q).1 || decide ((chase c s cur maxlockdepth 0 q).2 ≥ maxlockdepth)) := by
  unfold detects
  rw [owner]
  dsimp only
  cases block.shaped.style with
  | posix _ yes _ _ => rw [posix,yes,Bool.true_and,Bool.true_and]
  | flock _ _ _ other _ =>
    rw [other] at owner
    cases owner

theorem undetected (none : ((chase c s cur maxlockdepth 0 q).1 || decide ((chase c s cur maxlockdepth 0 q).2 ≥ maxlockdepth)) = false) :
    ∃ d z, d + 1 < maxlockdepth ∧ hops (waitsFor c s) d q = some z ∧ waitsFor c s z = .none ∧
      ∀ n, hops (waitsFor c s) (n + 1) q ≠ some cur := by
  generalize found : chase c s cur maxlockdepth 0 q = result at none
  have spec := chase_spec c s cur maxlockdepth 0 q
  rw [found] at spec
  cases spec with
  | met => cases none
  | ended d z short path stop missed =>
    have low : ¬ 0 + d + 1 ≥ maxlockdepth := by simpa using none
    exact ⟨d,z,by omega,path,stop,missed⟩
  | long z path =>
    have low : ¬ 0 + maxlockdepth + 1 ≥ maxlockdepth := by simpa using none
    omega

section Single
variable (single : ∀ p, ∃ t, c.pLwps p = [t])
include single

theorem settled_acyclic {r : Setlock} (running : Running c s v t k u sp) (settled : Settled c s v t k u sp r s₂ v') (posix : u.lfFlags.posix = true)
    (sound' : Sound c s' v' mine') (acyclic : Acyclic (waitsFor c s)) : Acyclic (waitsFor c s') := by
  have sound := running.sound
  have awake : v.wchan t = none := by
    cases asleep : v.wchan t with
    | none => rfl
    | some r =>
      obtain ⟨⟨fr,frame,_⟩,_⟩ := sound.asleep t r asleep
      rw [running.idle] at frame
      cases frame
  have edge : ∀ p q, waitsFor c s' p = some q → waitsFor c s p = some q ∨
      p = c.proc t ∧ ∃ e, blocker u (v.held u.lfHead) = some e ∧ detects c s (c.proc t) u e.2 = false ∧ e.2.lfId = .proc q := by
    intro p q waits
    obtain ⟨t',one⟩ := single p
    rcases settled_waits running settled posix ((waitsFor_iff sound' one).mp waits) with old | ⟨rfl,e,found,clear,owner⟩
    · exact .inl ((waitsFor_iff sound one).mpr old)
    · exact .inr ⟨(c.only p t' (by rw [one]; simp)).symm,e,found,clear,owner.symm⟩
  by_cases added : ∃ e q, blocker u (v.held u.lfHead) = some e ∧ detects c s (c.proc t) u e.2 = false ∧ e.2.lfId = .proc q
  · obtain ⟨e,q,found,clear,owner⟩ := added
    obtain ⟨member,blocks⟩ := blocker_some found
    rw [detects_posix (sound.proper _ e member).1 owner posix] at clear
    obtain ⟨_,_,_,_,_,missed⟩ := undetected clear
    refine acyclic_insert acyclic (waitsFor_awake single sound awake) (b := q) ?_ ?_
    · intro p q' waits
      rcases edge p q' waits with old | ⟨here,e',found',_,owner'⟩
      · exact .inl old
      rw [found] at found'
      cases found'
      rw [owner] at owner'
      cases owner'
      exact .inr ⟨here,rfl⟩
    intro n path
    cases n with
    | zero =>
      have back : q = c.proc t := some.inj path
      exact blocks.1 (owner.trans (back ▸ (running.own posix).symm))
    | succ n => exact missed n path
  refine acyclic_mono acyclic ?_
  intro p q waits
  rcases edge p q waits with old | ⟨_,e,found,clear,owner⟩
  · exact old
  · exact absurd ⟨e,q,found,clear,owner⟩ added
end Single

-- What justifies EDEADLK: the chain of sleeping owners from the blocker comes
-- back to the caller, or has maxlockdepth of them.
def Justified (w : Nat → Option Nat) (blocked : Nat → Prop) (caller : Nat) : Prop :=
  ∃ q, blocked q ∧ ((∃ n, hops w n q = some caller) ∨ hops w maxlockdepth q ≠ none)

-- One sleeping owner less, and the last of them waits for a process that is awake.
def EndsAtLimit (w : Nat → Option Nat) (blocked : Nat → Prop) (caller : Nat) : Prop :=
  ∃ q z, blocked q ∧ hops w (maxlockdepth - 1) q = some z ∧ w z = none ∧ z ≠ caller

theorem EndsAtLimit.unjustified {w : Nat → Option Nat} {blocked : Nat → Prop} {caller : Nat} (ends : EndsAtLimit w blocked caller)
    (one : ∀ q q', blocked q → blocked q' → q = q') (awake : w caller = none) : ¬ Justified w blocked caller := by
  obtain ⟨q,z,blocks,path,stop,other⟩ := ends
  have excess : hops w maxlockdepth q = none := by
    rw [show maxlockdepth = maxlockdepth - 1 + 1 from rfl,hops_last,path]
    exact stop
  rintro ⟨q',blocks',why⟩
  obtain rfl := one q q' blocks blocks'
  rcases why with ⟨n,back⟩ | long
  · -- The caller is awake, so a chain that comes to it ends there.
    have last : hops w (n + 1) q = none := by
      rw [hops_last,back]
      exact awake
    rcases Nat.lt_trichotomy n (maxlockdepth - 1) with less | same | more
    · rw [hops_stuck last less] at path
      cases path
    · rw [same,path] at back
      exact other (some.inj back)
    rw [hops_stuck excess (show maxlockdepth ≤ n by omega)] at back
    cases back
  · exact long excess

theorem settled_deadlock {r : Setlock} (running : Running c s v t k u sp) (settled : Settled c s v t k u sp r s' v') (posix : u.lfFlags.posix = true)
    (awake : waitsFor c s (c.proc t) = none) (blocked : Nat → Prop)
    (blocks : ∀ q, blocked q ↔ u.lfFlags.wait = true ∧ ∃ e, blocker u (v.held u.lfHead) = some e ∧ e.2.lfId = .proc q) :
    (r.reply = .returned (some .edeadlk) → Justified (waitsFor c s) blocked (c.proc t)) ↔ ¬ EndsAtLimit (waitsFor c s) blocked (c.proc t) := by
  have one : ∀ q q', blocked q → blocked q' → q = q' := by
    intro q q' first second
    obtain ⟨_,e,found,owner⟩ := (blocks q).mp first
    obtain ⟨_,e',found',owner'⟩ := (blocks q').mp second
    rw [found] at found'
    cases found'
    rw [owner] at owner'
    cases owner'
    rfl
  have proper : ∀ e, blocker u (v.held u.lfHead) = some e → Proper e.2 :=
    fun e found => (running.sound.proper _ e (blocker_some found).1).1
  cases settled with
  | granted sp' s' es' ws found grants =>
    refine ⟨fun _ ends => ?_,fun _ bad => by cases bad⟩
    obtain ⟨q,_,blocks',_⟩ := ends
    obtain ⟨_,e,found',_⟩ := (blocks q).mp blocks'
    rw [found] at found'
    cases found'
  | refused e found wait =>
    refine ⟨fun _ ends => ?_,fun _ bad => by cases bad⟩
    obtain ⟨q,_,blocks',_⟩ := ends
    obtain ⟨waits,_⟩ := (blocks q).mp blocks'
    rw [wait] at waits
    cases waits
  | asleep s₁ v₁ left right e found wait clear gave file =>
    refine ⟨fun _ ends => ?_,fun _ bad => by cases bad⟩
    obtain ⟨q,z,blocks',path,stop,_⟩ := ends
    obtain ⟨_,e',found',owner⟩ := (blocks q).mp blocks'
    rw [found] at found'
    cases found'
    rw [detects_posix (proper e found) owner posix] at clear
    obtain ⟨d,z',short,path',stop',_⟩ := undetected clear
    have excess : hops (waitsFor c s) (d + 1) q = none := by
      rw [hops_last,path']
      exact stop'
    rw [hops_stuck excess (show d + 1 ≤ maxlockdepth - 1 by omega)] at path
    cases path
  | deadlock e found wait detected =>
    refine ⟨fun justified ends => ends.unjustified one awake (justified rfl),fun short _ => ?_⟩
    cases owner : e.2.lfId with
    | file x =>
      unfold detects at detected
      rw [owner] at detected
      cases detected
    | proc q =>
      have blocks' : blocked q := (blocks q).mpr ⟨wait,e,found,owner⟩
      rw [detects_posix (proper e found) owner posix] at detected
      generalize chased : chase c s (c.proc t) maxlockdepth 0 q = result at detected
      have spec := chase_spec c s (c.proc t) maxlockdepth 0 q
      rw [chased] at spec
      cases spec with
      | met j n path => exact ⟨q,blocks',.inl ⟨n + 1,path⟩⟩
      | long z path => exact ⟨q,blocks',.inr (by rw [path]; simp)⟩
      | ended d z below path stop missed =>
        have high : 0 + d + 1 ≥ maxlockdepth := by simpa using detected
        have last : d = maxlockdepth - 1 := by omega
        subst last
        refine ⟨q,blocks',.inl ⟨maxlockdepth - 1,?_⟩⟩
        by_contra other
        exact short ⟨q,z,blocks',path,stop,fun same => other (same ▸ path)⟩

def bare (e : Entry) : Entry := (e.1,{e.2 with lfBlkhd := []})

theorem blocker_bare (u : Lock) (es : List Entry) : blocker u (es.map bare) = (blocker u es).map bare := by
  unfold blocker
  rw [find?_map]
  rfl

theorem left_held {fr : Frame} (left : Left v t fr v₁) (f : Nat) : (v₁.held f).map bare = (v.held f).map bare := by
  cases left with
  | alone => rfl
  | queued g left right p b file =>
    change (update v.held g _ f).map bare = _
    by_cases here : f = g
    · rw [here,update_self,file]
      simp [bare]
    · rw [update_of_ne here]

theorem left_blocker {fr : Frame} (left : Left v t fr v₁) (u : Lock) (f : Nat) (o : Owner) :
    (∃ e, blocker u (v₁.held f) = some e ∧ e.2.lfId = o) ↔ ∃ e, blocker u (v.held f) = some e ∧ e.2.lfId = o := by
  have owner : ∀ es, (∃ e, blocker u es = some e ∧ e.2.lfId = o) ↔ ∃ e, blocker u (es.map bare) = some e ∧ e.2.lfId = o := by
    intro es
    rw [blocker_bare]
    constructor
    · rintro ⟨e,found,own⟩
      exact ⟨bare e,by rw [found]; rfl,own⟩
    rintro ⟨e,found,own⟩
    obtain ⟨e',found',rfl⟩ := map_eq_some_iff.mp found
    exact ⟨e',found',own⟩
  rw [owner,owner (v.held f),left_held left]

def Op.Posix : Op → Prop
  | .advlock _ _ ap => ap.aFlags.posix = true
  | _ => True

inductive PosixRun (c : Procs) : State → Prop
  | initial : PosixRun c initial
  | step (s s' : State) (op : Op) (reply : Option Reply) (prior : PosixRun c s) (allowed : Allowed c s op) (posix : op.Posix)
      (ran : step c s op = .ok (reply,s')) : PosixRun c s'

def View.AllPosix (v : View) : Prop := ∀ r l, v.loose r = some l → l.lfFlags.posix = true

theorem left_posix {fr : Frame} (left : Left v t fr v₁) (all : v.AllPosix) : v₁.AllPosix := by
  intro r l loose
  have before : update v.loose fr.lock none r = some l := by
    cases left with
    | alone => exact loose
    | queued => exact loose
  by_cases mine : r = fr.lock
  · rw [mine,update_self] at before
    cases before
  · exact all r l ((update_of_ne mine _ _).symm.trans before)

theorem settled_posix {r : Setlock} (settled : Settled c s v t k u sp r s' v') (posix : u.lfFlags.posix = true) (all : v.AllPosix) :
    v'.AllPosix := by
  cases settled with
  | granted => exact all
  | refused => exact all
  | deadlock => exact all
  | asleep s₁ v₁ left right e found wait clear gave file =>
    have before : v₁.loose = v.loose := by
      rcases gave with ⟨rfl,_⟩ | ⟨_,es',ws,_,rfl,_⟩
      · rfl
      · rfl
    intro r l loose
    change update v₁.loose k (some u) r = some l at loose
    rw [before] at loose
    by_cases mine : r = k
    · rw [mine,update_self] at loose
      cases loose
      exact posix
    · exact all r l ((update_of_ne mine _ _).symm.trans loose)

section Single
variable (single : ∀ p, ∃ t, c.pLwps p = [t])
include single

theorem step_acyclic (sound : Sound c s v []) (sound' : Sound c s' v' []) (all : v.AllPosix) (posix : op.Posix)
    (stepped : Stepped c s v op reply v') (acyclic : Acyclic (waitsFor c s)) : v'.AllPosix ∧ Acyclic (waitsFor c s') := by
  have fewer : (∀ t o, Waits v' t o → Waits v t o) → Acyclic (waitsFor c s') :=
    fun sub => acyclic_mono acyclic (waitsFor_sub single sound sound' sub)
  cases stepped with
  | signal t =>
    refine ⟨all,fewer ?_⟩
    rintro t' o ⟨r,f,e,asleep,rest⟩
    by_cases mine : t' = t
    · rw [mine] at asleep
      change update v.wchan t none t = some r at asleep
      rw [update_self] at asleep
      cases asleep
    · exact ⟨r,f,e,(update_of_ne mine _ _).symm.trans asleep,rest⟩
  | interrupted t e fr v' left => exact ⟨left_posix left all,fewer (fun t o => left_waits left)⟩
  | again t s₁ s₂ v₁ v' fr u r frame loose awake left running settled =>
    have before := waitsFor_same single sound running.sound (fun t' o => left_waits_iff sound frame awake left)
    exact ⟨settled_posix settled (all _ u loose) (left_posix left all),
      settled_acyclic single running settled (all _ u loose) sound' (before ▸ acyclic)⟩
  | advlock t uid ap reply v' advised =>
    cases advised with
    | invalid | full | tested => exact ⟨all,fewer (fun _ _ waits => waits)⟩
    | unlocked start fin range op room es' ws sp sp' clears =>
      refine ⟨all,fewer (fun t' o => changes_waits (clears_changes clears ?_ ?_ (sound.sorted _)))⟩
      · exact fun e member => (sound.proper _ e member).1.shaped.ranged
      · exact ⟨(flockRange_ranged range).1,(flockRange_ranged range).2⟩
    | set start fin range op room s₁ s₂ v' k sp r running settled =>
      have before := waitsFor_same single sound running.sound (fun t' o => Iff.rfl)
      exact ⟨settled_posix settled posix all,settled_acyclic single running settled posix sound' (before ▸ acyclic)⟩

theorem posixRun_acyclic (run : PosixRun c s) : ∃ v, Sound c s v [] ∧ v.AllPosix ∧ Acyclic (waitsFor c s) := by
  induction run with
  | initial =>
    refine ⟨_,initial_sound c,fun r l loose => (by cases loose),acyclic_nil ?_⟩
    intro p
    obtain ⟨t,one⟩ := single p
    unfold waitsFor
    rw [one]
    rfl
  | step s s' op reply prior allowed posix ran ih =>
    obtain ⟨v,sound,all,acyclic⟩ := ih
    obtain ⟨reply',s'',v',done,sound',stepped⟩ := step_spec sound allowed (step_defined ran)
    rw [ran] at done
    cases done
    exact ⟨v',sound',step_acyclic single sound sound' all posix stepped acyclic⟩
end Single

-- The request that a step hands to lf_setlock, and the owner of the lock it
-- finds in its way.
def requestOf (s : State) : Op → Option Lock
  | .advlock _ uid ap => match flockRange ap.aFl ap.size with
    | .ok (some (start,fin)) => if ap.aOp = .setlk ∧ ¬ OverLimit ap uid start fin s then some (ap.lock start fin uid) else none
    | _ => none
  | .resume t none => (s.frames t).bind fun fr => s.lockf fr.lock
  | _ => none

theorem request_none (uid : Nat) {ap : Args} (none : ap.aOp ≠ .setlk ∨ flockRange ap.aFl ap.size = .ok none) :
    requestOf s (.advlock t uid ap) = .none := by
  unfold requestOf
  dsimp only
  rcases none with other | range
  · split
    · exact if_neg (fun both => other both.1)
    · rfl
  · rw [range]

def Op.lwp : Op → Nat
  | .advlock t _ _ => t
  | .signal t => t
  | .resume t _ => t

def BlockedBy (s : State) (op : Op) (q : Nat) : Prop :=
  ∃ u b l, requestOf s op = some u ∧ u.lfFlags.wait = true ∧ lfGetblock u s = .ok (some b) ∧ s.lockf b = some l ∧ l.lfId = .proc q

theorem blockedBy_iff (sound : Sound c s v []) (request : requestOf s op = some u) (range : Ranged u) :
    BlockedBy s op q ↔ u.lfFlags.wait = true ∧ ∃ e, blocker u (v.held u.lfHead) = some e ∧ e.2.lfId = .proc q := by
  have ranged : ∀ e ∈ v.held u.lfHead, Ranged e.2 := fun e member => (sound.proper _ e member).1.shaped.ranged
  have get := lfGetblock_spec sound.rep rfl ranged range
  constructor
  · rintro ⟨u',b,l,request',wait,got,live,owner⟩
    rw [request] at request'
    cases request'
    refine ⟨wait,?_⟩
    rw [get] at got
    obtain ⟨e,found,rfl⟩ := map_eq_some_iff.mp (Except.ok.inj got)
    rw [sound.rep.live _ e (blocker_some found).1] at live
    cases live
    exact ⟨e,found,owner⟩
  rintro ⟨wait,e,found,owner⟩
  exact ⟨u,e.1,e.2,request,wait,by rw [get,found]; rfl,sound.rep.live _ e (blocker_some found).1,owner⟩

theorem unasked (none : requestOf s op = none) : ¬ BlockedBy s op q := by
  rintro ⟨u,_,_,request,_⟩
  rw [none] at request
  cases request

-- No cycle among the sleeping processes, and EDEADLK is justified except where
-- the chain ends just at the limit.
theorem deadlock_detection (single : ∀ p, ∃ t, c.pLwps p = [t]) (run : PosixRun c s) : Acyclic (waitsFor c s) ∧
    ∀ op reply s', Allowed c s op → op.Posix → step c s op = .ok (reply,s') →
      ((reply = some (.returned (some .edeadlk)) → Justified (waitsFor c s) (BlockedBy s op) (c.proc op.lwp)) ↔
        ¬ EndsAtLimit (waitsFor c s) (BlockedBy s op) (c.proc op.lwp)) := by
  obtain ⟨v,sound,all,acyclic⟩ := posixRun_acyclic single run
  refine ⟨acyclic,?_⟩
  intro op reply s' allowed posix ran
  obtain ⟨reply',s'',v',done,sound',stepped⟩ := step_spec sound allowed (step_defined ran)
  rw [ran] at done
  cases done
  -- Where nothing is asked for, nothing blocks and the answer is another one.
  have quiet : requestOf s op = none → reply ≠ some (.returned (some .edeadlk)) →
      ((reply = some (.returned (some .edeadlk)) → Justified (waitsFor c s) (BlockedBy s op) (c.proc op.lwp)) ↔
        ¬ EndsAtLimit (waitsFor c s) (BlockedBy s op) (c.proc op.lwp)) := by
    intro none other
    refine ⟨fun _ ends => ?_,fun _ bad => absurd bad other⟩
    obtain ⟨q,_,blocks,_⟩ := ends
    exact unasked none blocks
  cases stepped with
  | signal t => exact quiet rfl (by simp)
  | interrupted t e fr v' left which => exact quiet rfl (by rcases which with rfl | rfl <;> simp)
  | again t s₁ s₂ v₁ v' fr u r frame loose awake left running settled =>
    have same := waitsFor_same single sound running.sound (fun t' o => left_waits_iff sound frame awake left)
    have request : requestOf s (.resume t none) = some u := by
      change (s.frames t).bind _ = _
      rw [sound.rep.frames,frame]
      exact (sound.rep.loose _ u loose).1
    have stuck := settled_deadlock running settled (all _ u loose) (same ▸ waitsFor_awake single sound awake) (BlockedBy s (.resume t none))
      (fun q => (blockedBy_iff sound request running.shaped.ranged).trans (and_congr Iff.rfl (left_blocker left u _ _).symm))
    rw [same] at stuck
    rw [some.injEq]
    exact stuck
  | advlock t uid ap reply v' advised =>
    cases advised with
    | invalid bad =>
      refine quiet (request_none uid (bad.symm.imp_left ?_)) (by simp)
      intro other
      simp [other]
    | full start fin range excess =>
      refine quiet ?_ (by simp)
      unfold requestOf
      dsimp only
      rw [range]
      exact if_neg (fun both => both.2 excess)
    | tested start fin range op | unlocked start fin range op => exact quiet (request_none uid (.inl (by simp [op]))) (by simp)
    | set start fin range op room s₁ s₂ v' k sp r running settled =>
      have same := waitsFor_same single sound running.sound (fun t' o => Iff.rfl)
      have request : requestOf s (.advlock t uid ap) = some (ap.lock start fin uid) := by
        unfold requestOf
        dsimp only
        rw [range]
        exact if_pos ⟨op,room⟩
      have awake : v.wchan t = none := by
        cases asleep : v.wchan t with
        | none => rfl
        | some r =>
          obtain ⟨⟨fr,frame,_⟩,_⟩ := sound.asleep t r asleep
          rw [running.idle] at frame
          cases frame
      have stuck := settled_deadlock running settled posix (same ▸ waitsFor_awake single sound awake) (BlockedBy s (.advlock t uid ap))
        (fun q => blockedBy_iff sound request running.shaped.ranged)
      rw [same] at stuck
      rw [some.injEq]
      exact stuck

-- Processes 0 to 49 each hold a file, and each of them but the last waits for
-- the file of the next.
def exclusive (p f : Nat) : Args := ⟨.setlk,⟨0,0,0,.wrlck,.seekSet⟩,⟨true,true,false⟩,.proc p,f,0⟩

def locking : List (Nat × Nat) → State → Except Halt State
  | [], s => .ok s
  | (p,f) :: rest, s =>
    if s.frames p ≠ none then .error (.fault "asleep")
    else do
      let (_,s) ← step singles s (.advlock p 0 (exclusive p f))
      locking rest s

def queueing : List (Nat × Nat) :=
  (List.range 50).map (fun p => (p,p)) ++ (List.range 49).map (fun p => (p,p + 1))

theorem exclusive_allowed (p f : Nat) (idle : s.frames p = none) : Allowed singles s (.advlock p 0 (exclusive p f)) :=
  .advlock p 0 _ idle (.posix rfl rfl rfl (fun _ bad => by cases bad))

theorem locking_run (todo : List (Nat × Nat)) (run : PosixRun singles s) (ran : locking todo s = .ok s') : PosixRun singles s' := by
  induction todo generalizing s with
  | nil =>
    cases ran
    exact run
  | cons next rest ih =>
    obtain ⟨p,f⟩ := next
    unfold locking at ran
    split at ran
    · cases ran
    next busy =>
    obtain ⟨⟨reply,s₁⟩,done,ran⟩ := bind_ok ran
    exact ih (.step s s₁ _ reply run (exclusive_allowed p f (not_not.mp busy)) rfl done) ran

theorem hops_line {w : Nat → Option Nat} {n : Nat} (next : ∀ p < n, w p = some (p + 1)) (last : w n = none) (m : Nat) :
    hops w m 0 = if m ≤ n then some m else none := by
  induction m with
  | zero => simp
  | succ m ih =>
    rw [hops_last,ih]
    by_cases low : m < n
    · rw [if_pos (by omega),if_pos (by omega),Option.bind_some,next m low]
    by_cases same : m = n
    · rw [if_pos (by omega),if_neg (by omega),same,Option.bind_some,last]
    · rw [if_neg (by omega),if_neg (by omega),bind_none]

def refusal : Op := .advlock 100 0 (exclusive 100 0)

structure Refused (s : State) : Prop where
  reply : (step singles s refusal).toOption.map Prod.fst = some (some (.returned (some .edeadlk)))
  block : (((lfGetblock ((exclusive 100 0).lock 0 (-1) 0) s).toOption.bind id).bind s.lockf).map Lock.lfId = some (.proc 0)
  next : ∀ p < 49, waitsFor singles s p = some (p + 1)
  last : waitsFor singles s 49 = none
  idle : s.frames 100 = none

instance (s : State) : Decidable (Refused s) :=
  decidable_of_iff (_ ∧ _ ∧ _ ∧ _ ∧ _) ⟨fun ⟨a,b,c,d,e⟩ => ⟨a,b,c,d,e⟩,fun ⟨a,b,c,d,e⟩ => ⟨a,b,c,d,e⟩⟩

def outcome (r : Except Halt State) : State :=
  match r with
  | .ok s => s
  | .error _ => initial

theorem queueing_refused : (locking queueing initial).isOk = true ∧ Refused (outcome (locking queueing initial)) := by decide +kernel

theorem queueing_run : PosixRun singles (outcome (locking queueing initial)) := by
  have done := queueing_refused.1
  cases ran : locking queueing initial with
  | error e =>
    rw [ran] at done
    cases done
  | ok s => exact locking_run queueing .initial ran

theorem deadlock_detection_queueing : Acyclic (waitsFor singles (outcome (locking queueing initial))) ∧
    ∀ op reply s', Allowed singles (outcome (locking queueing initial)) op → op.Posix →
      step singles (outcome (locking queueing initial)) op = .ok (reply,s') →
      ((reply = some (.returned (some .edeadlk)) → Justified (waitsFor singles (outcome (locking queueing initial)))
        (BlockedBy (outcome (locking queueing initial)) op) (singles.proc op.lwp)) ↔
        ¬ EndsAtLimit (waitsFor singles (outcome (locking queueing initial))) (BlockedBy (outcome (locking queueing initial)) op)
          (singles.proc op.lwp)) :=
  deadlock_detection (fun p => ⟨p,rfl⟩) queueing_run

-- EDEADLK with one sleeping owner too few and no way back to the caller.
theorem deadlock_at_limit : ∃ s s', PosixRun singles s ∧ Allowed singles s refusal ∧
    step singles s refusal = .ok (some (.returned (some .edeadlk)),s') ∧ ¬ Justified (waitsFor singles s) (BlockedBy s refusal) 100 := by
  have run := queueing_run
  obtain ⟨_,reply,block,next,last,idle⟩ := queueing_refused
  generalize outcome (locking queueing initial) = s at run reply block next last idle
  have ran : ∃ s', step singles s refusal = .ok (some (.returned (some .edeadlk)),s') := by
    cases result : step singles s refusal with
    | error e =>
      rw [result] at reply
      cases reply
    | ok r =>
      obtain ⟨answer,s'⟩ := r
      rw [result] at reply
      have same : answer = some (.returned (some .edeadlk)) := some.inj reply
      exact ⟨s',by rw [same]⟩
  obtain ⟨s',ran⟩ := ran
  refine ⟨s,s',run,exclusive_allowed 100 0 idle,ran,?_⟩
  rintro ⟨q,⟨u,b,l,request,_,got,live,owner⟩,why⟩
  have first : q = 0 := by
    have mine : u = (exclusive 100 0).lock 0 (-1) 0 := (some.inj request).symm
    rw [← mine,got] at block
    change (s.lockf b).map Lock.lfId = some (.proc 0) at block
    rw [live] at block
    have same : l.lfId = .proc 0 := some.inj block
    rw [owner] at same
    cases same
    rfl
  subst first
  have line := hops_line next last
  rcases why with ⟨n,back⟩ | long
  · rw [line] at back
    split at back
    · have : n = 100 := some.inj back
      omega
    · cases back
  · rw [line] at long
    exact long rfl
end NetbsdAvr32.Lockf
