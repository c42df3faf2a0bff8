import NetbsdAvr32.MsgSend

-- Removal, creation, and the calls in any order.
namespace NetbsdAvr32.Sysvmsg
open Function Linked Allot Scatter Sysvsem List
variable {c : Msginfo} {w w' : World} {s s' s'' : Msgs} {hdrs hdrs' : Place → List Nat} {segs segs' : Option Nat → List Nat} {h ix t u n p : Nat} {l rest : List Nat} {k : Place}
  {call call' : Call} {e : Errno} {r : Reply} {event : Event} {up : Nat → Prop}

theorem rmidLoop_spec (l : List Nat) {s : Msgs} {hdrs : Place → List Nat} {segs : Option Nat → List Nat} {fuel : Nat} {p : Option Nat} (laid : Laid c s up hdrs segs)
    (down : ¬up ix) (mine : hdrs (.queue ix) = l) (chain : Chain (update s.hdrLink (.head (some ix)) p) (.head (some ix)) l) (enough : l.length < fuel) :
    ∃ s' hdrs' segs',rmidLoop c ix fuel s p = some s' ∧ Laid c s' up hdrs' segs' ∧ hdrs' (.queue ix) = [] ∧ (∀ k,k ≠ .free → k ≠ .queue ix → hdrs' k = hdrs k) ∧
      (∀ k,k ≠ .free → k ≠ .queue ix → ∀ x ∈ hdrs k,Kept c s s' segs segs' x) ∧ (∀ j,j ≠ ix → s'.msqs j = s.msqs j) ∧
      s'.msqs ix = { s.msqs ix with msgCbytes := (s.msqs ix).msgCbytes - ((l.map fun h => (s.msghdrs h).msgTs).sum : Nat), msgQnum := (s.msqs ix).msgQnum - l.length } := by
  induction l generalizing s hdrs segs fuel p with
  | nil =>
    have none_ : p = none := by
      have := chain_nil.mp chain
      rwa [update_self] at this
    subst none_
    refine ⟨s,hdrs,segs,?_,laid,mine,fun _ _ _ => rfl,fun _ _ _ _ _ => (Still.refl s).kept,fun _ _ => rfl,?_⟩
    · cases fuel with
      | zero => exact absurd enough (Nat.not_lt_zero _)
      | succ fuel => rfl
    · simp
  | cons h rest ih =>
    have some_ : p = some h := by
      have := (chain_cons.mp chain).1
      rwa [update_self] at this
    subst some_
    cases fuel with
    | zero => exact absurd enough (Nat.not_lt_zero _)
    | succ fuel =>
      have nodup := laid.allot.nodup (.queue ix)
      rw [mine] at nodup
      have mem : h ∈ hdrs (.queue ix) := mine ▸ mem_cons_self
      obtain ⟨s₁,is⟩ : ∃ s₁,s₁ = s.setQueue ix { s.msqs ix with msgCbytes := (s.msqs ix).msgCbytes - (s.msghdrs h).msgTs, msgQnum := (s.msqs ix).msgQnum - 1 } := ⟨_,rfl⟩
      have still : Still s s₁ := is ▸ setQueue_still ..
      have laid₁ : Laid c s₁ up hdrs segs := by
        refine laid.frame still (is ▸ rfl) (fun _ => is ▸ rfl) fun j lives => .inl ⟨lives,?_⟩
        have ne : j ≠ ix := by
          rintro rfl
          exact down lives
        rw [is,setQueue_else ne]
        exact ⟨rfl,rfl⟩
      have took : (hdrs (.queue ix)).Perm (h :: rest) := mine ▸ .refl _
      obtain ⟨s₂,segs₂,ran,laid₂,pool,msqs,same,others,-,-⟩ := msgFreehdr_spec (k := Place.queue ix) laid₁ nofun
        (fun j is lives => down (Place.queue.inj is ▸ lives)) took
      have kept (k : Place) (used : k ≠ .free) (other : k ≠ .queue ix) (x : Nat) (member : x ∈ hdrs k) : Kept c s s₂ segs segs₂ x := by
        have ne : x ≠ h := by
          rintro rfl
          exact laid.allot.off mem other member
        have one : Kept c s₁ s₂ segs segs₂ x :=
          ⟨by rw [same x ne],by rw [same x ne],others (some x) nofun (fun is => ne (Option.some.inj is)),fun _ _ => by rw [pool]⟩
        exact still.kept.trans one
      have queue : s₂.msqs ix = { s.msqs ix with msgCbytes := (s.msqs ix).msgCbytes - (s.msghdrs h).msgTs, msgQnum := (s.msqs ix).msgQnum - 1 } := by
        rw [msqs,is,setQueue_at]
      have chain₂ : Chain (update s₂.hdrLink (.head (some ix)) (s.msghdrs h).msgNext) (.head (some ix)) rest := by
        refine chain.pop ?_ fun q member => ?_
        · rw [update_self]
          rfl
        have ne : q ≠ h := by
          rintro rfl
          exact (nodup_cons.mp nodup).1 member
        have far : (Slot.next q : Slot (Option Nat) Nat) ≠ .head (some ix) := nofun
        change (s₂.msghdrs q).msgNext = (s.msghdrs q).msgNext
        rw [same q ne,is]
        rfl
      have gone : give hdrs (.queue ix) rest .free (h :: hdrs .free) (.queue ix) = rest := give_from nofun
      obtain ⟨s',hdrs',segs',ran',laid',empty,places,kept',away,final⟩ := ih laid₂ gone chain₂ (Nat.lt_of_succ_lt_succ enough)
      have stays (k : Place) (used : k ≠ .free) (other : k ≠ .queue ix) : give hdrs (.queue ix) rest .free (h :: hdrs .free) k = hdrs k := give_else other used
      refine ⟨s',hdrs',segs',?_,laid',empty,fun k used other => (places k used other).trans (stays k used other),fun k used other x member => ?_,fun j ne => ?_,?_⟩
      · rw [rmidLoop,← is,ran]
        exact ran'
      · exact (kept k used other x member).trans (kept' k used other x (by rw [stays k used other]; exact member))
      · rw [away j ne,msqs,is,setQueue_else ne]
      have sizes : rest.map (fun h => (s₂.msghdrs h).msgTs) = rest.map fun h => (s.msghdrs h).msgTs := by
        refine map_congr_left fun x member => ?_
        have ne : x ≠ h := by
          rintro rfl
          exact (nodup_cons.mp nodup).1 member
        rw [same x ne,still.ts]
      rw [final,queue,sizes,map_cons,sum_cons,length_cons]
      simp only [MsqidDs.mk.injEq,true_and]
      omega

theorem Inv.settle (inv : Inv c w hdrs segs) (laid : Laid c s' s'.live hdrs' segs') (sums : Sums s' hdrs') (removed : ∀ ix,¬s'.live ix → hdrs' (.queue ix) = [])
    (room : ∀ ix,(s'.msqs ix).msgQbytes ≤ c.msgmnb) (types : ∀ ix,∀ h ∈ hdrs' (.queue ix),1 ≤ (s'.msghdrs h).msgType) (others : ∀ u,hdrs' (.call u) = hdrs (.call u))
    (flags : ∀ ix,(s'.msqs ix).locked = (w.msgs.msqs ix).locked) (kept : ∀ u,∀ h ∈ hdrs (.call u),Kept c w.msgs s' segs segs' h) : Inv c (w.put s') hdrs' segs' where
  laid := laid
  sums := sums
  removed := removed
  room := room
  types := types
  held u := (others u).trans (inv.held u)
  locks ix := by
    rw [put_threads,put_msgs,flags]
    exact inv.locks ix
  fine u := by
    refine (inv.fine u).kept fun h holds => kept u h ?_
    rw [inv.held u,holds]
    exact mem_singleton_self h

def Mail.clear (m : Mail) (ix : Nat) : Mail := { m with queues := update m.queues ix [] }

def Removes (c : Msginfo) (w : World) (msqid : Int) (cmd : Cmd) (w' : World) (r : Reply) : Prop :=
  mail c w' = if r = .done ∧ cmd = .rmid then (mail c w).clear (ipcidToIx msqid) else mail c w

section
variable (inv : Inv c w hdrs segs)
include inv

theorem Inv.remove (lives : w.msgs.live ix) : ∃ s',rmidLoop c ix (c.msgtql + 1) w.msgs (w.msgs.msqs ix).msgFirst = some s' ∧
    (s'.msqs ix).msgCbytes = 0 ∧ (s'.msqs ix).msgQnum = 0 ∧ Whole c (w.put (s'.setQueue ix { s'.msqs ix with msgQbytes := 0 })) ∧
    mail c (w.put (s'.setQueue ix { s'.msqs ix with msgQbytes := 0 })) = (mail c w).clear ix := by
  have short := inv.laid.allot.length_le (.queue ix)
  have laid₀ : Laid c w.msgs (fun j => w.msgs.live j ∧ j ≠ ix) hdrs segs := inv.laid.frame (.refl _) rfl (fun _ => rfl) fun j both => .inl ⟨both.1,rfl,rfl⟩
  have chain : Chain (update w.msgs.hdrLink (.head (some ix)) (w.msgs.msqs ix).msgFirst) (.head (some ix)) (hdrs (.queue ix)) := by
    have same : update w.msgs.hdrLink (.head (some ix)) (w.msgs.msqs ix).msgFirst = w.msgs.hdrLink := update_eq_self (Slot.head (some ix)) w.msgs.hdrLink
    rw [same]
    exact inv.laid.queues ix lives
  obtain ⟨s',hdrs',segs',ran,laid,empty,places,kept,away,queue⟩ := rmidLoop_spec (hdrs (.queue ix)) laid₀ (fun both => both.2 rfl) rfl chain (Nat.lt_succ_of_le short)
  obtain ⟨cbytes,qnum⟩ := inv.sums ix
  obtain ⟨s'',is⟩ : ∃ s'',s'' = s'.setQueue ix { s'.msqs ix with msgQbytes := 0 } := ⟨_,rfl⟩
  have here : s''.msqs ix = { s'.msqs ix with msgQbytes := 0 } := is ▸ setQueue_at
  have there (j : Nat) (ne : j ≠ ix) : s''.msqs j = w.msgs.msqs j := by
    rw [is,setQueue_else ne,away j ne]
  have still : Still s' s'' := is ▸ setQueue_still ..
  have live (j : Nat) : s''.live j ↔ w.msgs.live j ∧ j ≠ ix := by
    unfold Msgs.live
    by_cases at_ : j = ix
    · subst at_
      rw [here]
      exact ⟨fun not_ => absurd rfl not_,fun both => absurd rfl both.2⟩
    rw [there j at_]
    exact ⟨fun up => ⟨up,at_⟩,fun both => both.1⟩
  have none_ : (s'.msqs ix).msgCbytes = 0 ∧ (s'.msqs ix).msgQnum = 0 := by
    rw [queue]
    exact ⟨by rw [cbytes]; exact Int.sub_self _,by rw [qnum]; exact Int.sub_self _⟩
  have queues (j : Nat) (ne : j ≠ ix) : hdrs' (.queue j) = hdrs (.queue j) := places (.queue j) nofun fun eq => ne (Place.queue.inj eq)
  have calls (v : Nat) : hdrs' (.call v) = hdrs (.call v) := places (.call v) nofun nofun
  have safe (k : Place) (used : k ≠ .free) (other : k ≠ .queue ix) (x : Nat) (member : x ∈ hdrs k) : Kept c w.msgs s'' segs segs' x := (kept k used other x member).trans still.kept
  have inv' : Inv c (w.put s'') hdrs' segs' := by
    refine inv.settle ?_ (fun j => ?_) (fun j gone => ?_) (fun j => ?_) (fun j x member => ?_) calls (fun j => ?_) fun v x => safe (.call v) nofun nofun x
    · refine laid.frame still (is ▸ rfl) (fun _ => is ▸ rfl) fun j up => ?_
      have both := (live j).mp up
      refine .inl ⟨both,?_⟩
      rw [is,setQueue_else both.2]
      exact ⟨rfl,rfl⟩
    · by_cases at_ : j = ix
      · subst at_
        rw [empty,here]
        exact none_
      have sizes : (hdrs (.queue j)).map (fun h => (s''.msghdrs h).msgTs) = (hdrs (.queue j)).map fun h => (w.msgs.msghdrs h).msgTs :=
        map_congr_left fun x member => (safe (.queue j) nofun (fun eq => at_ (Place.queue.inj eq)) x member).ts
      rw [queues j at_,there j at_,sizes]
      exact inv.sums j
    · by_cases at_ : j = ix
      · exact at_ ▸ empty
      rw [queues j at_]
      exact inv.removed j fun up => gone ((live j).mpr ⟨up,at_⟩)
    · by_cases at_ : j = ix
      · subst at_
        rw [here]
        exact Nat.zero_le _
      rw [there j at_]
      exact inv.room j
    · by_cases at_ : j = ix
      · rw [at_,empty] at member
        exact absurd member not_mem_nil
      rw [queues j at_] at member
      rw [(safe (.queue j) nofun (fun eq => at_ (Place.queue.inj eq)) x member).type]
      exact inv.types j x member
    by_cases at_ : j = ix
    · subst at_
      rw [here,queue]
    · rw [there j at_]
  refine ⟨s',ran,none_.1,none_.2,is ▸ ⟨hdrs',segs',inv'⟩,is ▸ ?_⟩
  rw [inv.mail_eq,inv'.mail_eq]
  ext1
  · funext j
    simp only [Mail.clear,put_msgs]
    by_cases at_ : j = ix
    · subst at_
      rw [update_self,empty]
      rfl
    rw [update_of_ne at_,queues j at_]
    exact map_congr_left fun x member => (safe (.queue j) nofun (fun eq => at_ (Place.queue.inj eq)) x member).letter
  funext v
  simp only [Mail.clear,put_msgs,put_threads]
  cases hand : (w.threads v).hand with
  | none => rfl
  | some x =>
    refine congrArg some (safe (.call v) nofun nofun x ?_).letter
    rw [inv.held v,hand_held hand]
    exact mem_singleton_self x

theorem Inv.resize (ix : Nat) (q : MsqidDs) (room : q.msgQbytes ≤ c.msgmnb) (some_ : q.msgQbytes ≠ 0 ∨ ¬w.msgs.live ix) (flag : q.locked = (w.msgs.msqs ix).locked)
    (same : w.msgs.live ix ∧ q.msgFirst = (w.msgs.msqs ix).msgFirst ∧ q.msgLast = (w.msgs.msqs ix).msgLast ∧ q.msgCbytes = (w.msgs.msqs ix).msgCbytes ∧ q.msgQnum = (w.msgs.msqs ix).msgQnum ∨
      ¬w.msgs.live ix ∧ q.msgFirst = none ∧ q.msgLast = none ∧ q.msgCbytes = 0 ∧ q.msgQnum = 0) :
    Inv c (w.put (w.msgs.setQueue ix q)) hdrs segs ∧ mail c (w.put (w.msgs.setQueue ix q)) = mail c w := by
  have still : Still w.msgs (w.msgs.setQueue ix q) := setQueue_still ..
  have inv' : Inv c (w.put (w.msgs.setQueue ix q)) hdrs segs := by
    refine inv.settle ?_ (fun j => ?_) (fun j gone => ?_) (fun j => ?_) (fun j x member => inv.types j x member) (fun _ => rfl) (fun j => ?_) fun _ _ _ => still.kept
    · refine inv.laid.frame still rfl (fun _ => rfl) fun j up => ?_
      by_cases at_ : j = ix
      · subst at_
        rw [setQueue_at]
        rcases same with ⟨was,first,last,_⟩ | ⟨gone,first,last,_⟩
        · exact .inl ⟨was,first,last⟩
        · exact .inr ⟨inv.removed j gone,first,last⟩
      unfold Msgs.live at up
      rw [setQueue_else at_] at up ⊢
      exact .inl ⟨up,rfl,rfl⟩
    · by_cases at_ : j = ix
      · subst at_
        rw [setQueue_at]
        rcases same with ⟨_,_,_,cbytes,qnum⟩ | ⟨gone,_,_,cbytes,qnum⟩
        · rw [cbytes,qnum]
          exact inv.sums j
        rw [cbytes,qnum,inv.removed j gone]
        exact ⟨rfl,rfl⟩
      rw [setQueue_else at_]
      exact inv.sums j
    · by_cases at_ : j = ix
      · subst at_
        unfold Msgs.live at gone
        rw [setQueue_at] at gone
        exact inv.removed j (some_.resolve_left gone)
      unfold Msgs.live at gone
      rw [setQueue_else at_] at gone
      exact inv.removed j gone
    · by_cases at_ : j = ix
      · subst at_
        rw [setQueue_at]
        exact room
      rw [setQueue_else at_]
      exact inv.room j
    by_cases at_ : j = ix
    · subst at_
      rw [setQueue_at]
      exact flag
    · rw [setQueue_else at_]
  exact ⟨inv',inv.mail_kept inv' (fun _ => rfl) (fun _ => rfl) fun _ _ _ _ _ => still.kept⟩

theorem msgctl1_ends (granted : Bool) (msqid : Int) (cmd : Cmd) : Ends c (msgctl1 c w granted msqid cmd) (Removes c w msqid cmd) := by
  have refused (e : Errno) : Ends c (some (w,.fails e)) (Removes c w msqid cmd) := ⟨w,_,rfl,⟨hdrs,segs,inv⟩,(if_neg fun both => by cases both.1).symm⟩
  unfold msgctl1
  dsimp only
  split
  · exact refused .einval
  split
  · exact refused .einval
  next lives =>
  split
  · exact refused .einval
  split
  · exact refused .eacces
  cases cmd with
  | rmid =>
    obtain ⟨s',ran,cbytes,qnum,⟨hdrs',segs',inv'⟩,same⟩ := inv.remove lives
    rw [ran]
    dsimp only
    rw [if_pos ⟨cbytes,qnum⟩]
    refine ⟨_,_,rfl,⟨hdrs',segs',inv'.broadcast _⟩,?_⟩
    unfold Removes
    rw [if_pos ⟨rfl,rfl⟩,mail_broadcast,same]
  | set qbytes super =>
    dsimp only
    obtain ⟨size,is⟩ : ∃ size,size = if c.msgmnb < qbytes then c.msgmnb else qbytes := ⟨_,rfl⟩
    rw [← is]
    have room : size ≤ c.msgmnb := by
      rw [is]
      split <;> omega
    split
    · exact refused .eperm
    split
    · exact refused .einval
    next some_ =>
    obtain ⟨inv',same⟩ := inv.resize (ipcidToIx msqid) { w.msgs.msqs (ipcidToIx msqid) with msgQbytes := size } room (.inl some_) rfl (.inl ⟨lives,rfl,rfl,rfl,rfl⟩)
    exact ⟨_,_,rfl,⟨hdrs,segs,inv'⟩,same.trans (if_neg fun both => by cases both.2).symm⟩

theorem sysMsgget_ends (granted : Bool) (key : Int) (creat excl : Bool) :
    Ends c (some (sysMsgget c w granted key creat excl)) fun w' _ => mail c w' = mail c w := by
  have stays (r : Reply) : Ends c (some (w,r)) fun w' _ => mail c w' = mail c w := ⟨w,r,rfl,⟨hdrs,segs,inv⟩,rfl⟩
  unfold sysMsgget
  dsimp only
  split
  · split
    · exact stays _
    split
    · exact stays _
    · exact stays _
  split
  · split
    · exact stays _
    next ix found =>
    have free : (w.msgs.msqs ix).msgQbytes = 0 ∧ (w.msgs.msqs ix).locked = false := by simpa using find?_some found
    obtain ⟨inv',same⟩ := inv.resize ix ⟨key,((w.msgs.msqs ix).seq + 1) % 65536,false,0,c.msgmnb,none,none,0⟩ (Nat.le_refl _) (.inr (not_not.mpr free.1)) free.2.symm
      (.inr ⟨not_not.mpr free.1,rfl,rfl,rfl,rfl⟩)
    exact ⟨_,_,rfl,⟨hdrs,segs,inv'⟩,same⟩
  · exact stays _
end

theorem boot_inv (c : Msginfo) : Whole c (boot c) := by
  refine ⟨update (fun _ => []) .free (range c.msgtql),update (fun _ => []) none (range c.msgseg),?_⟩
  have queues (ix : Nat) : update (fun _ : Place => ([] : List Nat)) .free (range c.msgtql) (.queue ix) = [] := rfl
  have calls (t : Nat) : update (fun _ : Place => ([] : List Nat)) .free (range c.msgtql) (.call t) = [] := rfl
  have down (ix : Nat) : ¬(boot c).msgs.live ix := fun up => up rfl
  have unused (k : Place) (used : k ≠ .free) (x : Nat) : x ∉ update (fun _ : Place => ([] : List Nat)) .free (range c.msgtql) k := by
    rw [update_of_ne used]
    exact not_mem_nil
  have store : SegLaid c (boot c).msgs (inUse (update (fun _ => []) .free (range c.msgtql))) (update (fun _ => []) none (range c.msgseg)) := by
    refine ⟨start ..,?_,trivial,fun k lives => ?_,fun k dead => ?_⟩
    · rw [update_self,length_range]
      rfl
    · match k with
      | none =>
        rw [update_self,range_eq_range']
        exact chain_range (fun _ => rfl) c.msgseg (if_pos c.index.1).symm (Nat.zero_add _)
      | some h =>
        obtain ⟨j,used,mem⟩ := lives
        exact absurd mem (unused j used h)
    refine update_of_ne ?_ ..
    rintro rfl
    exact dead trivial
  refine ⟨⟨start ..,?_,fun ix up => absurd up (down ix),fun ix up => absurd up (down ix),store,fun k used h mem => absurd mem (unused k used h)⟩,
    fun ix => ?_,fun ix _ => queues ix,fun _ => Nat.zero_le _,fun ix h mem => ?_,calls,fun ix => ⟨fun is => (by cases is),fun _ is => (by cases is)⟩,fun _ => trivial⟩
  · rw [update_self,range_eq_range']
    exact chain_range (fun _ => rfl) c.msgtql (if_pos c.hdrs).symm (Nat.zero_add _)
  · exact ⟨rfl,rfl⟩
  · exact absurd mem not_mem_nil

def Wakes (c : Msginfo) (w : World) (t : Nat) : Call → World → Reply → Prop
  | .rcvWait a _, w', r => Receives c w t a w' r
  | _, w', r => mail c w' = mail c w ∧ r ≠ .sent

def Copies (c : Msginfo) (w : World) (t : Nat) : Call → World → Reply → Prop
  | .sndType a _, w', r => Sends c w a w' r
  | .sndText a _ _ _, w', r => Sends c w a w' r
  | .rcvType a _ _, w', r => Hands c w t a w' r
  | .rcvText a _ _ _ _ _, w', r => Hands c w t a w' r
  | _, _, _ => False

def Served (c : Msginfo) (w : World) : Event → World → Reply → Prop
  | .msgget .., w', _ => mail c w' = mail c w
  | .msgctl _ msqid cmd, w', r => Removes c w msqid cmd w' r
  | .msgsnd .., w', r => mail c w' = mail c w ∧ r ≠ .sent
  | .msgrcv _ t a, w', r => Receives c w t a w' r
  | .resume t _, w', r => Wakes c w t (w.threads t) w' r
  | .copy t _, w', r => Copies c w t (w.threads t) w' r

theorem perform_ends (whole : Whole c w) (ready : Ready w event = true) : Ends c (perform c w event) (Served c w event) := by
  obtain ⟨hdrs,segs,inv⟩ := whole
  cases event with
  | msgget granted key creat excl => exact sysMsgget_ends inv granted key creat excl
  | msgctl granted msqid cmd => exact msgctl1_ends inv granted msqid cmd
  | msgsnd granted t a => exact msgsnd1_ends inv (of_decide_eq_true ready) granted a
  | msgrcv granted t a => exact msgrcv1_ends inv (of_decide_eq_true ready) granted a
  | resume t signal =>
    dsimp only [perform]
    change Ends c _ (Wakes c w t (w.threads t))
    dsimp only [Ready] at ready
    cases at_ : w.threads t with
    | sndWait a weOwnIt woken => exact msgsndWake_ends inv at_ signal
    | rcvWait a woken => exact msgrcvWake_ends inv at_ signal
    | _ =>
      rw [at_] at ready
      cases ready
  | copy t stop =>
    dsimp only [perform]
    change Ends c _ (Copies c w t (w.threads t))
    dsimp only [Ready] at ready
    cases at_ : w.threads t with
    | sndType a h => exact msgsndTyped_ends inv at_ stop
    | sndText a h rest next => exact msgsndCopied_ends inv at_ stop
    | rcvType a h msgsz => exact msgrcvTyped_ends inv at_ stop
    | rcvText a h msgsz len got next => exact msgrcvCopied_ends inv at_ stop
    | _ =>
      rw [at_] at ready
      cases ready

end NetbsdAvr32.Sysvmsg
