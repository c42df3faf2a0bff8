import NetbsdAvr32.MsgMoves

-- A stretch of msgsnd1.
namespace NetbsdAvr32.Sysvmsg
open Function Linked Allot Scatter Sysvsem List Place Nat
variable {c : Msginfo} {w w' : World} {s s' s'' : Msgs} {hdrs hdrs' : Place → List Nat} {segs segs' : Option Nat → List Nat} {h ix t u n : Nat} {l rest : List Nat} {k : Place}
  {call call' : Call} {a : Send} {e : Errno} {P Q : World → Reply → Prop} {result : Option (World × Reply)}

def Whole (c : Msginfo) (w : World) : Prop := ∃ hdrs segs,Inv c w hdrs segs

def Ends (c : Msginfo) (result : Option (World × Reply)) (P : World → Reply → Prop) : Prop := ∃ w' r,result = some (w',r) ∧ Whole c w' ∧ P w' r

theorem Ends.mono (ends : Ends c result P) (weaker : ∀ w' r,P w' r → Q w' r) : Ends c result Q := by
  obtain ⟨w',r,ran,whole,holds⟩ := ends
  exact ⟨w',r,ran,whole,weaker w' r holds⟩

structure Alike (s s' : Msgs) : Prop where
  still : Still s s'
  free : s'.freeMsghdrs = s.freeMsghdrs
  next : ∀ x,(s'.msghdrs x).msgNext = (s.msghdrs x).msgNext
  queues : ∀ j,∃ b,s'.msqs j = { s.msqs j with locked := b }

theorem Alike.refl (s : Msgs) : Alike s s := ⟨.refl s,rfl,fun _ => rfl,fun _ => ⟨_,rfl⟩⟩
theorem lock_at (s : Msgs) (ix : Nat) (b : Bool) : (s.lock ix b).msqs ix = { s.msqs ix with locked := b } := setQueue_at
theorem lock_else {j : Nat} (ne : j ≠ ix) (b : Bool) : (s.lock ix b).msqs j = s.msqs j := setQueue_else ne

theorem lock_queues (s : Msgs) (ix : Nat) (b : Bool) (j : Nat) : ∃ b',(s.lock ix b).msqs j = { s.msqs j with locked := b' } := by
  by_cases same : j = ix
  · subst same
    exact ⟨b,lock_at ..⟩
  · exact ⟨_,lock_else same b⟩

theorem Alike.lock (s : Msgs) (ix : Nat) (b : Bool) : Alike s (s.lock ix b) := ⟨setQueue_still ..,rfl,fun _ => rfl,lock_queues s ix b⟩

theorem live_congr (same : ∀ j,(s'.msqs j).msgQbytes = (s.msqs j).msgQbytes) : s'.live = s.live := by
  funext j
  unfold Msgs.live
  rw [same]

theorem Inv.alike (inv : Inv c w hdrs segs) (alike : Alike w.msgs s') (mine : call'.held = (w.threads t).held) (locks : Locks (update w.threads t call') s')
    (fine : Fine c w.msgs segs call') : Inv c ((w.put s').goes t call') hdrs segs := by
  have qbytes (j : Nat) : (s'.msqs j).msgQbytes = (w.msgs.msqs j).msgQbytes := by
    obtain ⟨b,same⟩ := alike.queues j
    rw [same]
  have live := live_congr qbytes
  refine inv.change ?_ (fun j => ?_) (fun j gone => ?_) (fun j => ?_) (fun j h mem => ?_) ?_ (fun _ _ => rfl) locks (fine.kept fun _ _ => alike.still.kept) fun _ _ _ _ => alike.still.kept
  · rw [live]
    refine inv.laid.frame alike.still alike.free alike.next fun j up => .inl ⟨up,?_⟩
    obtain ⟨b,same⟩ := alike.queues j
    rw [same]
    exact ⟨rfl,rfl⟩
  · obtain ⟨b,same⟩ := alike.queues j
    rw [same]
    have ts : (fun h => (s'.msghdrs h).msgTs) = fun h => (w.msgs.msghdrs h).msgTs := funext alike.still.ts
    rw [ts]
    exact inv.sums j
  · rw [live] at gone
    exact inv.removed j gone
  · rw [qbytes]
    exact inv.room j
  · rw [alike.still.type]
    exact inv.types j h mem
  · rw [inv.held t,mine]

theorem Inv.mail_kept (inv : Inv c w hdrs segs) (inv' : Inv c w' hdrs' segs') (queues : ∀ j,hdrs' (.queue j) = hdrs (.queue j)) (hands : ∀ u,(w'.threads u).hand = (w.threads u).hand)
    (kept : ∀ k,k ≠ .free → (∀ u,k = .call u → (w.threads u).hand ≠ none) → ∀ h ∈ hdrs k,Kept c w.msgs w'.msgs segs segs' h) : mail c w' = mail c w := by
  rw [inv.mail_eq,inv'.mail_eq]
  congr 1
  · funext j
    rw [queues]
    exact map_congr_left fun h mem => (kept (.queue j) nofun nofun h mem).letter
  funext u
  rw [hands]
  cases holds : (w.threads u).hand with
  | none => rfl
  | some h =>
    have mem : h ∈ hdrs (.call u) := by
      rw [inv.held u,hand_held holds]
      exact mem_singleton_self h
    refine congrArg some (kept (.call u) nofun (fun v is => ?_) h mem).letter
    cases is
    rw [holds]
    exact nofun

theorem goes_hand (same : call'.hand = (w.threads t).hand) (u : Nat) : ((w.goes t call').threads u).hand = (w.threads u).hand := by
  by_cases is : u = t
  · subst is
    rw [goes_self,same]
  · rw [goes_else is]

theorem Inv.alike_mail (inv : Inv c w hdrs segs) (alike : Alike w.msgs s') (mine : call'.hand = (w.threads t).hand) (inv' : Inv c ((w.put s').goes t call') hdrs segs) :
    mail c ((w.put s').goes t call') = mail c w :=
  inv.mail_kept inv' (fun _ => rfl) (goes_hand mine) fun _ _ _ _ _ => alike.still.kept

theorem goes_id (at_ : w.threads t = call) : w.goes t call = w := by
  have same : update w.threads t call = w.threads := at_ ▸ update_eq_self ..
  unfold World.goes
  rw [same]

theorem Inv.rise (inv : Inv c w hdrs segs) {weOwnIt woken : Bool} (at_ : w.threads t = .sndWait a weOwnIt woken) {w₁ : World}
    (is : w₁ = if weOwnIt then w.put (w.msgs.lock (ipcidToIx a.msqidr) false) else w) : Inv c (w₁.goes t .idle) hdrs segs ∧ mail c (w₁.goes t .idle) = mail c w := by
  have held : Call.idle.held = (w.threads t).held := by
    rw [at_]
    rfl
  have hand : Call.idle.hand = (w.threads t).hand := by
    rw [at_]
    rfl
  cases weOwnIt with
  | true =>
    have alike : Alike w.msgs (w.msgs.lock (ipcidToIx a.msqidr) false) := .lock ..
    have locks : Locks (update w.threads t .idle) (w.msgs.lock (ipcidToIx a.msqidr) false) := by
      refine inv.locks.release (ipcidToIx a.msqidr) (by rw [at_]; rfl) rfl ?_ fun j ne => ?_
      · rw [lock_at]
      · rw [lock_else ne]
    rw [is,if_pos rfl]
    have inv' := inv.alike alike held locks trivial
    exact ⟨inv',inv.alike_mail alike hand inv'⟩
  | false =>
    have locks : Locks (update w.threads t .idle) w.msgs := inv.locks.same (fun _ => rfl) (by rw [at_]; rfl)
    rw [is,if_neg Bool.false_ne_true]
    have inv' := inv.alike (.refl w.msgs) held locks trivial
    exact ⟨inv',inv.alike_mail (.refl w.msgs) hand inv'⟩

theorem msgsndTry_goes (w : World) (t : Nat) (a : Send) : msgsndTry c (w.goes t .idle) t a = msgsndTry c w t a := by
  unfold msgsndTry
  simp only [goes_msgs,goes_put,goes_goes]

theorem Inv.alloc (inv : Inv c w hdrs segs) (idle : w.threads t = .idle) (fits : a.text.length ≤ (w.msgs.msqs (ipcidToIx a.msqidr)).msgQbytes)
    (free : (w.msgs.msqs (ipcidToIx a.msqidr)).locked = false) (enough : ¬shortOf c w.msgs (ipcidToIx a.msqidr) a.text.length) :
    ∃ s' h hdrs' segs',msgAlloc c w.msgs (ipcidToIx a.msqidr) a.text.length = some (s',h) ∧ Inv c ((w.put s').goes t (.sndType a h)) hdrs' segs' ∧
      mail c ((w.put s').goes t (.sndType a h)) = mail c w := by
  have room := inv.room (ipcidToIx a.msqidr)
  have bound := c.fits
  have empty : hdrs (.call t) = [] := by
    rw [inv.held t,idle]
    rfl
  simp only [shortOf,not_or,Int.not_lt] at enough
  obtain ⟨s',h,rest,segs',ran,first,laid,pool,msqs,hdrsSame,ts,others⟩ := msgAlloc_spec (ipcidToIx a.msqidr) inv.laid empty enough.2.2 enough.2.1
    (lt_of_le_of_lt fits (lt_of_le_of_lt room bound))
  have mem : h ∈ hdrs .free := first ▸ mem_cons_self
  have queues (j : Nat) : give hdrs .free rest (.call t) [h] (.queue j) = hdrs (.queue j) := give_else nofun nofun
  have apart (k : Place) (used : k ≠ .free) (x : Nat) (member : x ∈ hdrs k) : x ≠ h := by
    rintro rfl
    exact inv.laid.allot.off mem used member
  have kept (k : Place) (used : k ≠ .free) (x : Nat) (member : x ∈ hdrs k) : Kept c w.msgs s' segs segs' x := by
    have ne := apart k used x member
    have same := hdrsSame x ne
    exact ⟨by rw [same],by rw [same],others (some x) nofun (fun is => ne (Option.some.inj is)),fun _ _ => by rw [pool]⟩
  have fields (j : Nat) : ∃ b,s'.msqs j = { w.msgs.msqs j with locked := b } := by
    rw [msqs]
    exact lock_queues ..
  have qbytes (j : Nat) : (s'.msqs j).msgQbytes = (w.msgs.msqs j).msgQbytes := by
    obtain ⟨b,same⟩ := fields j
    rw [same]
  have live := live_congr qbytes
  have inv' : Inv c ((w.put s').goes t (.sndType a h)) (give hdrs .free rest (.call t) [h]) segs' := by
    refine inv.change (live ▸ laid) (fun j => ?_) (fun j gone => ?_) (fun j => ?_) (fun j x member => ?_) give_to (fun u ne => ?_) ?_ ts fun u _ => kept (.call u) nofun
    · obtain ⟨b,same⟩ := fields j
      have sizes : (hdrs (.queue j)).map (fun h => (s'.msghdrs h).msgTs) = (hdrs (.queue j)).map fun h => (w.msgs.msghdrs h).msgTs :=
        map_congr_left fun x member => (kept (.queue j) nofun x member).ts
      rw [queues,same,sizes]
      exact inv.sums j
    · rw [live] at gone
      exact inv.removed j gone
    · rw [qbytes]
      exact inv.room j
    · rw [(kept (.queue j) nofun x member).type]
      exact inv.types j x member
    · exact give_else nofun fun is => ne (call.inj is)
    refine inv.locks.acquire (ipcidToIx a.msqidr) free (by rw [idle]; rfl) rfl ?_ fun j ne => ?_
    · rw [msqs,lock_at]
    · rw [msqs,lock_else ne]
  refine ⟨s',h,_,segs',ran,inv',inv.mail_kept inv' queues (goes_hand ?_) fun k used _ => kept k used⟩
  rw [put_threads,idle]
  rfl

theorem msgsndTry_ends (inv : Inv c w hdrs segs) (idle : w.threads t = .idle) (a : Send) :
    Ends c (msgsndTry c w t a) fun w' r => mail c w' = mail c w ∧ r ≠ .sent := by
  have stays : w.goes t .idle = w := goes_id idle
  have held : ∀ own,(Call.sndWait a own false).held = (w.threads t).held := by
    intro own
    rw [idle]
    rfl
  have hand : ∀ own,(Call.sndWait a own false).hand = (w.threads t).hand := by
    intro own
    rw [idle]
    rfl
  unfold msgsndTry
  dsimp only
  split
  · rw [stays]
    exact ⟨w,_,rfl,⟨hdrs,segs,inv⟩,rfl,nofun⟩
  next fits =>
  split
  · split
    · rw [stays]
      exact ⟨w,_,rfl,⟨hdrs,segs,inv⟩,rfl,nofun⟩
    split
    · next locked =>
      have locks : Locks (update w.threads t (.sndWait a false false)) w.msgs := inv.locks.same (fun _ => rfl) (by rw [idle]; rfl)
      have inv' := inv.alike (.refl w.msgs) (held false) locks trivial
      exact ⟨_,_,rfl,⟨hdrs,segs,inv'⟩,inv.alike_mail (.refl w.msgs) (hand false) inv',nofun⟩
    next free =>
    have alike : Alike w.msgs (w.msgs.lock (ipcidToIx a.msqidr) true) := .lock ..
    have locks : Locks (update w.threads t (.sndWait a true false)) (w.msgs.lock (ipcidToIx a.msqidr) true) := by
      refine inv.locks.acquire (ipcidToIx a.msqidr) (Bool.eq_false_iff.mpr free) (by rw [idle]; rfl) rfl ?_ fun j ne => ?_
      · rw [lock_at]
      · rw [lock_else ne]
    have inv' := inv.alike alike (held true) locks trivial
    exact ⟨_,_,rfl,⟨hdrs,segs,inv'⟩,inv.alike_mail alike (hand true) inv',nofun⟩
  next ready =>
  rw [not_or] at ready
  obtain ⟨s',h,hdrs',segs',ran,inv',same⟩ := inv.alloc idle (Nat.le_of_not_lt fits) (Bool.eq_false_iff.mpr ready.1) ready.2
  rw [ran]
  exact ⟨_,_,rfl,⟨hdrs',segs',inv'⟩,same,nofun⟩

theorem Laid.alike {up : Nat → Prop} (laid : Laid c s up hdrs segs) (alike : Alike s s') : Laid c s' up hdrs segs := by
  refine laid.frame alike.still alike.free alike.next fun j lives => .inl ⟨lives,?_⟩
  obtain ⟨b,same⟩ := alike.queues j
  rw [same]
  exact ⟨rfl,rfl⟩

def Mail.drop (m : Mail) (t : Nat) : Mail := { m with hands := update m.hands t none }
def Mail.post (m : Mail) (ix : Nat) (letter : Letter) : Mail := { m with queues := update m.queues ix (m.queues ix ++ [letter]) }

theorem Mail.drop_none {m : Mail} (none_ : m.hands t = none) : m.drop t = m := by
  unfold Mail.drop
  rw [← none_,update_eq_self]

theorem Inv.freed (inv : Inv c w hdrs segs) (holds : (w.threads t).held = some h) : ∃ s' hdrs' segs',msgFreehdr c w.msgs h = some s' ∧ s'.msqs = w.msgs.msqs ∧
    ∀ s'',Alike s' s'' → Locks (update w.threads t .idle) s'' → Inv c ((w.put s'').goes t .idle) hdrs' segs' ∧ mail c ((w.put s'').goes t .idle) = (mail c w).drop t := by
  obtain ⟨mine,mem⟩ := inv.holds rfl holds
  have took : (hdrs (.call t)).Perm (h :: []) := mine ▸ .refl _
  obtain ⟨s',segs',ran,laid,pool,msqs,same,others,-,-⟩ := msgFreehdr_spec (k := call t) inv.laid nofun nofun took
  refine ⟨s',give hdrs (.call t) [] .free (h :: hdrs .free),segs',ran,msqs,fun s'' alike locks => ?_⟩
  have queues (j : Nat) : give hdrs (.call t) [] .free (h :: hdrs .free) (.queue j) = hdrs (.queue j) := give_else nofun nofun
  have apart (k : Place) (other : k ≠ .call t) (x : Nat) (member : x ∈ hdrs k) : x ≠ h := by
    rintro rfl
    exact inv.laid.allot.off mem other member
  have kept (k : Place) (other : k ≠ .call t) (x : Nat) (member : x ∈ hdrs k) : Kept c w.msgs s'' segs segs' x := by
    have ne := apart k other x member
    have one : Kept c w.msgs s' segs segs' x :=
      ⟨by rw [same x ne],by rw [same x ne],others (some x) nofun (fun is => ne (Option.some.inj is)),fun _ _ => by rw [pool]⟩
    exact one.trans alike.still.kept
  have fields (j : Nat) : ∃ b,s''.msqs j = { w.msgs.msqs j with locked := b } := by
    obtain ⟨b,is⟩ := alike.queues j
    rw [msqs] at is
    exact ⟨b,is⟩
  have qbytes (j : Nat) : (s''.msqs j).msgQbytes = (w.msgs.msqs j).msgQbytes := by
    obtain ⟨b,is⟩ := fields j
    rw [is]
  have live := live_congr qbytes
  have inv' : Inv c ((w.put s'').goes t .idle) (give hdrs (.call t) [] .free (h :: hdrs .free)) segs' := by
    refine inv.change (live ▸ laid.alike alike) (fun j => ?_) (fun j gone => ?_) (fun j => ?_) (fun j x member => ?_) (give_from nofun) (fun u ne => ?_) locks trivial
      fun u ne => kept (.call u) fun is => ne (call.inj is)
    · obtain ⟨b,is⟩ := fields j
      have sizes : (hdrs (.queue j)).map (fun h => (s''.msghdrs h).msgTs) = (hdrs (.queue j)).map fun h => (w.msgs.msghdrs h).msgTs :=
        map_congr_left fun x member => (kept (.queue j) nofun x member).ts
      rw [queues,is,sizes]
      exact inv.sums j
    · rw [live] at gone
      exact inv.removed j gone
    · rw [qbytes]
      exact inv.room j
    · rw [(kept (.queue j) nofun x member).type]
      exact inv.types j x member
    · exact give_else (fun is => ne (call.inj is)) nofun
  refine ⟨inv',?_⟩
  rw [inv.mail_eq,inv'.mail_eq]
  ext1
  · funext j
    change map _ (give hdrs (.call t) [] .free (h :: hdrs .free) (.queue j)) = _
    exact map_congr_left fun x member => (kept (.queue j) nofun x member).letter
  funext u
  by_cases is : u = t
  · subst is
    simp [Mail.drop,Call.hand]
  simp only [Mail.drop,update_of_ne is,goes_else is,put_threads]
  cases hand : (w.threads u).hand with
  | none => rfl
  | some x =>
    refine congrArg some (kept (.call u) (fun eq => is (call.inj eq)) x ?_).letter
    rw [inv.held u,hand_held hand]
    exact mem_singleton_self x

theorem broadcast_goes (w : World) (ix t : Nat) : (w.broadcast ix).goes t .idle = (w.goes t .idle).broadcast ix := by
  unfold World.broadcast World.goes
  congr 1
  funext u
  by_cases is : u = t
  · subst is
    simp [Call.wake]
  · simp [update_of_ne is]

theorem mail_broadcast (c : Msginfo) (w : World) (ix : Nat) : mail c (w.broadcast ix) = mail c w := by
  unfold mail World.broadcast
  simp only [wake_hand]

theorem Inv.ends (inv : Inv c (w.goes t .idle) hdrs segs) (ix : Nat) :
    Whole c ((w.broadcast ix).goes t .idle) ∧ mail c ((w.broadcast ix).goes t .idle) = mail c (w.goes t .idle) := by
  rw [broadcast_goes]
  exact ⟨⟨hdrs,segs,inv.broadcast ix⟩,mail_broadcast ..⟩

theorem mail_none (none_ : (w.threads t).hand = none) : (mail c w).hands t = none := by
  unfold mail
  dsimp only
  rw [none_]
  rfl

theorem msgsndFail_ends (inv : Inv c w hdrs segs) (at_ : w.threads t = .sndType a h) (e : Errno) :
    Ends c (msgsndFail c w t a h e) fun w' r => mail c w' = mail c w ∧ r ≠ .sent := by
  obtain ⟨s',hdrs',segs',ran,msqs,freed⟩ := inv.freed (t := t) (h := h) (by rw [at_]; rfl)
  have locks : Locks (update w.threads t .idle) (s'.lock (ipcidToIx a.msqidr) false) := by
    refine inv.locks.release (ipcidToIx a.msqidr) (by rw [at_]; rfl) rfl ?_ fun j ne => ?_
    · rw [lock_at]
    · rw [lock_else ne,msqs]
  obtain ⟨inv',same⟩ := freed _ (.lock s' (ipcidToIx a.msqidr) false) locks
  obtain ⟨whole,shown⟩ := inv'.ends (ipcidToIx a.msqidr)
  unfold msgsndFail
  rw [ran]
  refine ⟨_,_,rfl,whole,shown.trans (same.trans ?_),nofun⟩
  exact Mail.drop_none (mail_none (by rw [at_]; rfl))

theorem msgsndFail_goes (w : World) (call : Call) (t : Nat) (a : Send) (h : Nat) (e : Errno) : msgsndFail c (w.goes t call) t a h e = msgsndFail c w t a h e := by
  unfold msgsndFail
  simp only [goes_msgs,goes_put]
  cases msgFreehdr c w.msgs h with
  | none => rfl
  | some s => simp only [broadcast_goes,goes_goes]

-- The copies of msgsnd1, and how the message comes into the queue.
variable {p : Nat} {r : Reply}

theorem Laid.write {up : Nat → Prop} (laid : Laid c s up hdrs segs) (seg : s'.segLink = s.segLink) (hdr : s'.hdrLink = s.hdrLink) (nfree : s'.nfreeMsgmaps = s.nfreeMsgmaps)
    (msqs : s'.msqs = s.msqs) (ts : ∀ x,(s'.msghdrs x).msgTs = (s.msghdrs x).msgTs) : Laid c s' up hdrs segs := by
  refine ⟨laid.allot,?_,fun ix lives => ?_,fun ix lives => ?_,⟨laid.store.allot,nfree.trans laid.store.count,trivial,?_,laid.store.idle⟩,fun k used x mem => ?_⟩
  · rw [hdr]
    exact laid.free
  · rw [hdr]
    exact laid.queues ix lives
  · rw [msqs]
    exact laid.lasts ix lives
  · rw [seg]
    exact laid.store.chains
  rw [ts]
  exact laid.sizes k used x mem

theorem Inv.writes (inv : Inv c w hdrs segs) (s' : Msgs) (call' : Call) (holds : (w.threads t).held = some h) (seg : s'.segLink = w.msgs.segLink) (hdr : s'.hdrLink = w.msgs.hdrLink)
    (nfree : s'.nfreeMsgmaps = w.msgs.nfreeMsgmaps) (msqs : s'.msqs = w.msgs.msqs) (ts : ∀ x,(s'.msghdrs x).msgTs = (w.msgs.msghdrs x).msgTs)
    (kept : ∀ k,k ≠ .call t → k ≠ .free → ∀ x ∈ hdrs k,Kept c w.msgs s' segs segs x) (mine : call'.held = some h) (owns : call'.owns = (w.threads t).owns)
    (before : (w.threads t).hand = none) (after : call'.hand = none) (fine : Fine c s' segs call') :
    Inv c ((w.put s').goes t call') hdrs segs ∧ mail c ((w.put s').goes t call') = mail c w := by
  have live : s'.live = w.msgs.live := live_congr fun j => by rw [msqs]
  have inv' : Inv c ((w.put s').goes t call') hdrs segs := by
    refine inv.change (live ▸ inv.laid.write seg hdr nfree msqs ts) (fun j => ?_) (fun j gone => ?_) (fun j => ?_) (fun j x member => ?_) ?_ (fun _ _ => rfl)
      (inv.locks.same (fun j => by rw [msqs]) owns) fine fun u ne => kept (.call u) (fun is => ne (call.inj is)) nofun
    · rw [msqs,funext ts]
      exact inv.sums j
    · rw [live] at gone
      exact inv.removed j gone
    · rw [msqs]
      exact inv.room j
    · rw [(kept (.queue j) nofun nofun x member).type]
      exact inv.types j x member
    · rw [inv.held t,holds,mine]
  refine ⟨inv',inv.mail_kept inv' (fun _ => rfl) (goes_hand (w := w.put s') (after.trans before.symm)) fun k used not_ x member => kept k ?_ used x member⟩
  rintro rfl
  exact not_ t rfl before

def Sends (c : Msginfo) (w : World) (a : Send) (w' : World) (r : Reply) : Prop :=
  if r = .sent then mail c w' = (mail c w).post (ipcidToIx a.msqidr) ⟨a.msgType,a.text⟩ else mail c w' = mail c w

theorem Sends.not (same : mail c w' = mail c w ∧ r ≠ .sent) : Sends c w a w' r := by
  unfold Sends
  rw [if_neg same.2]
  exact same.1

theorem msgsndFinish_ends (inv : Inv c w hdrs segs) (at_ : w.threads t = .sndType a h) (letter : letterAt c w.msgs segs h = ⟨a.msgType,a.text⟩) (pos : 1 ≤ a.msgType) :
    Ends c (msgsndFinish c w t a h) (Sends c w a) := by
  unfold msgsndFinish
  dsimp only
  split
  · exact (msgsndFail_ends inv at_ .eidrm).mono fun w' r => Sends.not
  next lives =>
  obtain ⟨mine,mem⟩ := inv.holds at_ rfl
  have free : Alike w.msgs (w.msgs.lock (ipcidToIx a.msqidr) false) := .lock ..
  obtain ⟨s',ran,laid,still,_,others,first,last,queue⟩ := msgPut_spec (inv.laid.alike free) lives mine
  have still' : Still w.msgs s' := free.still.trans still
  have queueSame : s'.msqs (ipcidToIx a.msqidr) = { w.msgs.msqs (ipcidToIx a.msqidr) with locked := false, msgFirst := first, msgLast := last, msgCbytes := (w.msgs.msqs (ipcidToIx a.msqidr)).msgCbytes + (w.msgs.msghdrs h).msgTs, msgQnum := (w.msgs.msqs (ipcidToIx a.msqidr)).msgQnum + 1 } := by
    rw [queue,lock_at]
    rfl
  have othersSame (j : Nat) (ne : j ≠ ipcidToIx a.msqidr) : s'.msqs j = w.msgs.msqs j := (others j ne).trans (lock_else ne false)
  have qbytes (j : Nat) : (s'.msqs j).msgQbytes = (w.msgs.msqs j).msgQbytes := by
    by_cases is : j = ipcidToIx a.msqidr
    · subst is
      rw [queueSame]
    · rw [othersSame j is]
  have live : s'.live = w.msgs.live := live_congr qbytes
  have queues (j : Nat) : give hdrs (.call t) [] (.queue (ipcidToIx a.msqidr)) (hdrs (.queue (ipcidToIx a.msqidr)) ++ [h]) (.queue j) =
      if j = ipcidToIx a.msqidr then hdrs (.queue j) ++ [h] else hdrs (.queue j) := by
    split
    · next is =>
      subst is
      exact give_to
    · next ne => exact give_else nofun fun is => ne (Place.queue.inj is)
  have type : (w.msgs.msghdrs h).msgType = a.msgType := congrArg Letter.msgType letter
  have inv' : Inv c ((w.put s').goes t .idle) (give hdrs (.call t) [] (.queue (ipcidToIx a.msqidr)) (hdrs (.queue (ipcidToIx a.msqidr)) ++ [h])) segs := by
    refine inv.change (live ▸ laid) (fun j => ?_) (fun j gone => ?_) (fun j => ?_) (fun j x member => ?_) (give_from nofun) (fun u ne => ?_) ?_ trivial
      fun _ _ _ _ => still'.kept
    · rw [queues,funext still'.ts]
      obtain ⟨cbytes,qnum⟩ := inv.sums j
      split
      · next is =>
        subst is
        rw [queueSame,map_append,sum_append,length_append]
        simp only [map_cons,map_nil,sum_singleton,length_singleton]
        constructor
        · omega
        · omega
      next ne =>
      rw [othersSame j ne]
      exact ⟨cbytes,qnum⟩
    · rw [live] at gone
      rw [queues,inv.removed j gone]
      split
      · next is => exact absurd lives (is ▸ gone)
      · rfl
    · rw [qbytes]
      exact inv.room j
    · rw [queues] at member
      rw [still'.type]
      split at member
      · rcases mem_append.mp member with old | new
        · exact inv.types j x old
        rw [mem_singleton.mp new,type]
        exact pos
      · exact inv.types j x member
    · exact give_else (fun is => ne (call.inj is)) nofun
    refine inv.locks.release (ipcidToIx a.msqidr) (by rw [at_]; rfl) rfl ?_ fun j ne => ?_
    · rw [queueSame]
    · rw [othersSame j ne]
  obtain ⟨whole,shown⟩ := inv'.ends (ipcidToIx a.msqidr)
  rw [ran]
  refine ⟨_,_,rfl,whole,?_⟩
  unfold Sends
  refine shown.trans ?_
  rw [inv.mail_eq,inv'.mail_eq]
  have same (x : Nat) : letterAt c s' segs x = letterAt c w.msgs segs x := still'.kept.letter
  ext1
  · funext j
    simp only [Mail.post,goes_msgs,put_msgs,funext same,queues]
    by_cases is : j = ipcidToIx a.msqidr
    · subst is
      rw [if_pos rfl,update_self,map_append,map_singleton,letter]
    · rw [if_neg is,update_of_ne is]
  funext v
  have hand : (((w.put s').goes t .idle).threads v).hand = (w.threads v).hand := goes_hand (by rw [put_threads,at_]; rfl) v
  simp only [Mail.post,goes_msgs,put_msgs,funext same,hand]

theorem segsNeeded_le {m : Nat} : segsNeeded c n ≤ m ↔ n ≤ m * c.msgssz := by
  have size := c.msgssz_pos
  unfold segsNeeded
  rw [div_le_iff_le_mul_add_pred (by omega),mul_comm]
  omega

def Progress (c : Msginfo) (s : Msgs) (segs : Option Nat → List Nat) (a : Send) (h : Nat) (rest : List UInt8) (next : Option Nat) : Prop :=
  (s.msghdrs h).msgTs = a.text.length ∧ (s.msghdrs h).msgType = a.msgType ∧ 1 ≤ a.msgType ∧
    ∃ done todo,segs (some h) = done ++ todo ∧ next = todo.head? ∧ rest = a.text.drop (done.length * c.msgssz) ∧ Filled c.msgssz s.msgpool done a.text

theorem msgsndText_ends (inv : Inv c w hdrs segs) (at_ : w.threads t = .sndType a h) {next : Option Nat} {rest : List UInt8} (progress : Progress c w.msgs segs a h rest next) :
    Ends c (msgsndText c w t a h rest next) (Sends c w a) := by
  obtain ⟨ts,type,pos,done,todo,split,ahead,left,filled⟩ := progress
  obtain ⟨mine,mem⟩ := inv.holds at_ rfl
  have size := inv.laid.sizes (.call t) nofun h mem
  rw [split,length_append,ts] at size
  unfold msgsndText
  by_cases through : rest = []
  · have all : a.text.length ≤ done.length * c.msgssz := drop_eq_nil_iff.mp (left.symm.trans through)
    have none_ : todo = [] := by
      have := segsNeeded_le.mpr all
      exact eq_nil_of_length_eq_zero (by omega)
    subst none_
    have last : next = none := ahead
    rw [if_pos through,if_pos last]
    refine msgsndFinish_ends inv at_ ?_ pos
    unfold letterAt
    rw [type,ts,split,append_nil,filled.whole all]
  rw [if_neg through]
  have more : ¬a.text.length ≤ done.length * c.msgssz := fun all => through (left.trans (drop_eq_nil_iff.mpr all))
  cases todo with
  | nil =>
    exact absurd (segsNeeded_le.mp (le_of_eq size.symm)) more
  | cons p todo =>
    have low : p < c.msgseg := inv.laid.store.allot.below (some h) p (by rw [split]; simp)
    rw [ahead]
    dsimp only [head?_cons]
    rw [if_pos low]
    have fine : Fine c w.msgs segs (.sndText a h rest p) := ⟨ts,type,pos,done,todo,split,left,through,filled⟩
    obtain ⟨inv',same⟩ := inv.writes w.msgs (.sndText a h rest p) (by rw [at_]; rfl) rfl rfl rfl rfl (fun _ => rfl) (fun _ _ _ _ _ => (Still.refl _).kept) rfl
      (by rw [at_]; rfl) (by rw [at_]; rfl) rfl fine
    exact ⟨_,_,rfl,⟨hdrs,segs,inv'⟩,.not ⟨same,nofun⟩⟩

theorem msgsndText_goes (w : World) (call : Call) (t : Nat) (a : Send) (h : Nat) (rest : List UInt8) (next : Option Nat) :
    msgsndText c (w.goes t call) t a h rest next = msgsndText c w t a h rest next := by
  unfold msgsndText msgsndFinish
  simp only [goes_msgs,goes_put,goes_goes,msgsndFail_goes,broadcast_goes]

section
variable (inv : Inv c w hdrs segs)
include inv

theorem msgsndTyped_ends (at_ : w.threads t = .sndType a h) (stop : Option Nat) : Ends c (msgsndTyped c w t a h stop) (Sends c w a) := by
  obtain ⟨mine,mem⟩ := inv.holds at_ rfl
  have ts : (w.msgs.msghdrs h).msgTs = a.text.length := by
    have := inv.fine t
    rwa [at_] at this
  cases stop with
  | some n => exact (msgsndFail_ends inv at_ .efault).mono fun w' r => Sends.not
  | none =>
    obtain ⟨s',is⟩ : ∃ s',s' = w.msgs.setHdr h { w.msgs.msghdrs h with msgType := a.msgType } := ⟨_,rfl⟩
    have hdr (x : Nat) : s'.msghdrs x = { w.msgs.msghdrs x with msgType := if x = h then a.msgType else (w.msgs.msghdrs x).msgType } := by
      rw [is]
      by_cases same : x = h
      · subst same
        rw [setHdr_at,if_pos rfl]
      · rw [setHdr_else same,if_neg same]
    have kept (k : Place) (other : k ≠ .call t) (_ : k ≠ .free) (x : Nat) (member : x ∈ hdrs k) : Kept c w.msgs s' segs segs x := by
      have ne : x ≠ h := by
        rintro rfl
        exact inv.laid.allot.off mem other member
      exact ⟨by rw [hdr,if_neg ne],by rw [hdr],rfl,fun _ _ => by rw [is]; rfl⟩
    have spot (x : Nat) : (s'.msghdrs x).msgSpot = (w.msgs.msghdrs x).msgSpot := by rw [hdr]
    have next (x : Nat) : (s'.msghdrs x).msgNext = (w.msgs.msghdrs x).msgNext := by rw [hdr]
    have size (x : Nat) : (s'.msghdrs x).msgTs = (w.msgs.msghdrs x).msgTs := by rw [hdr]
    have fine : Fine c s' segs (.sndType a h) := (size h).trans ts
    obtain ⟨inv',same⟩ := inv.writes s' (.sndType a h) (by rw [at_]; rfl) (segLink_congr (by rw [is]; rfl) (by rw [is]; rfl) spot)
      (hdrLink_queue (fun _ => by rw [is]; rfl) (by rw [is]; rfl) next) (by rw [is]; rfl) (by rw [is]; rfl) size kept rfl (by rw [at_]) (by rw [at_]; rfl) rfl fine
    rw [goes_id (by rw [put_threads,at_])] at inv' same
    have at' : (w.put s').threads t = .sndType a h := at_
    unfold msgsndTyped
    dsimp only
    rw [← is]
    have through {w' : World} {r : Reply} (sent : Sends c (w.put s') a w' r) : Sends c w a w' r := by
      unfold Sends at sent ⊢
      rwa [same] at sent
    split
    · exact (msgsndFail_ends inv' at' .einval).mono fun w' r failed => through (.not failed)
    next valid =>
    refine (msgsndText_ends inv' at' ⟨(size h).trans ts,by rw [put_msgs,hdr,if_pos rfl],by omega,[],segs (some h),rfl,?_,by simp,.nil⟩).mono fun w' r => through
    exact (inv'.laid.store.chains (some h) (mem_inUse (k := call t) nofun mem)).first

theorem Inv.poked {rest : List UInt8} (at_ : w.threads t = .sndText a h rest p) (bytes : List UInt8) (fits : bytes.length ≤ c.msgssz) :
    Inv c ((w.put { w.msgs with msgpool := poke w.msgs.msgpool (p * c.msgssz) bytes }).goes t (.sndType a h)) hdrs segs ∧
      mail c ((w.put { w.msgs with msgpool := poke w.msgs.msgpool (p * c.msgssz) bytes }).goes t (.sndType a h)) = mail c w := by
  obtain ⟨mine,mem⟩ := inv.holds at_ rfl
  have fine := inv.fine t
  rw [at_] at fine
  obtain ⟨ts,_,_,done,todo,split,_⟩ := fine
  have here : p ∈ segs (some h) := by
    rw [split]
    simp
  have kept (k : Place) (other : k ≠ .call t) (_ : k ≠ .free) (x : Nat) (member : x ∈ hdrs k) :
      Kept c w.msgs { w.msgs with msgpool := poke w.msgs.msgpool (p * c.msgssz) bytes } segs segs x := by
    refine ⟨rfl,rfl,rfl,fun q inside => slice_poke_else fits ?_⟩
    rintro rfl
    have same := Option.some.inj (inv.laid.store.allot.apart _ _ _ inside here)
    exact inv.laid.allot.off mem other (same ▸ member)
  refine inv.writes _ (.sndType a h) (by rw [at_]; rfl) ?_ rfl rfl rfl (fun _ => rfl) kept rfl (by rw [at_]; rfl) (by rw [at_]; rfl) rfl ts
  exact segLink_congr rfl rfl fun _ => rfl

theorem msgsndCopied_ends {rest : List UInt8} (at_ : w.threads t = .sndText a h rest p) (stop : Option Nat) :
    Ends c (msgsndCopied c w t a h rest p stop) (Sends c w a) := by
  obtain ⟨mine,mem⟩ := inv.holds at_ rfl
  have fine := inv.fine t
  rw [at_] at fine
  obtain ⟨ts,type,pos,done,todo,split,left,some_,filled⟩ := fine
  have tlen : (if c.msgssz < rest.length then c.msgssz else rest.length) = min c.msgssz rest.length := by
    split <;> omega
  have chunk : rest.take (min c.msgssz rest.length) = rest.take c.msgssz := by
    rw [← take_take,take_length]
  have short : (rest.take c.msgssz).length ≤ c.msgssz := by
    rw [length_take]
    exact min_le_left ..
  unfold msgsndCopied
  dsimp only
  rw [tlen,chunk]
  cases stop with
  | some n =>
    obtain ⟨inv',same⟩ := inv.poked at_ ((rest.take c.msgssz).take n) (by rw [length_take]; exact le_trans (min_le_right ..) short)
    dsimp only
    rw [← msgsndFail_goes _ (.sndType a h)]
    refine (msgsndFail_ends inv' goes_self .efault).mono fun w' r failed => .not ?_
    rwa [same] at failed
  | none =>
    obtain ⟨inv',same⟩ := inv.poked at_ (rest.take c.msgssz) short
    rw [← msgsndText_goes _ (.sndType a h)]
    have more : done.length * c.msgssz < a.text.length := by
      by_contra all
      exact some_ (left.trans (drop_eq_nil_iff.mpr (Nat.le_of_not_lt all)))
    have off : p ∉ done := by
      have nodup := inv.laid.store.allot.nodup (some h)
      rw [split] at nodup
      exact fun before => (nodup_append.mp nodup).2.2 p before p mem_cons_self rfl
    have chain := inv.laid.store.chains (some h) (mem_inUse (k := call t) nofun mem)
    rw [split] at chain
    have next : w.msgs.msgmaps p = todo.head? := (chain_cons.mp (chain_append.mp chain).2).2.first
    refine (msgsndText_ends inv' goes_self ⟨ts,type,pos,done ++ [p],todo,?_,next,?_,filled.step off more (by rw [left])⟩).mono fun w' r sent => ?_
    · rw [split,append_assoc]
      rfl
    · have step : (done ++ [p]).length * c.msgssz = done.length * c.msgssz + c.msgssz := by
        rw [length_append,length_singleton,succ_mul]
      have drop : rest.drop (min c.msgssz rest.length) = rest.drop c.msgssz := by
        rcases le_total c.msgssz rest.length with full | part
        · rw [min_eq_left full]
        · rw [min_eq_right part,drop_length,drop_eq_nil_of_le part]
      rw [drop,step,left,drop_drop]
    unfold Sends at sent ⊢
    rwa [same] at sent

theorem msgsnd1_ends (idle : w.threads t = .idle) (granted : Bool) (a : Send) :
    Ends c (msgsnd1 c w granted t a) fun w' r => mail c w' = mail c w ∧ r ≠ .sent := by
  have refused (e : Errno) : Ends c (some (w,.fails e)) fun w' r => mail c w' = mail c w ∧ r ≠ .sent := ⟨w,_,rfl,⟨hdrs,segs,inv⟩,rfl,nofun⟩
  unfold msgsnd1
  dsimp only
  split
  · exact refused .einval
  split
  · exact refused .einval
  split
  · exact refused .einval
  split
  · exact refused .eacces
  · exact msgsndTry_ends inv idle a

theorem msgsndWake_ends {weOwnIt woken : Bool} (at_ : w.threads t = .sndWait a weOwnIt woken) (signal : Bool) :
    Ends c (msgsndWake c w t a weOwnIt signal) fun w' r => mail c w' = mail c w ∧ r ≠ .sent := by
  obtain ⟨w₁,is⟩ : ∃ w₁,w₁ = if weOwnIt then w.put (w.msgs.lock (ipcidToIx a.msqidr) false) else w := ⟨_,rfl⟩
  obtain ⟨inv',same⟩ := inv.rise at_ is
  unfold msgsndWake
  dsimp only
  rw [← is]
  split
  · exact ⟨_,_,rfl,⟨hdrs,segs,inv'⟩,same,nofun⟩
  split
  · exact ⟨_,_,rfl,⟨hdrs,segs,inv'⟩,same,nofun⟩
  rw [← msgsndTry_goes]
  refine (msgsndTry_ends inv' goes_self a).mono fun w' r quiet => ?_
  rwa [same] at quiet
end

-- A stretch of msgrcv1.
variable {a : Recv} {msgtyp type : Int}

def Asks (msgtyp type : Int) : Prop := msgtyp = 0 ∨ type = msgtyp ∨ msgtyp < 0 ∧ type ≤ -msgtyp

-- The negative of the least long is itself, and then no message matches.
theorem matches_asks (pos : 1 ≤ type) (hit : Matches msgtyp type) : Asks msgtyp type ∧ msgtyp ≠ -2147483648 := by
  unfold Matches negLong at hit
  unfold Asks
  split at hit <;> omega

theorem misses (pos : 1 ≤ type) (least : msgtyp ≠ -2147483648) (miss : ¬Matches msgtyp type) : ¬Asks msgtyp type := by
  unfold Matches negLong at miss
  unfold Asks
  omega

def Mail.take (m : Mail) (t ix : Nat) (letter : Letter) (left : List Letter) : Mail := ⟨update m.queues ix left,update m.hands t (some letter)⟩

def Receives (c : Msginfo) (w : World) (t : Nat) (a : Recv) (w' : World) (r : Reply) : Prop :=
  mail c w' = mail c w ∧ (r = .goesOn ∨ ∃ e,r = .fails e) ∨
    r = .goesOn ∧ ∃ letter front rest,(mail c w).queues (ipcidToIx a.msqidr) = front ++ letter :: rest ∧ Asks a.msgtyp letter.msgType ∧
      (∀ other ∈ front,¬Asks a.msgtyp other.msgType) ∧ (letter.text.length ≤ a.msgsz ∨ a.noerror = true) ∧
      mail c w' = (mail c w).take t (ipcidToIx a.msqidr) letter (front ++ rest)

def Hands (c : Msginfo) (w : World) (t : Nat) (a : Recv) (w' : World) (r : Reply) : Prop :=
  r = .goesOn ∧ mail c w' = mail c w ∨ (∃ e,r = .fails e ∧ mail c w' = (mail c w).drop t) ∨
    ∃ letter,(mail c w).hands t = some letter ∧ r = .received letter.msgType (letter.text.take a.msgsz) ∧ (letter.text.length ≤ a.msgsz ∨ a.noerror = true) ∧
      mail c w' = (mail c w).drop t

theorem Laid.length (laid : Laid c s up hdrs segs) (used : k ≠ .free) (mem : h ∈ hdrs k) : (letterAt c s segs h).text.length = (s.msghdrs h).msgTs := by
  have size := laid.sizes k used h mem
  have enough := segsNeeded_le.mp (le_of_eq size.symm)
  unfold letterAt
  rw [length_take,gather_length,min_eq_left enough]

theorem Inv.taken (inv : Inv c w hdrs segs) (idle : w.threads t = .idle) (lives : w.msgs.live ix) {front rest : List Nat} (out : Unlinked c w.msgs w.msgs.live hdrs segs ix t front h rest s')
    (cut : Cut w.msgs a h n) (is : s'' = s'.setQueue ix { s'.msqs ix with msgCbytes := (s'.msqs ix).msgCbytes - (s'.msghdrs h).msgTs, msgQnum := (s'.msqs ix).msgQnum - 1 }) :
    Inv c ((w.put s'').goes t (.rcvType a h n)) (give hdrs (.queue ix) (front ++ rest) (.call t) [h]) segs ∧
      mail c ((w.put s'').goes t (.rcvType a h n)) = (mail c w).take t ix (letterAt c w.msgs segs h) ((front ++ rest).map (letterAt c w.msgs segs)) := by
  obtain ⟨first,last,queue⟩ := out.queue
  have still : Still w.msgs s'' := is ▸ out.still.trans (setQueue_still ..)
  have here : s''.msqs ix = { w.msgs.msqs ix with msgFirst := first, msgLast := last, msgCbytes := (w.msgs.msqs ix).msgCbytes - (w.msgs.msghdrs h).msgTs, msgQnum := (w.msgs.msqs ix).msgQnum - 1 } := by
    rw [is,setQueue_at,queue,out.still.ts]
  have there (j : Nat) (ne : j ≠ ix) : s''.msqs j = w.msgs.msqs j := by
    rw [is,setQueue_else ne]
    exact out.others j ne
  have qbytes (j : Nat) : (s''.msqs j).msgQbytes = (w.msgs.msqs j).msgQbytes := by
    by_cases at_ : j = ix
    · subst at_
      rw [here]
    · rw [there j at_]
  have locked (j : Nat) : (s''.msqs j).locked = (w.msgs.msqs j).locked := by
    by_cases at_ : j = ix
    · subst at_
      rw [here]
    · rw [there j at_]
  have live := live_congr qbytes
  have laid : Laid c s'' w.msgs.live (give hdrs (.queue ix) (front ++ rest) (.call t) [h]) segs := by
    refine out.laid.frame (is ▸ setQueue_still ..) (is ▸ rfl) (fun _ => is ▸ rfl) fun j up => .inl ⟨up,?_⟩
    by_cases at_ : j = ix
    · subst at_
      rw [is,setQueue_at]
      exact ⟨rfl,rfl⟩
    rw [is,setQueue_else at_]
    exact ⟨rfl,rfl⟩
  have queues (j : Nat) : give hdrs (.queue ix) (front ++ rest) (.call t) [h] (.queue j) = if j = ix then front ++ rest else hdrs (.queue j) := by
    split
    · next at_ =>
      subst at_
      exact give_from (by simp)
    · next ne => exact give_else (fun eq => ne (Place.queue.inj eq)) (by simp)
  have kept (x : Nat) : Kept c w.msgs s'' segs segs x := still.kept
  have cut' : Fine c s'' segs (.rcvType a h n) := (kept h).cut cut
  have inv' : Inv c ((w.put s'').goes t (.rcvType a h n)) (give hdrs (.queue ix) (front ++ rest) (.call t) [h]) segs := by
    refine inv.change (live ▸ laid) (fun j => ?_) (fun j gone => ?_) (fun j => ?_) (fun j x member => ?_) give_to (fun u ne => ?_)
      (inv.locks.same locked (by rw [idle]; rfl)) cut' fun _ _ _ _ => still.kept
    · rw [queues,funext still.ts]
      obtain ⟨cbytes,qnum⟩ := inv.sums j
      split
      · next at_ =>
        subst at_
        rw [out.split] at cbytes qnum
        rw [here]
        simp only [map_append,map_cons,sum_append,sum_cons,length_append,length_cons] at cbytes qnum ⊢
        omega
      next ne =>
      rw [there j ne]
      exact ⟨cbytes,qnum⟩
    · rw [live] at gone
      rw [queues]
      split
      · next at_ => exact absurd lives (at_ ▸ gone)
      · exact inv.removed j gone
    · rw [qbytes]
      exact inv.room j
    · rw [queues] at member
      rw [still.type]
      split at member
      · next at_ =>
        subst at_
        refine inv.types j x ?_
        rw [out.split]
        rcases mem_append.mp member with before | after
        · exact mem_append_left _ before
        · exact mem_append_right _ (mem_cons_of_mem _ after)
      · exact inv.types j x member
    · exact give_else (by simp) fun eq => ne (call.inj eq)
  refine ⟨inv',?_⟩
  rw [inv.mail_eq,inv'.mail_eq]
  have same (x : Nat) : letterAt c s'' segs x = letterAt c w.msgs segs x := still.kept.letter
  ext1
  · funext j
    simp only [Mail.take,goes_msgs,put_msgs,funext same,queues]
    by_cases at_ : j = ix
    · subst at_
      rw [if_pos rfl,update_self]
    · rw [if_neg at_,update_of_ne at_]
  funext v
  simp only [Mail.take,goes_msgs,put_msgs,funext same]
  by_cases at_ : v = t
  · subst at_
    rw [goes_self,update_self]
    rfl
  · rw [goes_else at_,update_of_ne at_,put_threads]

theorem msgrcvTry_goes (w : World) (t : Nat) (a : Recv) : msgrcvTry c (w.goes t .idle) t a = msgrcvTry c w t a := by
  unfold msgrcvTry
  simp only [goes_msgs,goes_put,goes_goes]

section
variable (inv : Inv c w hdrs segs)
include inv

theorem msgrcvTry_ends (idle : w.threads t = .idle) (a : Recv) (lives : w.msgs.live (ipcidToIx a.msqidr)) :
    Ends c (msgrcvTry c w t a) (Receives c w t a) := by
  have stays : w.goes t .idle = w := goes_id idle
  have empty : hdrs (.call t) = [] := by
    rw [inv.held t,idle]
    rfl
  have takes := msgTake_spec (a := a) inv.laid lives empty
  unfold msgrcvTry
  dsimp only
  cases found : msgTake c w.msgs (ipcidToIx a.msqidr) a with
  | none =>
    rw [found] at takes
    exact takes.elim
  | some what =>
    rw [found] at takes
    cases what with
    | tooBig =>
      rw [stays]
      exact ⟨w,_,rfl,⟨hdrs,segs,inv⟩,.inl ⟨rfl,.inr ⟨_,rfl⟩⟩⟩
    | nothing =>
      dsimp only
      split
      · rw [stays]
        exact ⟨w,_,rfl,⟨hdrs,segs,inv⟩,.inl ⟨rfl,.inr ⟨_,rfl⟩⟩⟩
      have locks : Locks (update w.threads t (.rcvWait a false)) w.msgs := inv.locks.same (fun _ => rfl) (by rw [idle]; rfl)
      have inv' : Inv c ((w.put w.msgs).goes t (.rcvWait a false)) hdrs segs := inv.alike (.refl w.msgs) (by rw [idle]; rfl) locks trivial
      exact ⟨_,_,rfl,⟨hdrs,segs,inv'⟩,.inl ⟨inv.alike_mail (.refl w.msgs) (by rw [idle]; rfl) inv',.inl rfl⟩⟩
    | taken h s' =>
      obtain ⟨front,rest,out,missed,hit,fits⟩ := takes
      have mem : h ∈ hdrs (.queue (ipcidToIx a.msqidr)) := by
        rw [out.split]
        simp
      have ts := out.still.ts h
      have cut : Cut w.msgs a h (if (s'.msghdrs h).msgTs < a.msgsz then (s'.msghdrs h).msgTs else a.msgsz) := ⟨by rw [ts],fits⟩
      obtain ⟨inv',same⟩ := inv.taken idle lives out cut rfl
      obtain ⟨asked,least⟩ := matches_asks (inv.types _ h mem) hit
      refine ⟨_,_,rfl,⟨_,segs,inv'⟩,.inr ⟨rfl,letterAt c w.msgs segs h,front.map (letterAt c w.msgs segs),rest.map (letterAt c w.msgs segs),?_,asked,?_,?_,?_⟩⟩
      · rw [inv.mail_eq]
        dsimp only
        rw [out.split,map_append,map_cons]
      · intro other member
        obtain ⟨x,before,rfl⟩ := mem_map.mp member
        refine misses (inv.types (ipcidToIx a.msqidr) x ?_) least (missed x before)
        rw [out.split]
        exact mem_append_left _ before
      · rw [inv.laid.length (k := .queue (ipcidToIx a.msqidr)) nofun mem]
        exact fits
      rw [← map_append]
      exact same

theorem msgrcv1_ends (idle : w.threads t = .idle) (granted : Bool) (a : Recv) : Ends c (msgrcv1 c w granted t a) (Receives c w t a) := by
  have refused (e : Errno) : Ends c (some (w,.fails e)) (Receives c w t a) := ⟨w,_,rfl,⟨hdrs,segs,inv⟩,.inl ⟨rfl,.inr ⟨e,rfl⟩⟩⟩
  unfold msgrcv1
  dsimp only
  split
  · exact refused .einval
  split
  · exact refused .einval
  next lives =>
  split
  · exact refused .einval
  split
  · exact refused .eacces
  · exact msgrcvTry_ends inv idle a lives

theorem msgrcvWake_ends {woken : Bool} (at_ : w.threads t = .rcvWait a woken) (signal : Bool) :
    Ends c (msgrcvWake c w t a signal) (Receives c w t a) := by
  have locks : Locks (update w.threads t .idle) w.msgs := inv.locks.same (fun _ => rfl) (by rw [at_]; rfl)
  have inv' : Inv c ((w.put w.msgs).goes t .idle) hdrs segs := inv.alike (.refl w.msgs) (by rw [at_]; rfl) locks trivial
  have same : mail c ((w.put w.msgs).goes t .idle) = mail c w := inv.alike_mail (.refl w.msgs) (by rw [at_]; rfl) inv'
  have failed (e : Errno) : Ends c (some (w.goes t .idle,.fails e)) (Receives c w t a) := ⟨_,_,rfl,⟨hdrs,segs,inv'⟩,.inl ⟨same,.inr ⟨e,rfl⟩⟩⟩
  unfold msgrcvWake
  dsimp only
  split
  · exact failed .eintr
  split
  · exact failed .eidrm
  next there =>
  rw [not_or] at there
  rw [← msgrcvTry_goes]
  refine (msgrcvTry_ends inv' goes_self a there.1).mono fun w' r receives => ?_
  unfold Receives at receives ⊢
  rwa [same] at receives

theorem msgrcvFinish_ends (at_ : w.threads t = .rcvType a h n) (r : Reply) :
    Ends c (msgrcvFinish c w t a h r) fun w' r' => r' = r ∧ mail c w' = (mail c w).drop t := by
  obtain ⟨s',hdrs',segs',ran,msqs,freed⟩ := inv.freed (t := t) (h := h) (by rw [at_]; rfl)
  have locks : Locks (update w.threads t .idle) s' := inv.locks.same (fun j => by rw [msqs]) (by rw [at_]; rfl)
  obtain ⟨inv',same⟩ := freed s' (.refl s') locks
  obtain ⟨whole,shown⟩ := inv'.ends (ipcidToIx a.msqidr)
  unfold msgrcvFinish
  rw [ran]
  exact ⟨_,_,rfl,whole,rfl,shown.trans same⟩
end

theorem msgrcvText_goes (w : World) (call : Call) (t : Nat) (a : Recv) (h msgsz len : Nat) (got : List UInt8) (next : Option Nat) :
    msgrcvText c (w.goes t call) t a h msgsz len got next = msgrcvText c w t a h msgsz len got next := by
  unfold msgrcvText msgrcvFinish
  simp only [goes_msgs,goes_put,goes_goes,broadcast_goes]

theorem msgrcvFinish_goes (w : World) (call : Call) (t : Nat) (a : Recv) (h : Nat) (r : Reply) : msgrcvFinish c (w.goes t call) t a h r = msgrcvFinish c w t a h r := by
  unfold msgrcvFinish
  simp only [goes_msgs,goes_put,goes_goes,broadcast_goes]

theorem msgrcvText_ends (inv : Inv c w hdrs segs) (at_ : w.threads t = .rcvType a h n) {len : Nat} {got : List UInt8} {next : Option Nat} (done todo : List Nat)
    (split : segs (some h) = done ++ todo) (ahead : next = todo.head?) (length : len = done.length * c.msgssz)
    (read : got = ((letterAt c w.msgs segs h).text.take n).take len) : Ends c (msgrcvText c w t a h n len got next) (Hands c w t a) := by
  obtain ⟨mine,mem⟩ := inv.holds at_ rfl
  have fine := inv.fine t
  rw [at_] at fine
  obtain ⟨least,fits⟩ := fine
  have size := inv.laid.sizes (.call t) nofun h mem
  have whole := inv.laid.length (k := call t) nofun mem
  rw [split,length_append] at size
  have bound : n ≤ (w.msgs.msghdrs h).msgTs ∧ n ≤ a.msgsz := by
    split at least <;> omega
  have hand : (mail c w).hands t = some (letterAt c w.msgs segs h) := by
    rw [inv.mail_eq]
    dsimp only
    rw [at_]
    rfl
  unfold msgrcvText
  split_ifs with more
  · cases todo with
    | nil =>
      rw [length_nil,add_zero] at size
      have := segsNeeded_le.mp (le_of_eq size.symm)
      omega
    | cons p todo =>
      have low : p < c.msgseg := inv.laid.store.allot.below (some h) p (by rw [split]; simp)
      rw [ahead]
      dsimp only [head?_cons]
      rw [if_pos low]
      have fine : Fine c w.msgs segs (.rcvText a h n len got p) := ⟨⟨least,fits⟩,more,done,todo,split,length,read⟩
      have locks : Locks (update w.threads t (.rcvText a h n len got p)) w.msgs := inv.locks.same (fun _ => rfl) (by rw [at_]; rfl)
      have inv' : Inv c ((w.put w.msgs).goes t (.rcvText a h n len got p)) hdrs segs := inv.alike (.refl w.msgs) (by rw [at_]; rfl) locks fine
      exact ⟨_,_,rfl,⟨hdrs,segs,inv'⟩,.inl ⟨rfl,inv.alike_mail (.refl w.msgs) (by rw [at_]; rfl) inv'⟩⟩
  refine (msgrcvFinish_ends inv at_ _).mono fun w' r ends => ?_
  refine .inr (.inr ⟨letterAt c w.msgs segs h,hand,?_,by rw [whole]; exact fits,ends.2⟩)
  have text : got = (letterAt c w.msgs segs h).text.take a.msgsz := by
    rw [read,take_take,min_eq_right (by omega)]
    split at least
    · rw [take_of_length_le (by omega),take_of_length_le (by omega)]
    · rw [least]
  rw [ends.1,text]
  rfl

theorem msgrcvTyped_ends (inv : Inv c w hdrs segs) (at_ : w.threads t = .rcvType a h n) (stop : Option Nat) : Ends c (msgrcvTyped c w t a h n stop) (Hands c w t a) := by
  obtain ⟨mine,mem⟩ := inv.holds at_ rfl
  cases stop with
  | some m => exact (msgrcvFinish_ends inv at_ (.fails .efault)).mono fun w' r ends => .inr (.inl ⟨_,ends⟩)
  | none =>
    have head := (inv.laid.store.chains (some h) (mem_inUse (k := call t) nofun mem)).first
    exact msgrcvText_ends inv at_ [] (segs (some h)) rfl head (by simp) (by simp)

theorem msgrcvCopied_ends (inv : Inv c w hdrs segs) {len : Nat} {got : List UInt8} (at_ : w.threads t = .rcvText a h n len got p) (stop : Option Nat) :
    Ends c (msgrcvCopied c w t a h n len got p stop) (Hands c w t a) := by
  obtain ⟨mine,mem⟩ := inv.holds at_ rfl
  have fine := inv.fine t
  rw [at_] at fine
  obtain ⟨cut,more,done,todo,split,length,read⟩ := fine
  have locks : Locks (update w.threads t (.rcvType a h n)) w.msgs := inv.locks.same (fun _ => rfl) (by rw [at_]; rfl)
  have inv' : Inv c ((w.put w.msgs).goes t (.rcvType a h n)) hdrs segs := inv.alike (.refl w.msgs) (by rw [at_]; rfl) locks cut
  have same : mail c ((w.put w.msgs).goes t (.rcvType a h n)) = mail c w := inv.alike_mail (.refl w.msgs) (by rw [at_]; rfl) inv'
  have through {w' : World} {r : Reply} (hands : Hands c ((w.put w.msgs).goes t (.rcvType a h n)) t a w' r) : Hands c w t a w' r := by
    unfold Hands at hands ⊢
    rwa [same] at hands
  unfold msgrcvCopied
  cases stop with
  | some m =>
    rw [← msgrcvFinish_goes w (.rcvType a h n)]
    exact (msgrcvFinish_ends inv' goes_self (.fails .efault)).mono fun w' r ends => through (.inr (.inl ⟨_,ends⟩))
  | none =>
    rw [← msgrcvText_goes w (.rcvType a h n)]
    have chain := inv.laid.store.chains (some h) (mem_inUse (k := call t) nofun mem)
    rw [split] at chain
    have next : w.msgs.msgmaps p = todo.head? := (chain_cons.mp (chain_append.mp chain).2).2.first
    have tlen : (if c.msgssz < n - len then c.msgssz else n - len) = min c.msgssz (n - len) := by
      split <;> omega
    have step : (done ++ [p]).length * c.msgssz = done.length * c.msgssz + c.msgssz := by
      rw [length_append,length_singleton,succ_mul]
    refine (msgrcvText_ends inv' goes_self (done ++ [p]) todo (by rw [split,append_assoc]; rfl) next (by rw [step,length]) ?_).mono fun w' r => through
    have bound : n ≤ (w.msgs.msghdrs h).msgTs := by
      have := cut.1
      split at this <;> omega
    have text : (letterAt c w.msgs segs h).text.take n = (gather c.msgssz w.msgs.msgpool (done ++ p :: todo)).take n := by
      unfold letterAt
      rw [take_take,min_eq_left bound,split]
    have chunk : ((range (min c.msgssz (n - len))).map fun i => w.msgs.msgpool (p * c.msgssz + i)) = (slice c.msgssz w.msgs.msgpool p).take (n - len) := by
      rw [slice_take]
    rw [tlen,chunk,read]
    change _ = ((letterAt c w.msgs segs h).text.take n).take (len + c.msgssz)
    rw [text,length]
    exact take_gather.symm
end NetbsdAvr32.Sysvmsg
