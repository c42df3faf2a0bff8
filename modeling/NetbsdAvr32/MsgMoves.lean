import NetbsdAvr32.MsgHeap

-- A header goes to a sender, into a queue and out of it again.
namespace NetbsdAvr32.Sysvmsg
open Function Linked Allot List Place Msgs
variable {c : Msginfo} {s s' s'' : Msgs} {up up' : Nat → Prop} {hdrs : Place → List Nat} {segs segs' : Option Nat → List Nat} {h ix t n : Nat} {l rest : List Nat} {k : Place} {a : Recv}

-- The header at the front of the free list, before it gets its segments.
def hdrTaken (s : Msgs) (ix h n : Nat) : Msgs :=
  { s.lock ix true with freeMsghdrs := (s.msghdrs h).msgNext, msghdrs := update s.msghdrs h { s.msghdrs h with msgSpot := none, msgTs := n % 65536 } }

theorem lock_first (s : Msgs) (ix : Nat) (b : Bool) (j : Nat) : ((s.lock ix b).msqs j).msgFirst = (s.msqs j).msgFirst := by
  by_cases same : j = ix
  · subst same
    simp [lock,setQueue]
  · simp [lock,setQueue,update_of_ne same]

theorem lock_last (s : Msgs) (ix : Nat) (b : Bool) (j : Nat) : ((s.lock ix b).msqs j).msgLast = (s.msqs j).msgLast := by
  by_cases same : j = ix
  · subst same
    simp [lock,setQueue]
  · simp [lock,setQueue,update_of_ne same]

theorem hdrTaken_next (x : Nat) : (hdrTaken s ix h n).hdrLink (.next x) = s.hdrLink (.next x) := by
  change (update s.msghdrs h _ x).msgNext = (s.msghdrs x).msgNext
  by_cases same : x = h
  · subst same
    rw [update_self]
  · rw [update_of_ne same]

theorem hdrTaken_spot {x : Nat} (ne : x ≠ h) : (hdrTaken s ix h n).segLink (.head (some x)) = s.segLink (.head (some x)) := congrArg Msghdr.msgSpot (update_of_ne ne ..)

theorem free_unused (laid : Laid c s up hdrs segs) (mem : h ∈ hdrs .free) : ¬inUse hdrs (some h) := by
  rintro ⟨k,used,other⟩
  exact used (laid.allot.apart _ _ _ other mem)

theorem hdrTaken_laid (laid : Laid c s up hdrs segs) (empty : hdrs (.call t) = []) (first : hdrs .free = h :: rest) :
    SegLaid c (hdrTaken s ix h n) (inUse (give hdrs .free rest (.call t) [h])) segs := by
  have mem : h ∈ hdrs .free := first ▸ mem_cons_self
  have took : (hdrs .free).Perm (h :: rest) := first ▸ .refl _
  have gave : [h].Perm (h :: hdrs (.call t)) := empty ▸ .refl _
  have ne : free ≠ .call t := by simp
  have iff (x : Nat) := inUse_give laid.allot ne took gave x
  have spare := laid.store.idle _ (free_unused laid mem)
  have link (p : Nat) : (hdrTaken s ix h n).segLink (.next p) = s.segLink (.next p) := rfl
  refine ⟨laid.store.allot,laid.store.count,trivial,fun j lives => ?_,fun j dead => ?_⟩
  · cases j with
    | none => exact (laid.store.chains none trivial).frame rfl fun p _ => link p
    | some x =>
      by_cases same : x = h
      · subst same
        rw [spare]
        refine chain_nil.mpr ?_
        simp [segLink,hdrTaken]
      have was := (iff x).mp lives
      rw [if_neg same] at was
      exact (laid.store.chains _ was).frame (hdrTaken_spot same) fun p _ => link p
  cases j with
  | none => exact absurd trivial dead
  | some x =>
    by_cases same : x = h
    · exact same ▸ spare
    refine laid.store.idle _ fun was => dead ((iff x).mpr ?_)
    rw [if_neg same]
    exact was

theorem msgAlloc_spec (ix : Nat) (laid : Laid c s up hdrs segs) (empty : hdrs (.call t) = []) (some_ : s.freeMsghdrs ≠ none) (enough : (segsNeeded c n : Int) ≤ s.nfreeMsgmaps)
    (fits : n < 65536) : ∃ s' h rest segs',msgAlloc c s ix n = some (s',h) ∧ hdrs .free = h :: rest ∧ Laid c s' up (give hdrs .free rest (.call t) [h]) segs' ∧
      s'.msgpool = s.msgpool ∧ s'.msqs = (s.lock ix true).msqs ∧ (∀ x,x ≠ h → s'.msghdrs x = s.msghdrs x) ∧ (s'.msghdrs h).msgTs = n ∧
      ∀ j,j ≠ none → j ≠ some h → segs' j = segs j := by
  have head : s.freeMsghdrs = (hdrs .free).head? := laid.free.first
  cases first : hdrs .free with
  | nil =>
    rw [first] at head
    exact absurd head some_
  | cons h rest =>
    rw [first] at head
    have mem : h ∈ hdrs .free := first ▸ mem_cons_self
    have took : (hdrs .free).Perm (h :: rest) := first ▸ .refl _
    have gave : [h].Perm (h :: hdrs (.call t)) := empty ▸ .refl _
    have ne : free ≠ .call t := nofun
    have lives : inUse (give hdrs .free rest (.call t) [h]) (some h) := by
      refine (inUse_give laid.allot ne took gave h).mpr ?_
      rw [if_pos rfl]
      exact nofun
    have room : segsNeeded c n ≤ (segs none).length := by
      have := laid.store.count
      omega
    obtain ⟨s',segs',ran,laid',near,ts,length,others⟩ := takeSegs_spec _ (@hdrTaken_laid c s up hdrs segs h ix t n rest laid empty first) lives room
    have size : (s'.msghdrs h).msgTs = n := by
      rw [ts]
      refine (congrArg Msghdr.msgTs (update_self ..)).trans ?_
      exact Nat.mod_eq_of_lt fits
    have same (x : Nat) (other : x ≠ h) : s'.msghdrs x = s.msghdrs x := (near.hdrs x other).trans (update_of_ne other ..)
    have links (x : Nat) : s'.hdrLink (.next x) = s.hdrLink (.next x) := by
      rw [near.hdrLink]
      exact hdrTaken_next x
    refine ⟨s',h,rest,segs',?_,rfl,⟨laid.allot.move ne took gave,?_,fun j lives => ?_,fun j lives => ?_,laid',fun k used x member => ?_⟩,near.pool,near.msqs,same,size,others⟩
    · rw [msgAlloc,head]
      dsimp only [head?_cons]
      have equal : setHdr { s.lock ix true with freeMsghdrs := (s.msghdrs h).msgNext } h
          { msghdrs { s.lock ix true with freeMsghdrs := (s.msghdrs h).msgNext } h with msgSpot := none, msgTs := n % 65536 } = hdrTaken s ix h n := rfl
      rw [equal,ran]
    · refine (first ▸ laid.free : Chain s.hdrLink (.head none) (h :: rest)).pop ?_ fun x _ => links x
      rw [near.hdrLink]
      rfl
    · refine (laid.queues j lives).frame ?_ fun x _ => links x
      rw [near.hdrLink]
      exact lock_first s ix true j
    · rw [give_else (k := queue j) (a := .free) (b := .call t) nofun nofun,near.msqs]
      exact (lock_last s ix true j).trans (laid.lasts j lives)
    rw [mem_give ne took gave laid.allot] at member
    split at member
    · next is =>
      subst is
      rw [length,laid.store.idle _ (free_unused laid mem),size]
      exact Nat.zero_add _
    next other =>
    rw [same x other,others (some x) nofun (by rintro ⟨⟩; exact other rfl)]
    exact laid.sizes k used x member

theorem msgPut_spec (laid : Laid c s up hdrs segs) (lives : up ix) (mine : hdrs (.call t) = [h]) :
    ∃ s',msgPut s ix h = some s' ∧ Laid c s' up (give hdrs (.call t) [] (.queue ix) (hdrs (.queue ix) ++ [h])) segs ∧ Still s s' ∧ s'.freeMsghdrs = s.freeMsghdrs ∧
      (∀ j,j ≠ ix → s'.msqs j = s.msqs j) ∧ ∃ first last,s'.msqs ix =
        { s.msqs ix with msgFirst := first, msgLast := last, msgCbytes := (s.msqs ix).msgCbytes + (s.msghdrs h).msgTs, msgQnum := (s.msqs ix).msgQnum + 1 } := by
  have mem : h ∈ hdrs (.call t) := mine ▸ mem_cons_self
  have took : (hdrs (.call t)).Perm (h :: []) := mine ▸ .refl _
  have gave : (hdrs (.queue ix) ++ [h]).Perm (h :: hdrs (.queue ix)) := perm_append_singleton ..
  have ne : Place.call t ≠ .queue ix := nofun
  have chain := laid.queues ix lives
  have off : h ∉ hdrs (.queue ix) := laid.allot.off mem (Ne.symm ne)
  have ran : ∃ s₁,msgLink s ix h = some s₁ ∧ Still s s₁ ∧ s₁.freeMsghdrs = s.freeMsghdrs ∧ (∀ j,j ≠ ix → s₁.msqs j = s.msqs j) ∧
      (∃ first,s₁.msqs ix = { s.msqs ix with msgFirst := first, msgLast := some h }) ∧ s₁.hdrLink (lastSlot (.head (some ix)) (hdrs (.queue ix))) = some h ∧
      ∀ x,x ≠ lastSlot (.head (some ix)) (hdrs (.queue ix)) → s₁.hdrLink x = s.hdrLink x := by
    unfold msgLink
    have first : (s.msqs ix).msgFirst = (hdrs (.queue ix)).head? := chain.first
    have last := laid.lasts ix lives
    rcases eq_nil_or_concat (hdrs (.queue ix)) with none_ | ⟨front,z,more⟩
    · rw [none_] at first ⊢
      rw [first]
      exact ⟨_,rfl,setQueue_still ..,rfl,fun j ne => setQueue_else ne,⟨_,setQueue_at⟩,hdrLink_setQueue_self,fun x ne => hdrLink_setQueue ne⟩
    rw [concat_eq_append] at more
    rw [more,getLast?_concat] at last
    obtain ⟨y,isHead⟩ : ∃ y,(s.msqs ix).msgFirst = some y := by
      rw [first,more]
      cases front <;> exact ⟨_,rfl⟩
    rw [isHead,last]
    have slot : lastSlot (.head (some ix)) (hdrs (.queue ix)) = .next z := by
      rw [more,lastSlot_append]
      rfl
    rw [slot]
    refine ⟨_,rfl,(setHdr_still s z _).trans (setQueue_still ..),rfl,fun j ne => setQueue_else ne,⟨_,setQueue_at⟩,?_,fun x other => ?_⟩
    · exact hdrLink_setHdr_self
    by_cases head : x = .head (some ix)
    · subst head
      exact hdrLink_setQueue_self
    rw [hdrLink_setQueue head]
    exact hdrLink_setHdr other
  obtain ⟨s₁,linked,still,free,queues,⟨first,queue⟩,here,same⟩ := ran
  have lastOff : lastSlot (.head (some ix)) (hdrs (.queue ix)) ≠ .next h := by
    intro is
    rcases lastSlot_mem (.head (some ix)) (hdrs (.queue ix)) with equal | ⟨q,member,equal⟩
    · rw [equal] at is
      cases is
    rw [equal] at is
    cases is
    exact off member
  obtain ⟨s',is⟩ : ∃ s',s' = (s₁.setHdr h { s₁.msghdrs h with msgNext := none }).setQueue ix
      { s₁.msqs ix with msgCbytes := (s₁.msqs ix).msgCbytes + (s₁.msghdrs h).msgTs, msgQnum := (s₁.msqs ix).msgQnum + 1 } := ⟨_,rfl⟩
  have put : msgPut s ix h = some s' := by
    rw [msgPut,linked,is]
    simp only [setHdr_at]
    rfl
  have still' : Still s s' := is ▸ still.trans ((setHdr_still s₁ h none).trans (setQueue_still ..))
  have link (x : Slot (Option Nat) Nat) : s'.hdrLink x = if x = .next h then none else s₁.hdrLink x := by
    rw [is]
    have kept : ((s₁.setHdr h { s₁.msghdrs h with msgNext := none }).setQueue ix
        { s₁.msqs ix with msgCbytes := (s₁.msqs ix).msgCbytes + (s₁.msghdrs h).msgTs, msgQnum := (s₁.msqs ix).msgQnum + 1 }).hdrLink x =
        (s₁.setHdr h { s₁.msghdrs h with msgNext := none }).hdrLink x := by
      by_cases head : x = .head (some ix)
      · subst head
        exact hdrLink_setQueue_self
      · exact hdrLink_setQueue head
    rw [kept]
    split
    · next at_ =>
      subst at_
      exact hdrLink_setHdr_self
    · next other => exact hdrLink_setHdr other
  have msqs' : ∀ j,j ≠ ix → s'.msqs j = s.msqs j := by
    intro j other
    rw [is]
    exact (setQueue_else other).trans (queues j other)
  have msqs : s'.msqs ix = { s.msqs ix with msgFirst := first, msgLast := some h, msgCbytes := (s.msqs ix).msgCbytes + (s.msghdrs h).msgTs, msgQnum := (s.msqs ix).msgQnum + 1 } := by
    rw [is,setQueue_at,queue,still.ts]
  have away (j : Place) (other : j ≠ .queue ix) (source : j ≠ .call t) (slot : Slot (Option Nat) Nat) (list : Chain s.hdrLink slot (hdrs j)) (head : ∃ i,slot = .head i ∧ i ≠ some ix) :
      Chain s'.hdrLink slot (hdrs j) := by
    obtain ⟨i,rfl,apart⟩ := head
    have stays (x : Slot (Option Nat) Nat) (nh : x ≠ .next h) (nl : x ≠ lastSlot (.head (some ix)) (hdrs (.queue ix))) : s'.hdrLink x = s.hdrLink x := by
      rw [link,if_neg nh]
      exact same x nl
    have notLast (x : Slot (Option Nat) Nat) (far : x ≠ .head (some ix)) (out : ∀ q ∈ hdrs (.queue ix),x ≠ .next q) : x ≠ lastSlot (.head (some ix)) (hdrs (.queue ix)) := by
      rintro rfl
      rcases lastSlot_mem (.head (some ix)) (hdrs (.queue ix)) with equal | ⟨q,member,equal⟩
      · exact far equal
      · exact out q member equal
    refine list.frame (stays _ nofun (notLast _ ?_ nofun)) fun x member => stays _ ?_ (notLast _ nofun fun q there => ?_)
    · rintro ⟨⟩
      exact apart rfl
    · rintro ⟨⟩
      exact laid.allot.off mem source member
    rintro ⟨⟩
    exact other (laid.allot.apart _ _ _ member there)
  refine ⟨s',put,⟨laid.allot.move ne took gave,?_,fun j lives' => ?_,fun j lives' => ?_,?_,fun k used x member => ?_⟩,still',?_,msqs',first,some h,msqs⟩
  · exact away .free nofun nofun _ laid.free ⟨none,rfl,nofun⟩
  · by_cases at_ : j = ix
    · subst at_
      rw [give_to]
      have whole : Chain s.hdrLink (.head (some j)) (hdrs (.queue j) ++ []) := by
        rw [append_nil]
        exact chain
      refine whole.insert (by rw [append_nil]; exact laid.allot.nodup _) nofun nofun (by rw [append_nil]; exact off) ?_ ?_ ?_
      · rw [link,if_neg lastOff]
        exact here
      · rw [link,if_pos rfl]
        rfl
      intro x one two
      rw [link,if_neg two]
      exact same x one
    have other : Place.queue j ≠ .queue ix := fun eq => at_ (Place.queue.inj eq)
    rw [give_else (k := Place.queue j) (a := .call t) nofun other]
    refine away _ other nofun _ (laid.queues j lives') ⟨some j,rfl,fun eq => at_ (Option.some.inj eq)⟩
  · by_cases at_ : j = ix
    · subst at_
      rw [give_to,msqs,getLast?_concat]
    have other : Place.queue j ≠ .queue ix := fun eq => at_ (Place.queue.inj eq)
    rw [give_else (k := Place.queue j) (a := .call t) nofun other,msqs' j at_]
    exact laid.lasts j lives'
  · refine (laid.store.still still').relive trivial (fun j now => ?_) (fun j was => ?_)
    · match j with
      | none => exact .inl trivial
      | some x =>
        have now := (inUse_give laid.allot ne took gave x).mp now
        split at now
        · next eq => exact .inl (eq ▸ mem_inUse (k := Place.call t) nofun mem)
        · exact .inl now
    match j with
    | none => exact .inl trivial
    | some x =>
      refine .inl ((inUse_give laid.allot ne took gave x).mpr ?_)
      split
      · exact nofun
      · exact was
  · rw [still'.ts]
    rw [mem_give ne took gave laid.allot] at member
    split at member
    · next eq => exact eq ▸ laid.sizes (.call t) nofun h mem
    · exact laid.sizes k used x member
  · rw [is]
    exact free

def Matches (msgtyp type : Int) : Prop := msgtyp = 0 ∨ ¬(msgtyp ≠ type ∧ negLong msgtyp < type)

structure Unlinked (c : Msginfo) (s : Msgs) (up : Nat → Prop) (hdrs : Place → List Nat) (segs : Option Nat → List Nat) (ix t : Nat) (front : List Nat) (h : Nat) (rest : List Nat)
    (s' : Msgs) : Prop where
  split : hdrs (.queue ix) = front ++ h :: rest
  laid : Laid c s' up (give hdrs (.queue ix) (front ++ rest) (.call t) [h]) segs
  still : Still s s'
  free : s'.freeMsghdrs = s.freeMsghdrs
  others : ∀ j,j ≠ ix → s'.msqs j = s.msqs j
  queue : ∃ first last,s'.msqs ix = { s.msqs ix with msgFirst := first, msgLast := last }

theorem unlink_laid {front : List Nat} (laid : Laid c s up hdrs segs) (lives : up ix) (empty : hdrs (.call t) = []) (split : hdrs (.queue ix) = front ++ h :: rest) (still : Still s s')
    (here : s'.hdrLink (lastSlot (.head (some ix)) front) = s.hdrLink (.next h)) (same : ∀ x,x ≠ lastSlot (.head (some ix)) front → s'.hdrLink x = s.hdrLink x)
    (others : ∀ j,j ≠ ix → s'.msqs j = s.msqs j) (last : (s'.msqs ix).msgLast = (front ++ rest).getLast?) :
    Laid c s' up (give hdrs (.queue ix) (front ++ rest) (.call t) [h]) segs := by
  have mem : h ∈ hdrs (.queue ix) := split ▸ by simp
  have took : (hdrs (.queue ix)).Perm (h :: (front ++ rest)) := split ▸ perm_middle
  have gave : [h].Perm (h :: hdrs (.call t)) := empty ▸ .refl _
  have ne : queue ix ≠ .call t := nofun
  have nodup := laid.allot.nodup (.queue ix)
  have chain := laid.queues ix lives
  rw [split] at nodup chain
  have inFront (x : Slot (Option Nat) Nat) (far : x ≠ .head (some ix)) (out : ∀ q ∈ hdrs (.queue ix),x ≠ .next q) : x ≠ lastSlot (.head (some ix)) front := by
    rintro rfl
    rcases lastSlot_mem (.head (some ix)) front with equal | ⟨q,member,equal⟩
    · exact far equal
    · exact out q (by rw [split]; exact mem_append_left _ member) equal
  have away (j : Place) (other : j ≠ .queue ix) (slot : Slot (Option Nat) Nat) (list : Chain s.hdrLink slot (hdrs j)) (head : slot ≠ .head (some ix)) (isHead : ∀ q,slot ≠ .next q) :
      Chain s'.hdrLink slot (hdrs j) := by
    refine list.frame (same _ (inFront _ head fun q _ => isHead q)) fun x member => same _ (inFront _ nofun fun q there => ?_)
    rintro ⟨⟩
    exact other (laid.allot.apart _ _ _ member there)
  refine ⟨laid.allot.move ne took gave,?_,fun j lives' => ?_,fun j lives' => ?_,?_,fun k used x member => ?_⟩
  · exact away .free nofun _ laid.free nofun nofun
  · by_cases at_ : j = ix
    · subst at_
      rw [give_from ne]
      exact chain.unlink nodup nofun here fun x far _ => same x far
    have other : queue j ≠ .queue ix := fun eq => at_ (queue.inj eq)
    rw [give_else (k := queue j) (b := .call t) other nofun]
    exact away _ other _ (laid.queues j lives') (fun eq => at_ (Option.some.inj (Slot.head.inj eq))) nofun
  · by_cases at_ : j = ix
    · subst at_
      rw [give_from ne]
      exact last
    have other : queue j ≠ .queue ix := fun eq => at_ (queue.inj eq)
    rw [give_else (k := queue j) (b := .call t) other nofun,others j at_]
    exact laid.lasts j lives'
  · refine (laid.store.still still).relive trivial (fun j now => ?_) (fun j was => ?_)
    · match j with
      | none => exact .inl trivial
      | some x =>
        have now := (inUse_give laid.allot ne took gave x).mp now
        split at now
        · next eq => exact .inl (eq ▸ mem_inUse (k := queue ix) nofun mem)
        · exact .inl now
    match j with
    | none => exact .inl trivial
    | some x =>
      refine .inl ((inUse_give laid.allot ne took gave x).mpr ?_)
      split
      · exact nofun
      · exact was
  rw [still.ts]
  rw [mem_give ne took gave laid.allot] at member
  split at member
  · next eq => exact eq ▸ laid.sizes (.queue ix) nofun h mem
  · exact laid.sizes k used x member

def Takes (c : Msginfo) (s : Msgs) (up : Nat → Prop) (hdrs : Place → List Nat) (segs : Option Nat → List Nat) (ix t : Nat) (a : Recv) : Option Found → Prop
  | none => False
  | some .nothing => ∀ x ∈ hdrs (.queue ix),¬Matches a.msgtyp (s.msghdrs x).msgType
  | some .tooBig => True
  | some (.taken h s') => ∃ front rest,Unlinked c s up hdrs segs ix t front h rest s' ∧ (∀ x ∈ front,¬Matches a.msgtyp (s.msghdrs x).msgType) ∧
      Matches a.msgtyp (s.msghdrs h).msgType ∧ ((s.msghdrs h).msgTs ≤ a.msgsz ∨ a.noerror = true)

theorem big_iff : ¬((s.msghdrs h).msgTs > a.msgsz ∧ a.noerror = false) ↔ (s.msghdrs h).msgTs ≤ a.msgsz ∨ a.noerror = true := by
  cases a.noerror <;> simp

theorem takeFirst_spec (laid : Laid c s up hdrs segs) (lives : up ix) (empty : hdrs (.call t) = []) (any : a.msgtyp = 0) : Takes c s up hdrs segs ix t a (takeFirst s ix a) := by
  have chain := laid.queues ix lives
  have first : (s.msqs ix).msgFirst = (hdrs (.queue ix)).head? := chain.first
  have last := laid.lasts ix lives
  unfold takeFirst
  cases split : hdrs (.queue ix) with
  | nil =>
    rw [split] at first
    rw [first]
    exact fun x mem => absurd (split ▸ mem) not_mem_nil
  | cons h rest =>
    rw [split] at first last chain
    have nodup := laid.allot.nodup (.queue ix)
    rw [split] at nodup
    have next : (s.msghdrs h).msgNext = rest.head? := (chain_cons.mp chain).2.first
    simp only [first,head?_cons]
    split
    · trivial
    next big =>
    split
    · next one =>
      have alone : rest = [] := by
        rw [last] at one
        rcases eq_nil_or_concat rest with none_ | ⟨front,z,more⟩
        · exact none_
        rw [more,concat_eq_append,← cons_append,getLast?_concat] at one
        cases one
        rw [more] at nodup
        exact absurd (nodup_cons.mp nodup).1 (by simp)
      subst alone
      refine ⟨[],[],⟨split,?_,setQueue_still ..,rfl,fun j ne => setQueue_else ne,_,_,setQueue_at⟩,nofun,.inl any,big_iff.mp big⟩
      exact unlink_laid laid lives empty split (setQueue_still ..) (hdrLink_setQueue_self.trans next.symm) (fun x ne => hdrLink_setQueue ne) (fun j ne => setQueue_else ne)
        (congrArg MsqidDs.msgLast setQueue_at)
    next one =>
    have more : rest ≠ [] := by
      rintro rfl
      exact one last.symm
    have alive : (s.msghdrs h).msgNext ≠ none := by
      rw [next]
      exact fun none_ => more (head?_eq_none_iff.mp none_)
    rw [if_neg alive]
    refine ⟨[],rest,⟨split,?_,setQueue_still ..,rfl,fun j ne => setQueue_else ne,_,_,setQueue_at⟩,nofun,.inl any,big_iff.mp big⟩
    refine unlink_laid laid lives empty split (setQueue_still ..) hdrLink_setQueue_self (fun x ne => hdrLink_setQueue ne) (fun j ne => setQueue_else ne) ?_
    rw [setQueue_at]
    refine last.trans ?_
    cases rest with
    | nil => exact absurd rfl more
    | cons y rest => exact getLast?_cons_cons ..

theorem prevSlot_eq (ix : Nat) (front : List Nat) : prevSlot ix front.getLast? = lastSlot (.head (some ix)) front := by
  rcases eq_nil_or_concat front with rfl | ⟨init,z,rfl⟩
  · rfl
  rw [concat_eq_append,getLast?_concat,lastSlot_append]
  rfl

theorem setPrev_spec (ix : Nat) (front : List Nat) (v : Option Nat) : Still s (s.setHdrLink (lastSlot (.head (some ix)) front) v) ∧
    (s.setHdrLink (lastSlot (.head (some ix)) front) v).freeMsghdrs = s.freeMsghdrs ∧ (∀ j,j ≠ ix → (s.setHdrLink (lastSlot (.head (some ix)) front) v).msqs j = s.msqs j) ∧
    (∃ first,(s.setHdrLink (lastSlot (.head (some ix)) front) v).msqs ix = { s.msqs ix with msgFirst := first }) ∧
    (s.setHdrLink (lastSlot (.head (some ix)) front) v).hdrLink (lastSlot (.head (some ix)) front) = v ∧
    ∀ x,x ≠ lastSlot (.head (some ix)) front → (s.setHdrLink (lastSlot (.head (some ix)) front) v).hdrLink x = s.hdrLink x := by
  rcases lastSlot_mem (.head (some ix)) front with equal | ⟨q,_,equal⟩
  · rw [equal]
    exact ⟨setQueue_still ..,rfl,fun j ne => setQueue_else ne,⟨_,setQueue_at⟩,hdrLink_setQueue_self,fun x ne => hdrLink_setQueue ne⟩
  rw [equal]
  exact ⟨setHdr_still ..,rfl,fun _ _ => rfl,⟨_,rfl⟩,hdrLink_setHdr_self,fun x ne => hdrLink_setHdr ne⟩

theorem takeTyped_spec (laid : Laid c s up hdrs segs) (lives : up ix) (empty : hdrs (.call t) = []) (some_ : a.msgtyp ≠ 0) (rest : List Nat) {front : List Nat} {fuel : Nat}
    (split : hdrs (.queue ix) = front ++ rest) (enough : rest.length < fuel) (passed : ∀ x ∈ front,¬Matches a.msgtyp (s.msghdrs x).msgType) :
    Takes c s up hdrs segs ix t a (takeTyped s ix a fuel front.getLast?) := by
  induction rest generalizing front fuel with
  | nil =>
    cases fuel with
    | zero => exact absurd enough (Nat.not_lt_zero _)
    | succ fuel =>
      have chain := laid.queues ix lives
      rw [split] at chain
      have stop : s.hdrLink (prevSlot ix front.getLast?) = none := by
        rw [prevSlot_eq]
        exact chain_nil.mp (chain_append.mp chain).2
      rw [takeTyped,stop]
      intro x mem
      rw [split,append_nil] at mem
      exact passed x mem
  | cons h rest ih =>
    cases fuel with
    | zero => exact absurd enough (Nat.not_lt_zero _)
    | succ fuel =>
      have chain := laid.queues ix lives
      rw [split] at chain
      have here : s.hdrLink (lastSlot (.head (some ix)) front) = some h := (chain_cons.mp (chain_append.mp chain).2).1
      rw [takeTyped,prevSlot_eq,here]
      dsimp only
      split
      · next miss =>
        have next := @ih (front ++ [h]) fuel (by rw [split,append_assoc]; rfl) (Nat.lt_of_succ_lt_succ enough) ?_
        · rwa [getLast?_concat] at next
        intro x mem
        rcases mem_append.mp mem with before | here
        · exact passed x before
        rw [mem_singleton.mp here]
        exact fun is => is.elim some_ fun hit => hit miss
      next miss =>
      split
      · trivial
      next big =>
      have next : (s.msghdrs h).msgNext = rest.head? := (chain_cons.mp (chain_append.mp chain).2).2.first
      have last := laid.lasts ix lives
      have nodup := laid.allot.nodup (.queue ix)
      rw [split] at last nodup
      have hit : Matches a.msgtyp (s.msghdrs h).msgType := .inr miss
      obtain ⟨s₁,is⟩ : ∃ s₁,s₁ = s.setHdrLink (lastSlot (.head (some ix)) front) (s.msghdrs h).msgNext := ⟨_,rfl⟩
      obtain ⟨still,free,others,⟨first,queue⟩,link,same⟩ := setPrev_spec (s := s) ix front (s.msghdrs h).msgNext
      rw [← is] at still free others queue link same ⊢
      have lastKept : (s₁.msqs ix).msgLast = (s.msqs ix).msgLast := by rw [queue]
      rw [lastKept]
      split
      · next more =>
        refine ⟨front,rest,⟨split,?_,still,free,others,_,_,queue⟩,passed,hit,big_iff.mp big⟩
        refine unlink_laid laid lives empty split still link same others ?_
        rw [lastKept,last]
        rw [last] at more
        cases rest with
        | nil => exact absurd (getLast?_concat ..).symm more
        | cons y rest => simp
      next more =>
      have alone : rest = [] := by
        rcases eq_nil_or_concat rest with none_ | ⟨init,z,is⟩
        · exact none_
        rw [last,is,concat_eq_append,← cons_append,← append_assoc,getLast?_concat] at more
        cases not_not.mp more
        rw [is] at nodup
        exact absurd (nodup_cons.mp (nodup_append.mp nodup).2.1).1 (by simp)
      subst alone
      rcases eq_nil_or_concat front with rfl | ⟨init,z,rfl⟩
      · refine ⟨[],[],⟨split,?_,still.trans (setQueue_still ..),free,fun j ne => (setQueue_else ne).trans (others j ne),none,none,?_⟩,passed,hit,big_iff.mp big⟩
        · refine unlink_laid laid lives empty split (still.trans (setQueue_still ..)) (hdrLink_setQueue_self.trans next.symm) (fun x ne => (hdrLink_setQueue ne).trans (same x ne))
            (fun j ne => (setQueue_else ne).trans (others j ne)) (congrArg MsqidDs.msgLast setQueue_at)
        · rw [setQueue_at,queue]
      simp only [concat_eq_append] at *
      rw [getLast?_concat]
      refine ⟨init ++ [z],[],⟨split,?_,still.trans (setQueue_still ..),free,fun j ne => (setQueue_else ne).trans (others j ne),first,some z,?_⟩,passed,hit,big_iff.mp big⟩
      · have kept (x : Slot (Option Nat) Nat) : (s₁.setQueue ix { s₁.msqs ix with msgLast := some z }).hdrLink x = s₁.hdrLink x := by
          by_cases head : x = .head (some ix)
          · subst head
            exact hdrLink_setQueue_self
          · exact hdrLink_setQueue head
        refine unlink_laid laid lives empty split (still.trans (setQueue_still ..)) ((kept _).trans link) (fun x ne => (kept x).trans (same x ne))
          (fun j ne => (setQueue_else ne).trans (others j ne)) ?_
        rw [setQueue_at,append_nil,getLast?_concat]
      · rw [setQueue_at,queue]

theorem msgTake_spec (laid : Laid c s up hdrs segs) (lives : up ix) (empty : hdrs (.call t) = []) : Takes c s up hdrs segs ix t a (msgTake c s ix a) := by
  unfold msgTake
  split
  · next any => exact takeFirst_spec laid lives empty any
  next some_ =>
  have short := laid.allot.length_le (.queue ix)
  exact @takeTyped_spec c s up hdrs segs ix t a laid lives empty some_ (hdrs (.queue ix)) [] (c.msgtql + 1) rfl (by omega) nofun

-- What the calls leave true for each other, and the mail that the headers and
-- segments hold.
open Scatter Sysvsem
structure Letter where
  msgType : Int
  text : List UInt8
  deriving DecidableEq, Repr

def letterOf (c : Msginfo) (s : Msgs) (h : Nat) : Letter :=
  ⟨(s.msghdrs h).msgType,(gather c.msgssz s.msgpool (walkSlots s.segLink (c.msgseg + 1) (.head (some h)))).take (s.msghdrs h).msgTs⟩

-- The messages of every queue in the order of their arrival, and the one that a
-- receiver has taken and not yet returned.
@[ext] structure Mail where
  queues : Nat → List Letter
  hands : Nat → Option Letter

def Call.hand : Call → Option Nat
  | .rcvType _ h _ => some h
  | .rcvText _ h _ _ _ _ => some h
  | _ => none

def mail (c : Msginfo) (w : World) : Mail where
  queues ix := if (w.msgs.msqs ix).msgQbytes = 0 then [] else (walkSlots w.msgs.hdrLink (c.msgtql + 1) (.head (some ix))).map (letterOf c w.msgs)
  hands t := (w.threads t).hand.map (letterOf c w.msgs)

def Call.held : Call → Option Nat
  | .sndType _ h => some h
  | .sndText _ h _ _ => some h
  | .rcvType _ h _ => some h
  | .rcvText _ h _ _ _ _ => some h
  | _ => none

def Call.owns : Call → Option Nat
  | .sndWait a true _ => some (ipcidToIx a.msqidr)
  | .sndType a _ => some (ipcidToIx a.msqidr)
  | .sndText a _ _ _ => some (ipcidToIx a.msqidr)
  | _ => none

variable {w w' : World} {hdrs' : Place → List Nat} {segs'' : Option Nat → List Nat} {u : Nat} {call call' : Call} {threads : Nat → Call}

@[simp] theorem wake_held (ix : Nat) (call : Call) : (call.wake ix).held = call.held := by cases call <;> rfl
@[simp] theorem wake_hand (ix : Nat) (call : Call) : (call.wake ix).hand = call.hand := by cases call <;> rfl

@[simp] theorem wake_owns (ix : Nat) (call : Call) : (call.wake ix).owns = call.owns := by
  cases call with
  | sndWait a weOwnIt woken => cases weOwnIt <;> rfl
  | _ => rfl

@[simp] theorem goes_self : (w.goes t call).threads t = call := update_self ..
theorem goes_else (ne : u ≠ t) : (w.goes t call).threads u = w.threads u := update_of_ne ne ..
@[simp] theorem goes_goes : (w.goes t call).goes t call' = w.goes t call' := by simp [World.goes]
@[simp] theorem goes_put : (w.goes t call).put s = (w.put s).goes t call := rfl
@[simp] theorem goes_msgs : (w.goes t call).msgs = w.msgs := rfl
@[simp] theorem put_msgs : (w.put s).msgs = s := rfl
@[simp] theorem put_threads : (w.put s).threads = w.threads := rfl
@[simp] theorem put_put : (w.put s).put s' = w.put s' := rfl

theorem hand_held (mine : call.hand = some h) : call.held = some h := by
  cases call <;> first | exact mine | cases mine

def letterAt (c : Msginfo) (s : Msgs) (segs : Option Nat → List Nat) (h : Nat) : Letter :=
  ⟨(s.msghdrs h).msgType,(gather c.msgssz s.msgpool (segs (some h))).take (s.msghdrs h).msgTs⟩

structure Kept (c : Msginfo) (s s' : Msgs) (segs segs' : Option Nat → List Nat) (h : Nat) : Prop where
  type : (s'.msghdrs h).msgType = (s.msghdrs h).msgType
  ts : (s'.msghdrs h).msgTs = (s.msghdrs h).msgTs
  cells : segs' (some h) = segs (some h)
  slices : ∀ p ∈ segs (some h),slice c.msgssz s'.msgpool p = slice c.msgssz s.msgpool p

theorem Kept.letter (kept : Kept c s s' segs segs' h) : letterAt c s' segs' h = letterAt c s segs h := by
  unfold letterAt
  rw [kept.type,kept.ts,kept.cells,gather_congr kept.slices]

theorem Kept.trans (one : Kept c s s' segs segs' h) (two : Kept c s' s'' segs' segs'' h) : Kept c s s'' segs segs'' h := by
  refine ⟨two.type.trans one.type,two.ts.trans one.ts,two.cells.trans one.cells,fun p mem => ?_⟩
  exact (two.slices p (one.cells ▸ mem)).trans (one.slices p mem)

theorem Still.kept (still : Still s s') : Kept c s s' segs segs h := ⟨still.type h,still.ts h,rfl,fun _ _ => by rw [still.pool]⟩

def Cut (s : Msgs) (a : Recv) (h msgsz : Nat) : Prop :=
  msgsz = (if (s.msghdrs h).msgTs < a.msgsz then (s.msghdrs h).msgTs else a.msgsz) ∧ ((s.msghdrs h).msgTs ≤ a.msgsz ∨ a.noerror = true)

theorem Kept.cut {a : Recv} (kept : Kept c s s' segs segs' h) (cut : Cut s a h n) : Cut s' a h n := by
  unfold Cut at cut ⊢
  rw [kept.ts]
  exact cut

def Fine (c : Msginfo) (s : Msgs) (segs : Option Nat → List Nat) : Call → Prop
  | .sndType a h => (s.msghdrs h).msgTs = a.text.length
  | .sndText a h rest next => (s.msghdrs h).msgTs = a.text.length ∧ (s.msghdrs h).msgType = a.msgType ∧ 1 ≤ a.msgType ∧
      ∃ done todo,segs (some h) = done ++ next :: todo ∧ rest = a.text.drop (done.length * c.msgssz) ∧ rest ≠ [] ∧ Filled c.msgssz s.msgpool done a.text
  | .rcvType a h msgsz => Cut s a h msgsz
  | .rcvText a h msgsz len got next => Cut s a h msgsz ∧ len < msgsz ∧
      ∃ done todo,segs (some h) = done ++ next :: todo ∧ len = done.length * c.msgssz ∧ got = ((letterAt c s segs h).text.take msgsz).take len
  | _ => True

theorem Fine.kept (fine : Fine c s segs call) (kept : ∀ h,call.held = some h → Kept c s s' segs segs' h) : Fine c s' segs' call := by
  cases call with
  | sndType a h => exact (kept h rfl).ts.trans fine
  | sndText a h rest next =>
    obtain ⟨ts,type,pos,done,todo,split,left,some_,filled⟩ := fine
    have same := kept h rfl
    refine ⟨same.ts.trans ts,same.type.trans type,pos,done,todo,same.cells.trans split,left,some_,filled.congr fun p mem => ?_⟩
    exact same.slices p (split ▸ mem_append_left _ mem)
  | rcvType a h msgsz => exact (kept h rfl).cut fine
  | rcvText a h msgsz len got next =>
    have same := kept h rfl
    obtain ⟨cut,more,done,todo,split,length,read⟩ := fine
    exact ⟨same.cut cut,more,done,todo,same.cells.trans split,length,by rw [same.letter]; exact read⟩
  | idle => trivial
  | sndWait a weOwnIt woken => trivial
  | rcvWait a woken => trivial

theorem Fine.wake (fine : Fine c s segs call) (ix : Nat) : Fine c s segs (call.wake ix) := by
  cases call <;> exact fine

def Locks (threads : Nat → Call) (s : Msgs) : Prop :=
  ∀ ix,((s.msqs ix).locked = true → ∃ t,(threads t).owns = some ix) ∧ ∀ t,(threads t).owns = some ix → (s.msqs ix).locked = true ∧ ∀ u,(threads u).owns = some ix → u = t

theorem Locks.same (locks : Locks threads s) (flags : ∀ ix,(s'.msqs ix).locked = (s.msqs ix).locked) (owns : call'.owns = (threads t).owns) : Locks (update threads t call') s' := by
  have same (u : Nat) : (update threads t call' u).owns = (threads u).owns := by
    by_cases is : u = t
    · subst is
      rw [update_self,owns]
    · rw [update_of_ne is]
  intro ix
  simp only [same,flags]
  exact locks ix

theorem Locks.acquire (ix : Nat) (locks : Locks threads s) (free : (s.msqs ix).locked = false) (none_ : (threads t).owns = none) (owns : call'.owns = some ix)
    (here : (s'.msqs ix).locked = true) (flags : ∀ j,j ≠ ix → (s'.msqs j).locked = (s.msqs j).locked) : Locks (update threads t call') s' := by
  have nobody (u : Nat) : (threads u).owns ≠ some ix := by
    intro is
    have := ((locks ix).2 u is).1
    rw [free] at this
    cases this
  intro j
  by_cases at_ : j = ix
  · subst at_
    have only (u : Nat) (is : (update threads t call' u).owns = some j) : u = t := by
      by_contra ne
      rw [update_of_ne ne] at is
      exact nobody u is
    refine ⟨fun _ => ⟨t,by rw [update_self,owns]⟩,fun u is => ⟨here,fun v is' => ?_⟩⟩
    rw [only u is,only v is']
  have same (u : Nat) : (update threads t call' u).owns = some j ↔ (threads u).owns = some j := by
    by_cases is : u = t
    · subst is
      rw [update_self,owns,none_]
      exact ⟨fun eq => absurd (Option.some.inj eq).symm at_,nofun⟩
    · rw [update_of_ne is]
  simp only [same,flags j at_]
  exact locks j

theorem Locks.release (ix : Nat) (locks : Locks threads s) (mine : (threads t).owns = some ix) (owns : call'.owns = none)
    (here : (s'.msqs ix).locked = false) (flags : ∀ j,j ≠ ix → (s'.msqs j).locked = (s.msqs j).locked) : Locks (update threads t call') s' := by
  intro j
  by_cases at_ : j = ix
  · subst at_
    have nobody (u : Nat) (is : (update threads t call' u).owns = some j) : False := by
      by_cases same : u = t
      · subst same
        rw [update_self,owns] at is
        cases is
      rw [update_of_ne same] at is
      exact same (((locks j).2 t mine).2 u is)
    refine ⟨fun is => ?_,fun u is => (nobody u is).elim⟩
    rw [here] at is
    cases is
  have same (u : Nat) : (update threads t call' u).owns = some j ↔ (threads u).owns = some j := by
    by_cases is : u = t
    · subst is
      rw [update_self,owns,mine]
      exact ⟨nofun,fun eq => absurd (Option.some.inj eq).symm at_⟩
    · rw [update_of_ne is]
  simp only [same,flags j at_]
  exact locks j

def Sums (s : Msgs) (hdrs : Place → List Nat) : Prop :=
  ∀ ix,(s.msqs ix).msgCbytes = (((hdrs (.queue ix)).map fun h => (s.msghdrs h).msgTs).sum : Nat) ∧ (s.msqs ix).msgQnum = (hdrs (.queue ix)).length

def Msgs.live (s : Msgs) (ix : Nat) : Prop := (s.msqs ix).msgQbytes ≠ 0

structure Inv (c : Msginfo) (w : World) (hdrs : Place → List Nat) (segs : Option Nat → List Nat) : Prop where
  laid : Laid c w.msgs w.msgs.live hdrs segs
  sums : Sums w.msgs hdrs
  removed : ∀ ix,¬w.msgs.live ix → hdrs (.queue ix) = []
  room : ∀ ix,(w.msgs.msqs ix).msgQbytes ≤ c.msgmnb
  types : ∀ ix,∀ h ∈ hdrs (.queue ix),1 ≤ (w.msgs.msghdrs h).msgType
  held : ∀ t,hdrs (.call t) = (w.threads t).held.toList
  locks : Locks w.threads w.msgs
  fine : ∀ t,Fine c w.msgs segs (w.threads t)

theorem Inv.holds (inv : Inv c w hdrs segs) {call : Call} (at_ : w.threads t = call) (has : call.held = some h) : hdrs (.call t) = [h] ∧ h ∈ hdrs (.call t) := by
  rw [inv.held t,at_,has]
  exact ⟨rfl,mem_singleton_self h⟩

theorem Inv.broadcast (inv : Inv c w hdrs segs) (ix : Nat) : Inv c (w.broadcast ix) hdrs segs where
  laid := inv.laid
  sums := inv.sums
  removed := inv.removed
  room := inv.room
  types := inv.types
  held t := (inv.held t).trans (congrArg Option.toList (wake_held ix (w.threads t)).symm)
  locks j := by
    have same (t : Nat) : ((w.broadcast ix).threads t).owns = (w.threads t).owns := wake_owns ix (w.threads t)
    simp only [same]
    exact inv.locks j
  fine t := (inv.fine t).wake ix

theorem Inv.change (inv : Inv c w hdrs segs) (laid : Laid c s' s'.live hdrs' segs') (sums : Sums s' hdrs') (removed : ∀ ix,¬s'.live ix → hdrs' (.queue ix) = [])
    (room : ∀ ix,(s'.msqs ix).msgQbytes ≤ c.msgmnb) (types : ∀ ix,∀ h ∈ hdrs' (.queue ix),1 ≤ (s'.msghdrs h).msgType) (mine : hdrs' (.call t) = call'.held.toList)
    (others : ∀ u,u ≠ t → hdrs' (.call u) = hdrs (.call u)) (locks : Locks (update w.threads t call') s') (fine : Fine c s' segs' call')
    (kept : ∀ u,u ≠ t → ∀ h ∈ hdrs (.call u),Kept c w.msgs s' segs segs' h) : Inv c ((w.put s').goes t call') hdrs' segs' where
  laid := laid
  sums := sums
  removed := removed
  room := room
  types := types
  held u := by
    by_cases is : u = t
    · subst is
      rw [goes_self]
      exact mine
    rw [goes_else is]
    exact (others u is).trans (inv.held u)
  locks := locks
  fine u := by
    by_cases is : u = t
    · subst is
      rw [goes_self]
      exact fine
    rw [goes_else is]
    refine (inv.fine u).kept fun h holds => kept u is h ?_
    rw [inv.held u,holds]
    exact mem_singleton_self h

theorem Laid.segs_walk (laid : Laid c s up hdrs segs) (used : k ≠ .free) (mem : h ∈ hdrs k) : walkSlots s.segLink (c.msgseg + 1) (.head (some h)) = segs (some h) :=
  (laid.store.chains _ (mem_inUse used mem)).walk (Nat.lt_succ_of_le (laid.store.allot.length_le _))

theorem Laid.letter (laid : Laid c s up hdrs segs) (used : k ≠ .free) (mem : h ∈ hdrs k) : letterOf c s h = letterAt c s segs h := by
  unfold letterOf letterAt
  rw [laid.segs_walk used mem]

theorem Inv.mail_eq (inv : Inv c w hdrs segs) : mail c w =
    ⟨fun ix => (hdrs (.queue ix)).map (letterAt c w.msgs segs),fun t => (w.threads t).hand.map (letterAt c w.msgs segs)⟩ := by
  unfold Sysvmsg.mail
  congr 1
  · funext ix
    split_ifs with gone
    · rw [inv.removed ix (not_not.mpr gone)]
      rfl
    rw [(inv.laid.queues ix gone).walk (Nat.lt_succ_of_le (inv.laid.allot.length_le _))]
    exact map_congr_left fun h mem => inv.laid.letter (k := queue ix) nofun mem
  funext t
  cases holds : (w.threads t).hand with
  | none => rfl
  | some h =>
    have mem : h ∈ hdrs (.call t) := by
      rw [inv.held t,hand_held holds]
      exact mem_singleton_self h
    exact congrArg some (inv.laid.letter (k := call t) nofun mem)
end NetbsdAvr32.Sysvmsg
