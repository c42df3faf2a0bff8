import NetbsdAvr32.TcpFin

-- A FIN that came out of order waits in the queue, unless a segment that ends with it replaces its entry.
namespace NetbsdAvr32.TcpReass
open Serial Cuts Bool List
open TcpInput (goodFin goodFin_joins goodFin_shift)

-- The segment is one of a stream that has its FIN at the place `last`, behind all of the bytes.
structure FinWithin (stream : Nat → UInt8) (last n : Nat) (s : Reass) (pkt : Pkt) : Prop where
  within : Within stream n s pkt
  inside : n + diff pkt.seq s.rcvNxt + pkt.data.length ≤ last
  fin : pkt.fin → n + diff pkt.seq s.rcvNxt + pkt.data.length = last

def marked (s : Reass) : Bool := s.segq.any Ipqent.fin
def advanced (n : Nat) (s s' : Reass) : Nat := n + (s'.rcvNxt - s.rcvNxt).toNat

-- The calls on segments of one stream that all meet a condition, with whether a FIN was ever queued
-- and whether it was presented.
inductive FinRun (stream : Nat → UInt8) (last : Nat) (meets : Nat → Reass → Pkt → Prop) (start : Reass) : Nat → Bool → Bool → Reass → Prop where
  | start : FinRun stream last meets start 0 false false start
  | call {n : Nat} {queued presented : Bool} {s : Reass} {pkt : Pkt} {got : Option Nat} : FinRun stream last meets start n queued presented s →
      FinWithin stream last n s pkt → meets n s pkt → (∀ q ∈ s.segq,got ≠ some q.addr) →
      FinRun stream last meets start (advanced n s (tcpReass s pkt got).1) (queued || marked (tcpReass s pkt got).1 || (tcpReass s pkt got).2)
        (presented || (tcpReass s pkt got).2) (tcpReass s pkt got).1
  | socantrcvmore {n : Nat} {queued presented : Bool} {s : Reass} : FinRun stream last meets start n queued presented s →
      FinRun stream last meets start n queued presented {s with cantRcvMore := true}

def Waits (last n : Nat) (s : Reass) : Prop := ∃ q ∈ s.segq,q.fin = true ∧ n + diff q.seq s.rcvNxt + q.data.length = last

-- The next call returns TH_FIN if it brings rcv_nxt to the FIN.
def Returns (stream : Nat → UInt8) (last : Nat) (meets : Nat → Reass → Pkt → Prop) (n : Nat) (queued : Bool) (s : Reass) : Prop :=
  ∀ (pkt : Pkt) (got : Option Nat),FinWithin stream last n s pkt → meets n s pkt → (∀ q ∈ s.segq,got ≠ some q.addr) → n < last →
    advanced n s (tcpReass s pkt got).1 = last → queued || marked (tcpReass s pkt got).1 || (tcpReass s pkt got).2 → (tcpReass s pkt got).2 = true

-- A segment that has the last byte but no FIN does not begin before an entry with the FIN. It may
-- immediately precede the first entry.
def Spares (last n : Nat) (s : Reass) (pkt : Pkt) : Prop :=
  pkt.fin ∨ n + diff pkt.seq s.rcvNxt + pkt.data.length ≠ last ∨ (∀ q ∈ s.segq,q.fin → diff q.seq s.rcvNxt ≤ diff pkt.seq s.rcvNxt) ∨
    ∃ q,s.segq.head? = some q ∧ pkt.stop = q.seq

variable {stream : Nat → UInt8} {st : Int → UInt8} {P : Ipqent → Prop} {last n : Nat} {u : Seq} {start s s' : Reass} {pkt : Pkt} {q : Ipqent}
variable {l before after rest : List Ipqent} {tiqe got : Option Nat} {queued presented : Bool}

theorem marked_iff : marked s = true ↔ ∃ q ∈ s.segq,q.fin = true := by
  unfold marked
  rw [any_eq_true]

-- What the loop works on: the FIN is in the queue, or the segment took it over and is the last one.
def Bears (pkt : Pkt) (tiqe : Option Nat) (before after : List Ipqent) : Prop :=
  (∃ q ∈ before ++ after,q.fin = true) ∨ (pkt.fin = true ∧ tiqe.isSome ∧ after = [])

-- The condition as the loop keeps it, for the entries that it still has before it.
def SparesRest (last n : Nat) (u : Seq) (pkt : Pkt) (after : List Ipqent) : Prop :=
  pkt.fin = true ∨ n + ends u pkt ≠ last ∨ ∀ q ∈ after,q.fin = true → begins u q.pkt ≤ begins u pkt

def Borne : Scan → Prop
  | .dup s => marked s = true
  | .insert _ pkt tiqe before after => (∃ q ∈ before ++ after,q.fin = true) ∨ (pkt.fin = true ∧ tiqe.isSome)

theorem fin_last (entries : Entries st (goodFin last n) u (before ++ q :: rest)) (fin : q.fin = true) : rest = [] := by
  obtain ⟨entry,left,_,excess⟩ := entries.split
  have exact_ := entry.fin.2 fin
  refine eq_nil_iff_forall_not_mem.mpr fun p mem => ?_
  have inside := (left.each p (by simp [mem])).fin.1
  have order := begins_le_ends u p.pkt
  have gap := excess p mem
  omega

theorem gone_fin {pkt₁ : Pkt} (walk : Walk st (goodFin last n) P u s pkt tiqe before (q :: rest)) (fin : q.fin = true) (spares : SparesRest last n u pkt (q :: rest))
    (flags : pkt₁.fin = (pkt.fin || q.fin) ∨ pkt₁.fin = pkt.fin ∧ ends u q.pkt ≤ ends u pkt ∧ (ends u q.pkt < ends u pkt ∨ begins u pkt < begins u q.pkt)) :
    pkt₁.fin = true := by
  have entry := walk.entries.split.1
  have exact_ := entry.fin.2 fin
  have inside := walk.carries.fin.1
  rcases flags with both | ⟨same,reach,side⟩
  · rw [both,fin,Bool.or_true]
  rcases spares with has | short_ | early
  · rw [same,has]
  · omega
  have := early q (by simp) fin
  omega

theorem SparesRest.tail {pkt₁ : Pkt} (entries : Entries st (goodFin last n) u (before ++ q :: rest)) (spares : SparesRest last n u pkt (q :: rest)) (same : ends u pkt₁ = ends u pkt)
    (start : begins u pkt₁ = begins u pkt ∨ begins u pkt ≤ ends u q.pkt) (keeps : pkt.fin = true → pkt₁.fin = true) : SparesRest last n u pkt₁ rest := by
  rcases spares with has | short_ | early
  · exact .inl (keeps has)
  · rw [← same] at short_
    exact .inr (.inl short_)
  refine .inr (.inr fun p mem fin => ?_)
  have here := early p (by simp [mem]) fin
  have gap := entries.split.2.2.2 p mem
  omega

theorem scan_fin (walk : Walk st (goodFin last n) P u s pkt tiqe before after) (spares : SparesRest last n u pkt after) (bears : Bears pkt tiqe before after) :
    Borne (scan s pkt tiqe before [] after) := by
  induction after generalizing s pkt tiqe before with
  | nil =>
    exact bears.imp id fun ⟨fin,some_,_⟩ => ⟨fin,some_⟩
  | cons q rest ih =>
    have held : ∃ p ∈ before ++ q :: rest,p.fin = true := by
      rcases bears with held | ⟨_,_,none⟩
      · exact held
      · cases none
    have entries := walk.entries
    -- The FIN is not with q, or it is, and then nothing is behind q.
    have bears' : ∀ {pkt₁ : Pkt} {tiqe₁ : Option Nat},tiqe₁.isSome → (q.fin = true → pkt₁.fin = true) → Bears pkt₁ tiqe₁ before rest := by
      intro pkt₁ tiqe₁ some_ gives
      obtain ⟨p,mem,fin⟩ := held
      rcases mem_append.mp mem with here | there
      · exact .inl ⟨p,by simp [here],fin⟩
      rcases mem_cons.mp there with rfl | there
      · exact .inr ⟨gives fin,some_,fin_last entries fin⟩
      · exact .inl ⟨p,by simp [there],fin⟩
    have turned := scan_turn (goodFin_joins last n) walk
    generalize scan s pkt tiqe before [] (q :: rest) = result at turned ⊢
    cases turned with
    | gone _ walk' some_ same start flags =>
      refine ih walk' (spares.tail entries same start fun has => ?_) (bears' some_ fun fin => gone_fin walk fin spares flags)
      rcases flags with both | ⟨keeps,_⟩
      · rw [both,has,Bool.true_or]
      · rw [keeps,has]
    | passed walk' =>
      refine ih walk' (spares.tail entries rfl (.inl rfl) id) (.inl ?_)
      simpa using held
    | beyond => exact .inl held
    | dup => exact marked_iff.mpr held
    | joined _ _ some_ _ fin =>
      refine (bears' some_ fun here => ?_).imp id fun ⟨fin,some_,_⟩ => ⟨fin,some_⟩
      rw [fin,here,Bool.or_true]

theorem present_fin (held : marked s = true) : (present s).2 = true ∨ marked (present s).1 = true := by
  unfold present
  split
  · next => exact .inr held
  next q rest segq =>
  split
  · exact .inr held
  unfold marked at held ⊢
  rw [segq,any_cons,or_eq_true] at held
  exact held

theorem insertIt_fin (held : (∃ q ∈ before ++ after,q.fin = true) ∨ (pkt.fin = true ∧ tiqe.isSome)) :
    (insertIt s pkt tiqe got before after).2 = true ∨ marked (insertIt s pkt tiqe got before after).1 = true := by
  unfold insertIt
  split
  · next none_ =>
    rcases held with held | ⟨_,some_⟩
    · exact .inr (marked_iff.mpr held)
    cases tiqe with
    | none => cases some_
    | some _ => cases none_
  next addr _ =>
  refine present_fin (marked_iff.mpr ?_)
  rcases held with ⟨q,mem,fin⟩ | ⟨fin,_⟩
  · refine ⟨q,?_,fin⟩
    rcases mem_append.mp mem with here | there
    · simp [here]
    · simp [there]
  · exact ⟨⟨addr,pkt.seq,pkt.len,pkt.fin,pkt.data⟩,by simp,fin⟩

section
variable (queue : Queue st (goodFin last n) s)
include queue

section
variable (carries : Carries st (goodFin last n) s.rcvNxt pkt)
include carries

theorem search_fin (spares : SparesRest last n s.rcvNxt pkt s.segq)
    (held : marked s = true) : (search s pkt got).2 = true ∨ marked (search s pkt got).1 = true := by
  have walk : Walk st (goodFin last n) (fun _ => True) s.rcvNxt s pkt none [] s.segq :=
    ⟨carries,queue.entries,by simp,queue.counted,by simp,fun _ _ => trivial⟩
  have scanned := scan_fin walk spares (.inl (marked_iff.mp held))
  unfold search
  split
  · next s' result =>
    rw [result] at scanned
    exact .inr scanned
  next s' pkt' tiqe before after result =>
  rw [result] at scanned
  exact insertIt_fin scanned

theorem prependFirst_fin (spares : Spares last n s pkt)
    (held : marked s = true) : (prependFirst s pkt got).2 = true ∨ marked (prependFirst s pkt got).1 = true := by
  unfold prependFirst
  split
  · next empty =>
    unfold marked at held
    rw [empty] at held
    cases held
  next q rest segq =>
  split
  · refine present_fin ?_
    unfold marked at held ⊢
    rw [segq] at held
    simp only [any_cons,or_eq_true] at held ⊢
    exact held.imp .inl id
  next apart =>
  refine search_fin queue carries ?_ held
  rcases spares with has | short_ | early | ⟨p,first,touch⟩
  · exact .inl has
  · refine .inr (.inl ?_)
    unfold ends
    omega
  · exact .inr (.inr early)
  rw [segq] at first
  cases first
  exact absurd touch apart

theorem tcpReass_fin (spares : Spares last n s pkt)
    (held : marked s = true) : (tcpReass s pkt got).2 = true ∨ marked (tcpReass s pkt got).1 = true := by
  unfold tcpReass
  split
  · exact prependFirst_fin queue carries spares held
  next p last_ =>
  have split_ := dropLast_append_getLast? p last_
  split
  · refine present_fin ?_
    unfold marked at held ⊢
    rw [← split_] at held
    simp only [any_append,any_cons,any_nil,Bool.or_false,Bool.or_eq_true] at held ⊢
    exact held.imp id .inl
  split
  · refine insertIt_fin (.inl ?_)
    simpa using marked_iff.mp held
  · exact prependFirst_fin queue carries spares held
end
end

theorem FinWithin.carries (within : FinWithin stream last n s pkt) : Carries (seen stream n) (goodFin last n) s.rcvNxt pkt := by
  obtain ⟨low,high,len,bytes,_⟩ := within.within.carries
  refine ⟨low,high,len,bytes,?_,fun fin => ?_⟩
  · have inside := within.inside
    unfold ends
    omega
  have exact_ := within.fin fin
  unfold ends
  omega

structure FinInv (stream : Nat → UInt8) (last n : Nat) (queued presented : Bool) (s : Reass) : Prop where
  queue : Queue (seen stream n) (goodFin last n) s
  kept : queued = true → presented = true ∨ marked s = true
  done : presented = true → n = last

theorem call_fin (queue : Queue (seen stream n) (goodFin last n) s) (within : FinWithin stream last n s pkt) (fresh : ∀ q ∈ s.segq,got ≠ some q.addr) :
    Queue (seen stream (advanced n s (tcpReass s pkt got).1)) (goodFin last (advanced n s (tcpReass s pkt got).1)) (tcpReass s pkt got).1 ∧
      n ≤ advanced n s (tcpReass s pkt got).1 ∧ ((tcpReass s pkt got).2 = true → advanced n s (tcpReass s pkt got).1 = last) ∧
        (advanced n s (tcpReass s pkt got).1 ≤ last ∨ advanced n s (tcpReass s pkt got).1 = n) := by
  obtain ⟨m,delivered⟩ := tcpReass_spec (goodFin_joins last n) queue within.carries fresh
  generalize tcpReass s pkt got = result at *
  obtain ⟨small,moved,_,_,queue',ended⟩ := delivered
  have places : advanced n s result.1 = n + m := by
    unfold advanced
    rw [moved,BitVec.add_comm,BitVec.add_sub_cancel,BitVec.toNat_ofNat]
    unfold half at small
    rw [Nat.mod_eq_of_lt (by omega)]
  rw [places]
  rw [seen_shift,goodFin_shift] at queue'
  refine ⟨queue',Nat.le_add_right n m,fun fin => ?_,?_⟩
  · rcases ended with ⟨_,no⟩ | ended
    · rw [no] at fin
      cases fin
    have := ended.2 fin
    omega
  rcases ended with ⟨rfl,_⟩ | ended
  · exact .inr rfl
  have := ended.1
  omega

theorem Waits.of_marked (queue : Queue st (goodFin last n) s) (held : marked s = true) : Waits last n s := by
  obtain ⟨q,mem,fin⟩ := marked_iff.mp held
  have exact_ := (queue.entries.each q mem).fin.2 fin
  have end_ : ends s.rcvNxt q.pkt = diff q.seq s.rcvNxt + q.data.length := rfl
  exact ⟨q,mem,fin,by omega⟩

theorem Waits.ahead (queue : Queue st (goodFin last n) s) (waits : Waits last n s) : n < last := by
  obtain ⟨q,mem,_,place⟩ := waits
  have ahead := queue.first q mem
  have begin_ : begins s.rcvNxt q.pkt = diff q.seq s.rcvNxt := rfl
  omega

theorem call_kept (inv : FinInv stream last n queued presented s) (within : FinWithin stream last n s pkt) (spares : Spares last n s pkt) :
    queued || marked (tcpReass s pkt got).1 || (tcpReass s pkt got).2 → (presented || (tcpReass s pkt got).2) = true ∨ marked (tcpReass s pkt got).1 = true := by
  intro some_
  rw [or_eq_true,or_eq_true] at some_
  rw [or_eq_true]
  rcases some_ with (before | here) | now
  · rcases inv.kept before with done | held
    · exact .inl (.inl done)
    rcases tcpReass_fin inv.queue within.carries spares held with now | still
    · exact .inl (.inr now)
    · exact .inr still
  · exact .inr here
  · exact .inl (.inr now)

theorem finRun_inv (fresh : Fresh start) (run : FinRun stream last (Spares last) start n queued presented s) : FinInv stream last n queued presented s := by
  induction run with
  | start =>
    obtain ⟨segq,timeq,segqlen,asserts⟩ := fresh
    exact ⟨⟨⟨by simp [segq],by simp [segq]⟩,⟨by simp [segq,segqlen],by simp [segq,timeq],by simp [segq],asserts⟩,by simp [segq]⟩,nofun,nofun⟩
  | call _ within spares unused ih =>
    obtain ⟨queue,le,ended,inside⟩ := call_fin ih.queue within unused
    refine ⟨queue,call_kept ih within spares,fun done => ?_⟩
    rcases or_eq_true_iff.mp done with before | now
    · have := ih.done before
      omega
    · exact ended now
  | socantrcvmore _ ih =>
    obtain ⟨⟨entries,counted,first⟩,kept,done⟩ := ih
    exact ⟨⟨entries,⟨counted.count,counted.times,counted.distinct,counted.asserts⟩,first⟩,kept,done⟩

-- A FIN that was queued waits until it is presented, and the call that brings rcv_nxt to it returns it.
theorem fin_kept (stream : Nat → UInt8) (last : Nat) (start s : Reass) (n : Nat) (queued presented : Bool) (fresh : Fresh start)
    (run : FinRun stream last (Spares last) start n queued presented s) :
    (queued = true → presented = true ∧ n = last ∨ Waits last n s ∧ n < last) ∧ Returns stream last (Spares last) n queued s := by
  have inv := finRun_inv fresh run
  refine ⟨fun queued_ => ?_,fun pkt got within spares unused early arrives some_ => ?_⟩
  · rcases inv.kept queued_ with done | held
    · exact .inl ⟨done,inv.done done⟩
    · have waits := Waits.of_marked inv.queue held
      exact .inr ⟨waits,waits.ahead inv.queue⟩
  obtain ⟨queue,_⟩ := call_fin inv.queue within unused
  rcases call_kept inv within spares some_ with done | held
  · rcases or_eq_true_iff.mp done with before | now
    · have := inv.done before
      omega
    · exact now
  · have := (Waits.of_marked queue held).ahead queue
    omega

-- The second byte of four and the FIN behind the fourth, before the two bytes between them.
def second : Pkt := ⟨1,1,false,[7]⟩
def finOnly : Pkt := ⟨4,0,true,[]⟩
def between : Pkt := ⟨2,2,false,[7,7]⟩

def oneQueued : Reass := (tcpReass (listening 0 false) second (some 1)).1
def finQueued : Reass := (tcpReass oneQueued finOnly (some 2)).1
def joined : Reass := (tcpReass finQueued between (some 3)).1

theorem FinRun.reach {meets : Nat → Reass → Pkt → Prop} {n' : Nat} {fin queued' : Bool} (run : FinRun stream last meets start n queued presented s)
    (within : FinWithin stream last n s pkt) (met : meets n s pkt) (fresh : ∀ q ∈ s.segq,got ≠ some q.addr) (result : tcpReass s pkt got = (s',fin))
    (place : advanced n s s' = n') (mark : (queued || marked s' || fin) = queued') : FinRun stream last meets start n' queued' (presented || fin) s' := by
  have next_ := run.call within met fresh
  rw [result] at next_
  rw [place,mark] at next_
  exact next_

theorem finQueued_run {meets : Nat → Reass → Pkt → Prop} (one : meets 0 (listening 0 false) second) (two : meets 0 oneQueued finOnly) :
    FinRun (fun _ => 7) 4 meets (listening 0 false) 0 true false finQueued := by
  have result : tcpReass (listening 0 false) second (some 1) = (oneQueued,false) := by decide +kernel
  have result' : tcpReass oneQueued finOnly (some 2) = (finQueued,false) := by decide +kernel
  have first : FinRun (fun _ => 7) 4 meets (listening 0 false) 0 false false oneQueued :=
    FinRun.start.reach ⟨⟨by decide +kernel,by decide +kernel,rfl,rfl⟩,by decide +kernel,by decide +kernel⟩ one (by decide +kernel) result
      (by decide +kernel) (by decide +kernel)
  exact first.reach ⟨⟨by decide +kernel,by decide +kernel,rfl,rfl⟩,by decide +kernel,by decide +kernel⟩ two (by decide +kernel) result'
    (by decide +kernel) (by decide +kernel)

theorem fin_kept_waiting : (true = true → false = true ∧ 0 = 4 ∨ Waits 4 0 finQueued ∧ 0 < 4) ∧ Returns (fun _ => 7) 4 (Spares 4) 0 true finQueued :=
  fin_kept (fun _ => 7) 4 (listening 0 false) finQueued 0 true false ⟨rfl,rfl,rfl,rfl⟩
    (finQueued_run (.inr (.inr (.inl (by decide +kernel)))) (.inl rfl))

-- The bytes between overlap the entry with the FIN completely, and it goes with its flag.
theorem fin_dropped : ¬∀ (stream : Nat → UInt8) (last : Nat) (start s : Reass) (n : Nat) (queued presented : Bool),Fresh start →
    FinRun stream last (fun _ _ _ => True) start n queued presented s → queued = true → presented = true ∨ Waits last n s := by
  intro claim
  have queued := @finQueued_run (fun _ _ _ => True) trivial trivial
  have run := queued.call (⟨⟨by decide +kernel,by decide +kernel,rfl,rfl⟩,by decide +kernel,by decide +kernel⟩ : FinWithin (fun _ => 7) 4 0 finQueued between) trivial
    (by decide +kernel : ∀ q ∈ finQueued.segq,some 3 ≠ some q.addr)
  rcases claim _ _ _ _ _ _ _ ⟨rfl,rfl,rfl,rfl⟩ run rfl with presented | ⟨q,mem,fin,_⟩
  · revert presented
    decide +kernel
  · have none : ∀ q ∈ joined.segq,q.fin = false := by decide +kernel
    rw [none q mem] at fin
    cases fin
end NetbsdAvr32.TcpReass
