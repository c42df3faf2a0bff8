import Mathlib.Algebra.BigOperators.Fin
import NetbsdAvr32.Outcome
import NetbsdAvr32.Spans

-- sys/netinet/ip_input.c: reassembly of IP fragments.
namespace NetbsdAvr32.IpReass
open Function List Nat

-- struct ip of a fragment as ip_input hands it to ip_reass: ip_off counts bytes, and
-- ip_len leaves out the header.
structure Ip where
  ipHl : Nat
  ipTos : Nat
  ipLen : Nat
  ipId : Nat
  ipOff : Nat
  ipP : Nat
  ipSrc : Nat
  ipDst : Nat
  deriving DecidableEq, Repr

-- struct ipqent. The mbufs hold what follows the header.
structure Ipqent where
  mff : Bool
  ip : Ip
  m : List UInt8
  deriving DecidableEq, Repr

structure Ipq where
  ttl : Nat
  p : Nat
  id : Nat
  tos : Nat
  nfrags : Nat
  src : Nat
  dst : Nat
  fragq : List Ipqent
  deriving DecidableEq, Repr

structure Reass where
  ipq : Fin 64 → List Ipq
  ipNfragpackets : Int
  ipNfrags : Int
  ipMaxfragpackets : Int

def ipMaxpacket : Nat := 65535
def ipFragTtl : Nat := 60
def short (n : Nat) : Nat := n % 65536
def ipReassHash (x y : Nat) : Fin 64 := ⟨((((x &&& 0xF) ||| (((x >>> 8) &&& 0xF) <<< 4)) ^^^ y) &&& 63) % 64,Nat.mod_lt _ (by decide)⟩

-- The queue that ip_input finds for a fragment.
def sameDatagram (ip : Ip) (fp : Ipq) : Bool := ip.ipId == fp.id && ip.ipSrc == fp.src && ip.ipDst == fp.dst && ip.ipP == fp.p
def findIpq (s : Reass) (h : Fin 64) (ip : Ip) : Option Nat := (s.ipq h).findIdx? (sameDatagram ip)
def stop (e : Ipqent) : Nat := e.ip.ipOff + e.ip.ipLen

def mAdj (e : Ipqent) (i : Nat) : Ipqent :=
  {e with m := e.m.drop i,ip := {e.ip with ipOff := short (e.ip.ipOff + i),ipLen := short (e.ip.ipLen - i)}}

-- What the loop over the succeeding segments leaves of them, and how many it dequeues.
def trimNext (ipqe : Ipqent) : List Ipqent → List Ipqent × Nat
  | [] => ([],0)
  | q :: rest =>
    if stop ipqe > q.ip.ipOff then
      let i := stop ipqe - q.ip.ipOff
      if i < q.ip.ipLen then (mAdj q i :: rest,0)
      else
        let (rest',removed) := trimNext ipqe rest
        (rest',removed + 1)
    else (q :: rest,0)

-- The walk over the queue: `next` once the offsets fit.
def walk : Nat → List Ipqent → Option Nat
  | next, [] => some next
  | next, q :: rest => if q.ip.ipOff ≠ next then none else walk (next + q.ip.ipLen) rest

-- What the preceding segment leaves of a new one: none if it provides all of its data.
def trimPrev (p : Option Ipqent) (ipqe : Ipqent) : Option Ipqent :=
  match p with
  | none => some ipqe
  | some p =>
    if stop p > ipqe.ip.ipOff then
      let i := stop p - ipqe.ip.ipOff
      if i ≥ ipqe.ip.ipLen then none else some (mAdj ipqe i)
    else some ipqe

def setIpq (s : Reass) (h : Fin 64) (l : List Ipq) : Reass := {s with ipq := update s.ipq h l}
def freed (s : Reass) (fp : Ipq) : Reass := {s with ipNfrags := s.ipNfrags - fp.fragq.length,ipNfragpackets := s.ipNfragpackets - 1}

-- The queue is the one with the index k.
def ipFreef (s : Reass) (h : Fin 64) (k : Nat) (fp : Ipq) : Reass := setIpq (freed s fp) h ((s.ipq h).eraseIdx k)

-- ip_reass from the insertion of the segment on: the queue with the index k is complete
-- if the offsets fit and the last segment has no more to follow.
def complete (s : Reass) (h : Fin 64) (k : Nat) (fp : Ipq) : Reass × Option (Ip × List UInt8) :=
  match walk 0 fp.fragq,fp.fragq.getLast?,fp.fragq.head? with
  | some next,some p,some q =>
    if p.mff then (s,none)
    else if next + q.ip.ipHl * 4 > ipMaxpacket then (ipFreef s h k fp,none)
    else
      let ip := {q.ip with ipLen := short next,ipSrc := fp.src,ipDst := fp.dst}
      (setIpq {s with ipNfrags := s.ipNfrags - fp.nfrags,ipNfragpackets := s.ipNfragpackets - 1} h ((s.ipq h).eraseIdx k),
        some (ip,fp.fragq.flatMap (·.m)))
  | _,_,_ => (s,none)

-- A first fragment makes a reassembly queue. `malloc` tells whether there is memory for it.
def newIpq (ipqe : Ipqent) : Ipq where
  ttl := ipFragTtl
  p := ipqe.ip.ipP
  id := ipqe.ip.ipId
  tos := ipqe.ip.ipTos
  nfrags := 1
  src := ipqe.ip.ipSrc
  dst := ipqe.ip.ipDst
  fragq := [ipqe]

def refused (s : Reass) : Bool := !(s.ipMaxfragpackets < 0) && s.ipNfragpackets ≥ s.ipMaxfragpackets

def ipReassFirst (s : Reass) (h : Fin 64) (ipqe : Ipqent) (malloc : Bool) : Reass × Option (Ip × List UInt8) :=
  let s := {s with ipNfrags := s.ipNfrags + 1}
  let dropfrag (s : Reass) : Reass := {s with ipNfrags := s.ipNfrags - 1}
  if refused s then (dropfrag s,none)
  else
    let s := {s with ipNfragpackets := s.ipNfragpackets + 1}
    if malloc = false then (dropfrag s,none)
    else
      let fp := newIpq ipqe
      complete (setIpq s h (fp :: s.ipq h)) h 0 fp

-- The segments that begin no later than this one, and the others.
def beginsBy (ipqe q : Ipqent) : Bool := !(q.ip.ipOff > ipqe.ip.ipOff)

def ipReassNext (s : Reass) (h : Fin 64) (k : Nat) (fp : Ipq) (ipqe : Ipqent) : Reass × Option (Ip × List UInt8) :=
  let s := {s with ipNfrags := s.ipNfrags + 1}
  let fp := {fp with nfrags := short (fp.nfrags + 1)}
  let before := fp.fragq.takeWhile (beginsBy ipqe)
  let after := fp.fragq.dropWhile (beginsBy ipqe)
  match trimPrev before.getLast? ipqe with
  | none =>
    let fp := {fp with nfrags := short (fp.nfrags + 65535)}
    (setIpq {s with ipNfrags := s.ipNfrags - 1} h ((s.ipq h).set k fp),none)
  | some ipqe =>
    let (after,removed) := trimNext ipqe after
    let fp := {fp with nfrags := short (fp.nfrags + 65535 * removed),fragq := before ++ ipqe :: after}
    complete (setIpq {s with ipNfrags := s.ipNfrags - removed} h ((s.ipq h).set k fp)) h k fp

-- `fp` is the place of the queue on its chain.
def ipReass (s : Reass) (h : Fin 64) (fp : Option Nat) (ipqe : Ipqent) (malloc : Bool) : Reass × Option (Ip × List UInt8) :=
  match fp with
  | none => ipReassFirst s h ipqe malloc
  | some k =>
    match (s.ipq h)[k]? with
    | none => (s,none)
    | some fp => ipReassNext s h k fp ipqe

-- What ip_reass_ttl_decr counts: the fragments, and the histogram of their times.
structure Ttl where
  nfrags : Nat
  histo : Nat → Nat

-- Its loop over a chain, which returns what is kept of the chain.
def ttlChain (ticks : Nat) : List Ipq → Reass → Ttl → List Ipq × Reass × Ttl
  | [], s, t => ([],s,t)
  | fp :: rest, s, t =>
    let ttl := if fp.ttl ≤ ticks then 0 else fp.ttl - ticks
    if ttl = 0 then ttlChain ticks rest (freed s fp) t
    else
      let (rest',s,t) := ttlChain ticks rest s ⟨t.nfrags + fp.nfrags,update t.histo ttl (t.histo ttl + fp.nfrags)⟩
      ({fp with ttl := ttl} :: rest',s,t)

def ttlChains (ticks : Nat) : List (Fin 64) → Reass → Ttl → Reass × Ttl
  | [], s, t => (s,t)
  | h :: hs, s, t =>
    let (l,s,t) := ttlChain ticks (s.ipq h) s t
    ttlChains ticks hs (setIpq s h l) t

-- The median of the histogram, from the time i - 1 down.
def medianFrom (histo : Nat → Nat) (keepfraction : Int) : Nat → Nat → Nat
  | 0, _ => 4294967295
  | i + 1, median => if ((median + histo i : Nat) : Int) ≥ keepfraction then i else medianFrom histo keepfraction i (median + histo i)

def ipReassTtlDecr (s : Reass) (ticks : Nat) : Except Halt (Reass × Nat) :=
  let (s,t) := ttlChains ticks (List.finRange 64) s ⟨0,fun _ => 0⟩
  if s.ipNfrags ≠ (t.nfrags : Int) then .error (.panic "ip_nfrags == nfrags")
  else
    let dropfraction := s.ipNfrags / 2
    let keepfraction := s.ipNfrags - dropfraction
    .ok (s,medianFrom t.histo keepfraction (ipFragTtl + 1) 0)

open Spans

def start (e : Ipqent) : Nat := e.ip.ipOff

-- The fragment carries the bytes of the payload, and says so if they are the last.
structure Carries (payload : List UInt8) (e : Ipqent) : Prop where
  bytes : e.m = (payload.drop (start e)).take e.ip.ipLen
  inside : stop e ≤ payload.length
  mff : e.mff = true ↔ stop e ≠ payload.length

structure Ordered (payload : List UInt8) (l : List Ipqent) : Prop where
  apart : Apart start stop l
  carries : ∀ e ∈ l, Carries payload e ∧ e.ip.ipLen < 65536

-- A queued fragment is trimmed to begin where the new one stops, or the other way
-- round. The new offset goes to 16 bits.
structure Trimmable (e q : Ipqent) : Prop where
  tail : start q ≤ start e → start e < stop q → stop q < stop e → stop q < 65536
  front : start e < start q → start q < stop e → stop e < stop q → stop e < 65536

variable {payload : List UInt8} {e e' q : Ipqent} {l before after : List Ipqent} {i x : Nat}

theorem start_le (e : Ipqent) : start e ≤ stop e := le_add_right _ _
theorem mAdj_start (i : Nat) (small : start e + i < 65536) : start (mAdj e i) = start e + i := mod_eq_of_lt small
theorem mAdj_len (i : Nat) (short_ : e.ip.ipLen < 65536) : (mAdj e i).ip.ipLen = e.ip.ipLen - i := mod_eq_of_lt (by omega)

theorem mAdj_stop (within : i ≤ e.ip.ipLen) (small : start e + i < 65536) (short_ : e.ip.ipLen < 65536) : stop (mAdj e i) = stop e := by
  have start_ := mAdj_start i small
  have len := mAdj_len i short_
  unfold stop
  unfold start at start_
  omega

theorem Carries.mAdj (carries : Carries payload e) (within : i ≤ e.ip.ipLen) (small : start e + i < 65536)
    (short_ : e.ip.ipLen < 65536) : Carries payload (mAdj e i) where
  bytes := by
    rw [mAdj_start i small,mAdj_len i short_]
    show e.m.drop i = _
    rw [carries.bytes,drop_take,drop_drop]
  inside := by
    rw [mAdj_stop within small short_]
    exact carries.inside
  mff := by
    rw [mAdj_stop within small short_]
    exact carries.mff

structure Trimmed (payload : List UInt8) (e : Ipqent) (after after' : List Ipqent) : Prop where
  ordered : Ordered payload after'
  above : ∀ q ∈ after', stop e ≤ start q
  cover : ∀ x, x ∈ span start stop e ∪ cover start stop after' ↔ x ∈ span start stop e ∪ cover start stop after
  from_ : ∀ q ∈ after', ∃ old ∈ after, q.ip.ipHl = old.ip.ipHl ∧ start old ≤ start q

theorem Ordered.tail (ordered : Ordered payload (q :: l)) : Ordered payload l :=
  ⟨(apart_cons.mp ordered.apart).2.2,fun e mem => ordered.carries e (mem_cons_of_mem _ mem)⟩

theorem ordered_cons (first : Carries payload q) (short_ : q.ip.ipLen < 65536) (above : ∀ e ∈ l, stop q ≤ start e)
    (ordered : Ordered payload l) : Ordered payload (q :: l) where
  apart := apart_cons.mpr ⟨start_le q,above,ordered.apart⟩
  carries := fun e mem => by
    rcases mem_cons.mp mem with rfl | later
    · exact ⟨first,short_⟩
    · exact ordered.carries e later

theorem trimNext_spec (ordered : Ordered payload after) (low : ∀ q ∈ after, start e ≤ start q)
    (trimmable : ∀ q ∈ after, start q < stop e → stop e < stop q → stop e < 65536) : Trimmed payload e after (trimNext e after).1 := by
  induction after with
  | nil => exact ⟨ordered,by simp [trimNext],fun x => Iff.rfl,by simp [trimNext]⟩
  | cons q rest ih =>
    obtain ⟨_,later,_⟩ := apart_cons.mp ordered.apart
    obtain ⟨carries,short_⟩ := ordered.carries q mem_cons_self
    have here := low q mem_cons_self
    rw [trimNext]
    split
    · next overlap =>
      dsimp only
      split
      · next part =>
        have amount : stop e - q.ip.ipOff < q.ip.ipLen := part
        have stop_q : stop q = start q + q.ip.ipLen := rfl
        have start_is : start q = q.ip.ipOff := rfl
        have sum : start q + (stop e - q.ip.ipOff) = stop e := by omega
        have small : start q + (stop e - q.ip.ipOff) < 65536 := by
          rw [sum]
          exact trimmable q mem_cons_self overlap (by omega)
        have new_start := mAdj_start (e := q) _ small
        have new_stop := mAdj_stop (le_of_lt amount) small short_
        rw [sum] at new_start
        refine ⟨ordered_cons (carries.mAdj (le_of_lt amount) small short_) ?_ ?_ ordered.tail,?_,fun x => ?_,?_⟩
        · rw [mAdj_len _ short_]
          omega
        · rw [new_stop]
          exact later
        · intro r mem
          rcases mem_cons.mp mem with rfl | mem
          · exact le_of_eq new_start.symm
          have := later r mem
          omega
        · rw [cover_cons,cover_cons]
          simp only [Set.mem_union,mem_span,new_start,new_stop]
          constructor
          · rintro (this | this | this)
            · exact .inl this
            · exact .inr (.inl (by omega))
            · exact .inr (.inr this)
          rintro (this | this | this)
          · exact .inl this
          · by_cases behind : stop e ≤ x
            · exact .inr (.inl (by omega))
            · exact .inl (by omega)
          · exact .inr (.inr this)
        intro r mem
        rcases mem_cons.mp mem with rfl | mem
        · exact ⟨q,mem_cons_self,rfl,by omega⟩
        · exact ⟨r,mem_cons_of_mem _ mem,rfl,le_refl _⟩
      next whole =>
      have stop_q : stop q = q.ip.ipOff + q.ip.ipLen := rfl
      have rest_ := ih ordered.tail (fun r mem => low r (mem_cons_of_mem _ mem)) fun r mem => trimmable r (mem_cons_of_mem _ mem)
      refine ⟨rest_.ordered,rest_.above,fun x => ?_,fun r mem => ?_⟩
      · rw [rest_.cover,cover_cons]
        simp only [Set.mem_union,mem_span]
        constructor
        · rintro (this | this)
          · exact .inl this
          · exact .inr (.inr this)
        rintro (this | this | this)
        · exact .inl this
        · exact .inl (by omega)
        · exact .inr this
      obtain ⟨old,mem,same⟩ := rest_.from_ r mem
      exact ⟨old,mem_cons_of_mem _ mem,same⟩
    · next clear =>
      have clear : ¬start q < stop e := clear
      refine ⟨ordered,fun r mem => ?_,fun x => Iff.rfl,fun r mem => ⟨r,mem,rfl,le_refl _⟩⟩
      rcases mem_cons.mp mem with rfl | mem
      · omega
      have := later r mem
      omega

theorem Ordered.append (ordered : Ordered payload (before ++ after)) : Ordered payload before ∧ Ordered payload after := by
  obtain ⟨left,right,_⟩ := apart_append.mp ordered.apart
  exact ⟨⟨left,fun e mem => ordered.carries e (mem_append_left _ mem)⟩,⟨right,fun e mem => ordered.carries e (mem_append_right _ mem)⟩⟩

structure Fresh (payload : List UInt8) (e e' : Ipqent) (before after : List Ipqent) : Prop where
  carries : Carries payload e'
  short : e'.ip.ipLen < 65536
  stop : stop e' = stop e
  below : ∀ q ∈ before, IpReass.stop q ≤ start e'
  above : ∀ q ∈ after, start e' ≤ start q
  cover : ∀ x, x ∈ span start IpReass.stop e' ∪ cover start IpReass.stop before ↔ x ∈ span start IpReass.stop e ∪ cover start IpReass.stop before
  hl : e'.ip.ipHl = e.ip.ipHl
  from_ : start e ≤ start e'

theorem trimPrev_none (same : l = before ++ after) (early : ∀ q ∈ before, start q ≤ start e) (dropped : trimPrev before.getLast? e = none) :
    ∀ x ∈ span start stop e, x ∈ cover start stop l := by
  intro x inside
  cases last : before.getLast? with
  | none =>
    rw [last] at dropped
    cases dropped
  | some p =>
    have mem := mem_of_getLast? last
    have begins := early p mem
    rw [last,trimPrev] at dropped
    split at dropped
    · next overlap =>
      dsimp only at dropped
      split at dropped
      · next whole =>
        have whole : stop p - start e ≥ e.ip.ipLen := whole
        have stop_e : stop e = start e + e.ip.ipLen := rfl
        have inside : start e ≤ x ∧ x < stop e := inside
        refine ⟨p,?_,by omega,by omega⟩
        rw [same]
        exact mem_append_left _ mem
      · cases dropped
    · cases dropped

theorem trimPrev_some (same : l = before ++ after) (ordered : Ordered payload l) (carries : Carries payload e) (short_ : e.ip.ipLen < 65536)
    (early : ∀ q ∈ before, start q ≤ start e) (late : ∀ q ∈ after, start e < start q) (trimmable : ∀ q ∈ l, Trimmable e q)
    (left : trimPrev before.getLast? e = some e') : Fresh payload e e' before after := by
  subst same
  obtain ⟨apart,_,across⟩ := apart_append.mp ordered.apart
  have plain : (∀ q ∈ before, stop q ≤ start e) → Fresh payload e e before after := fun below =>
    ⟨carries,short_,rfl,below,fun q mem => le_of_lt (late q mem),fun x => Iff.rfl,rfl,le_refl _⟩
  cases last : before.getLast? with
  | none =>
    rw [last] at left
    cases left
    have empty := getLast?_eq_none_iff.mp last
    subst empty
    exact plain (by simp)
  | some p =>
    have mem := mem_of_getLast? last
    obtain ⟨init,split_⟩ := getLast?_eq_some_iff.mp last
    have reach : ∀ q ∈ before, stop q ≤ start p ∨ q = p := fun q member => by
      rw [split_] at member apart
      rcases mem_append.mp member with here | here
      · exact .inl ((apart_append.mp apart).2.2 q here p (by simp))
      · exact .inr (by simpa using here)
    have begins := early p mem
    rw [last,trimPrev] at left
    split at left
    · next overlap =>
      dsimp only at left
      split at left
      · cases left
      next part =>
      cases left
      have stop_e : stop e = start e + e.ip.ipLen := rfl
      have sum : start e + (stop p - e.ip.ipOff) = stop p := by
        have : start e = e.ip.ipOff := rfl
        omega
      have amount : stop p - e.ip.ipOff ≤ e.ip.ipLen := by
        omega
      have small : start e + (stop p - e.ip.ipOff) < 65536 := by
        rw [sum]
        exact (trimmable p (mem_append_left _ mem)).tail begins overlap (by omega)
      have new_start := mAdj_start (e := e) _ small
      have new_stop := mAdj_stop amount small short_
      rw [sum] at new_start
      refine ⟨carries.mAdj amount small short_,?_,new_stop,fun q member => ?_,fun q member => ?_,fun x => ?_,rfl,by omega⟩
      · rw [mAdj_len _ short_]
        omega
      · rcases reach q member with before_ | rfl
        · omega
        · exact le_of_eq new_start.symm
      · rw [new_start]
        exact across p mem q member
      simp only [Set.mem_union,mem_span,new_start,new_stop]
      constructor
      · rintro (this | this)
        · exact .inl (by omega)
        · exact .inr this
      rintro (this | this)
      · by_cases behind : stop p ≤ x
        · exact .inl (by omega)
        · exact .inr ⟨p,mem,by omega,by omega⟩
      · exact .inr this
    next clear =>
    have clear : ¬start e < stop p := clear
    cases left
    refine plain fun q member => ?_
    rcases reach q member with before_ | rfl
    · omega
    · omega

theorem early_late (ordered : Ordered payload l) (e : Ipqent) :
    (∀ q ∈ l.takeWhile (beginsBy e), start q ≤ start e) ∧ ∀ q ∈ l.dropWhile (beginsBy e), start e < start q := by
  have test : ∀ q, beginsBy e q = true ↔ start q ≤ start e := fun q => by simp [beginsBy,start]
  refine ⟨fun q mem => (test q).mp (all_eq_true.mp all_takeWhile q mem),fun q mem => ?_⟩
  have parts := takeWhile_append_dropWhile (p := beginsBy e) (l := l)
  have ordered' : Ordered payload (l.dropWhile (beginsBy e)) := by
    rw [← parts] at ordered
    exact ordered.append.2
  have head := head?_dropWhile_not (beginsBy e) l
  cases rest : l.dropWhile (beginsBy e) with
  | nil =>
    rw [rest] at mem
    cases mem
  | cons r rest' =>
    rw [rest] at mem ordered' head
    have first : start e < start r := by
      by_contra low
      have := (test r).mpr (by omega)
      simp [this] at head
    rcases mem_cons.mp mem with rfl | later
    · exact first
    have := (apart_cons.mp ordered'.apart).2.1 q later
    have := start_le r
    omega

structure Inserted (payload : List UInt8) (e : Ipqent) (l l' : List Ipqent) : Prop where
  ordered : Ordered payload l'
  cover : ∀ x, x ∈ cover start stop l' ↔ x ∈ cover start stop (e :: l)
  from_ : ∀ q ∈ l', ∃ old ∈ e :: l, q.ip.ipHl = old.ip.ipHl ∧ start old ≤ start q

theorem inserted (ordered : Ordered payload l) (carries : Carries payload e) (short_ : e.ip.ipLen < 65536)
    (trimmable : ∀ q ∈ l, Trimmable e q) (left : trimPrev (l.takeWhile (beginsBy e)).getLast? e = some e') :
    Inserted payload e l (l.takeWhile (beginsBy e) ++ e' :: (trimNext e' (l.dropWhile (beginsBy e))).1) := by
  obtain ⟨early,late⟩ := early_late ordered e
  have same := (takeWhile_append_dropWhile (p := beginsBy e) (l := l)).symm
  have fresh := trimPrev_some same ordered carries short_ early late trimmable left
  rw [same] at ordered
  obtain ⟨ordered₁,ordered₂⟩ := ordered.append
  have across := (apart_append.mp ordered.apart).2.2
  have trimmed : Trimmed payload e' (l.dropWhile (beginsBy e)) (trimNext e' (l.dropWhile (beginsBy e))).1 :=
    trimNext_spec ordered₂ fresh.above fun q mem overlap past => by
      rw [fresh.stop] at overlap past ⊢
      refine (trimmable q ?_).front (late q mem) overlap past
      rw [same]
      exact mem_append_right _ mem
  generalize l.takeWhile (beginsBy e) = before at *
  generalize l.dropWhile (beginsBy e) = after at *
  generalize (trimNext e' after).1 = after' at *
  subst same
  have right := ordered_cons fresh.carries fresh.short trimmed.above trimmed.ordered
  have start_e' := start_le e'
  refine ⟨⟨apart_append.mpr ⟨ordered₁.apart,right.apart,fun a mem b mem' => ?_⟩,fun q mem => ?_⟩,fun x => ?_,fun q mem => ?_⟩
  · have low := fresh.below a mem
    rcases mem_cons.mp mem' with rfl | later
    · exact low
    have := trimmed.above b later
    omega
  · rcases mem_append.mp mem with here | here
    · exact ordered₁.carries q here
    · exact right.carries q here
  · have one := fresh.cover x
    have two := trimmed.cover x
    rw [cover_append,cover_cons,cover_cons,cover_append]
    simp only [Set.mem_union] at one two ⊢
    tauto
  rcases mem_append.mp mem with here | here
  · exact ⟨q,mem_cons_of_mem _ (mem_append_left _ here),rfl,le_refl _⟩
  rcases mem_cons.mp here with rfl | here
  · exact ⟨e,mem_cons_self,fresh.hl,fresh.from_⟩
  obtain ⟨old,mem,hl,starts⟩ := trimmed.from_ q here
  exact ⟨old,mem_cons_of_mem _ (mem_append_right _ mem),hl,starts⟩

theorem covered (ordered : Ordered payload l) (left : trimPrev (l.takeWhile (beginsBy e)).getLast? e = none) :
    ∀ x, x ∈ cover start stop l ↔ x ∈ cover start stop (e :: l) := by
  have same := (takeWhile_append_dropWhile (p := beginsBy e) (l := l)).symm
  have dropped := trimPrev_none same (early_late ordered e).1 left
  intro x
  rw [cover_cons,Set.mem_union]
  constructor
  · exact .inr
  rintro (inside | inside)
  · exact dropped x inside
  · exact inside

-- The counters of the reassembly against its queues.
open Function Finset
def total (w : Ipq → Int) (s : Reass) : Int := ∑ h, ((s.ipq h).map w).sum
def one (_ : Ipq) : Int := 1
def entries (fp : Ipq) : Int := fp.fragq.length

structure Counted (s : Reass) : Prop where
  packets : s.ipNfragpackets = ∑ h, ((s.ipq h).length : Int)
  queues : ∀ h, ∀ fp ∈ s.ipq h, fp.nfrags = fp.fragq.length
  frags : s.ipNfrags = total (fun fp => fp.nfrags) s

inductive Action where
  | reass (h : Fin 64) (fp : Option Nat) (ipqe : Ipqent) (malloc : Bool)
  | freef (h : Fin 64) (k : Nat)
  | ttlDecr (ticks : Nat)

def step (s : Reass) : Action → Except Halt Reass
  | .reass h fp ipqe malloc => .ok (ipReass s h fp ipqe malloc).1
  | .freef h k =>
    match (s.ipq h)[k]? with
    | none => .ok s
    | some fp => .ok (ipFreef s h k fp)
  | .ttlDecr ticks => do
    let r ← ipReassTtlDecr s ticks
    .ok r.1

inductive Reached (cond : Reass → Action → Prop) (max : Int) : Reass → Prop
  | start : Reached cond max ⟨fun _ => [],0,0,max⟩
  | step (reached : Reached cond max s) (meets : cond s a) (ran : step s a = .ok s') : Reached cond max s'

def Roomy (fp : Ipq) (ipqe : Ipqent) : Prop := fp.fragq.length < 65535 ∨
  ∀ e, trimPrev (fp.fragq.takeWhile (beginsBy ipqe)).getLast? ipqe = some e → 0 < (trimNext e (fp.fragq.dropWhile (beginsBy ipqe))).2

-- There is memory for each queue that is made, and no queue outgrows its counter.
def Meets (s : Reass) : Action → Prop
  | .reass _ none _ malloc => refused s = true ∨ malloc = true
  | .reass h (some k) ipqe _ => ∀ fp, (s.ipq h)[k]? = some fp → Roomy fp ipqe
  | _ => True

variable {s s' : Reass} {h : Fin 64} {fp : Ipq} {ipqe : Ipqent} {l : List Ipq} {k : Nat} {w : Ipq → Int}

theorem total_set (w : Ipq → Int) (s : Reass) (h : Fin 64) (l : List Ipq) :
    total w (setIpq s h l) = total w s + (l.map w).sum - ((s.ipq h).map w).sum := by
  have new : total w (setIpq s h l) = (l.map w).sum + ∑ x ∈ univ.erase h, ((s.ipq x).map w).sum := by
    unfold total
    rw [← add_sum_erase _ _ (mem_univ h)]
    congr 1
    · simp [setIpq]
    refine sum_congr rfl fun x mem => ?_
    simp [setIpq,update_of_ne (ne_of_mem_erase mem)]
  have old : total w s = ((s.ipq h).map w).sum + ∑ x ∈ univ.erase h, ((s.ipq x).map w).sum :=
    (add_sum_erase _ _ (mem_univ h)).symm
  omega

theorem total_one (s : Reass) : total one s = ∑ h, ((s.ipq h).length : Int) := by
  unfold total one
  simp

theorem sum_eraseIdx (w : Ipq → Int) (at_ : l[k]? = some fp) : ((l.eraseIdx k).map w).sum = (l.map w).sum - w fp := by
  induction l generalizing k with
  | nil => cases at_
  | cons x l ih =>
    cases k with
    | zero =>
      cases Option.some.inj at_
      simp
    | succ k =>
      have := ih at_
      simp only [List.eraseIdx_cons_succ,List.map_cons,List.sum_cons]
      omega

theorem sum_set (w : Ipq → Int) (new : Ipq) (at_ : l[k]? = some fp) : ((l.set k new).map w).sum = (l.map w).sum - w fp + w new := by
  induction l generalizing k with
  | nil => cases at_
  | cons x l ih =>
    cases k with
    | zero =>
      cases Option.some.inj at_
      simp only [List.set_cons_zero,List.map_cons,List.sum_cons]
      omega
    | succ k =>
      have := ih at_
      simp only [List.set_cons_succ,List.map_cons,List.sum_cons]
      omega

theorem counted_iff (s : Reass) : Counted s ↔
    s.ipNfragpackets = total one s ∧ s.ipNfrags = total entries s ∧ ∀ h, ∀ fp ∈ s.ipq h, fp.nfrags = fp.fragq.length := by
  rw [total_one]
  have same : (∀ h, ∀ fp ∈ s.ipq h, fp.nfrags = fp.fragq.length) → total (fun fp => fp.nfrags) s = total entries s := fun queues => by
    unfold total entries
    refine sum_congr rfl fun h _ => ?_
    congr 1
    exact map_congr_left fun fp mem => by rw [queues h fp mem]
  constructor
  · rintro ⟨packets,queues,frags⟩
    exact ⟨packets,frags.trans (same queues),queues⟩
  rintro ⟨packets,frags,queues⟩
  exact ⟨packets,queues,frags.trans (same queues).symm⟩

structure Inv (s : Reass) : Prop where
  packets : s.ipNfragpackets = total one s
  frags : s.ipNfrags = total entries s
  queues : ∀ h, ∀ fp ∈ s.ipq h, fp.nfrags = fp.fragq.length ∧ fp.fragq.length < 65536

theorem Inv.counted (inv : Inv s) : Counted s :=
  (counted_iff s).mpr ⟨inv.packets,inv.frags,fun h fp mem => (inv.queues h fp mem).1⟩

@[simp] theorem setIpq_self (s : Reass) (h : Fin 64) (l : List Ipq) : (setIpq s h l).ipq h = l := update_self _ _ _

theorem setIpq_other (s : Reass) (l : List Ipq) {x : Fin 64} (other : x ≠ h) : (setIpq s h l).ipq x = s.ipq x :=
  update_of_ne other _ _

theorem Inv.set (inv : Inv s) (h : Fin 64) (l : List Ipq) (dp df : Int) (packets : (l.map one).sum = ((s.ipq h).map one).sum + dp)
    (frags : (l.map entries).sum = ((s.ipq h).map entries).sum + df)
    (queues : ∀ fp ∈ l, fp.nfrags = fp.fragq.length ∧ fp.fragq.length < 65536) :
    Inv (setIpq {s with ipNfragpackets := s.ipNfragpackets + dp,ipNfrags := s.ipNfrags + df} h l) where
  packets := by
    rw [total_set,packets]
    have old : s.ipNfragpackets = total one {s with ipNfragpackets := s.ipNfragpackets + dp,ipNfrags := s.ipNfrags + df} := inv.packets
    simp only [setIpq]
    omega
  frags := by
    rw [total_set,frags]
    have old : s.ipNfrags = total entries {s with ipNfragpackets := s.ipNfragpackets + dp,ipNfrags := s.ipNfrags + df} := inv.frags
    simp only [setIpq]
    omega
  queues := fun x fp mem => by
    by_cases same : x = h
    · subst same
      rw [setIpq_self] at mem
      exact queues fp mem
    rw [setIpq_other _ _ same] at mem
    exact inv.queues x fp mem

theorem erased (inv : Inv s) (at_ : (s.ipq h)[k]? = some fp) (df : Int) (count : df = -(fp.fragq.length : Int)) :
    Inv (setIpq {s with ipNfragpackets := s.ipNfragpackets + -1,ipNfrags := s.ipNfrags + df} h ((s.ipq h).eraseIdx k)) :=
  inv.set h _ _ _ (sum_eraseIdx one at_) (by
    rw [sum_eraseIdx entries at_,count]
    rfl) fun x mem => inv.queues h x (mem_of_mem_eraseIdx mem)

theorem freef_inv (inv : Inv s) (at_ : (s.ipq h)[k]? = some fp) : Inv (ipFreef s h k fp) := erased inv at_ _ rfl

theorem complete_inv (inv : Inv s) (at_ : (s.ipq h)[k]? = some fp) : Inv (complete s h k fp).1 := by
  unfold complete
  split
  · split
    · exact inv
    split
    · exact freef_inv inv at_
    have count := (inv.queues h fp (mem_of_getElem? at_)).1
    exact erased inv at_ (-fp.nfrags) (by rw [count])
  · exact inv

theorem first_inv (inv : Inv s) (h : Fin 64) (ipqe : Ipqent) (malloc : Bool) (meets : refused s = true ∨ malloc = true) :
    Inv (ipReassFirst s h ipqe malloc).1 := by
  have back : {s with ipNfrags := s.ipNfrags + 1 - 1} = s := by
    rw [Int.add_sub_cancel]
  have same : refused {s with ipNfrags := s.ipNfrags + 1} = refused s := rfl
  unfold ipReassFirst
  dsimp only
  rw [same,back]
  split
  · exact inv
  next room =>
  rw [if_neg (by rcases meets with full | memory; exacts [absurd full room,by simp [memory]])]
  refine complete_inv (inv.set h (newIpq ipqe :: s.ipq h) 1 1 ?_ ?_ ?_) (by rw [setIpq_self]; rfl)
  · simp [one,Int.add_comm]
  · simp [entries,newIpq,Int.add_comm]
  intro fp mem
  rcases mem_cons.mp mem with rfl | old
  · simp [newIpq]
  · exact inv.queues h fp old

theorem trimNext_count (e : Ipqent) (l : List Ipqent) : (trimNext e l).1.length + (trimNext e l).2 = l.length := by
  induction l with
  | nil => rfl
  | cons q l ih =>
    rw [trimNext]
    split
    · dsimp only
      split
      · rfl
      show (trimNext e l).1.length + ((trimNext e l).2 + 1) = l.length + 1
      omega
    · rfl

theorem next_inv (inv : Inv s) (at_ : (s.ipq h)[k]? = some fp) (ipqe : Ipqent) (roomy : Roomy fp ipqe) :
    Inv (ipReassNext s h k fp ipqe).1 := by
  obtain ⟨count,bound⟩ := inv.queues h fp (mem_of_getElem? at_)
  have others : ∀ new : Ipq, (new.nfrags = new.fragq.length ∧ new.fragq.length < 65536) →
      ∀ x ∈ (s.ipq h).set k new, x.nfrags = x.fragq.length ∧ x.fragq.length < 65536 := fun new fine x mem => by
    rcases mem_or_eq_of_mem_set mem with old | rfl
    · exact inv.queues h x old
    · exact fine
  unfold ipReassNext
  dsimp only
  split
  · have back : s.ipNfrags + 1 - 1 = s.ipNfrags + 0 := by omega
    have same : s.ipNfragpackets = s.ipNfragpackets + 0 := by omega
    rw [back]
    refine cast (by rw [← same]) (inv.set h _ 0 0 ?_ ?_ (others {fp with nfrags := short (short (fp.nfrags + 1) + 65535)} ?_))
    · rw [sum_set one _ at_]
      simp [one]
    · rw [sum_set entries _ at_]
      simp [entries]
    refine ⟨?_,bound⟩
    unfold short
    dsimp only
    omega
  next e kept =>
  have split_ := congrArg length (takeWhile_append_dropWhile (p := beginsBy ipqe) (l := fp.fragq))
  rw [length_append] at split_
  have left := trimNext_count e (fp.fragq.dropWhile (beginsBy ipqe))
  have room : fp.fragq.length < 65535 ∨ 0 < (trimNext e (fp.fragq.dropWhile (beginsBy ipqe))).2 := roomy.imp_right fun more => more e kept
  generalize trimNext e (fp.fragq.dropWhile (beginsBy ipqe)) = r at left room
  obtain ⟨after,removed⟩ := r
  dsimp only at left room ⊢
  generalize fp.fragq.takeWhile (beginsBy ipqe) = before at split_
  have new := inv.set h ((s.ipq h).set k {fp with nfrags := short (short (fp.nfrags + 1) + 65535 * removed),fragq := before ++ e :: after})
    0 (1 - removed) (by rw [sum_set one _ at_]; simp [one]) (by
      rw [sum_set entries _ at_]
      simp only [entries,length_append,length_cons]
      omega) (others _ (by
      unfold short
      simp only [length_append,length_cons]
      omega))
  refine complete_inv (cast ?_ new) ?_
  · congr 3
    · omega
    · omega
  · rw [setIpq_self,List.getElem?_set_self (List.getElem?_eq_some_iff.mp at_).1]

def kept (ticks : Nat) (l : List Ipq) : List Ipq := (l.filter fun fp => ticks < fp.ttl).map fun fp => {fp with ttl := fp.ttl - ticks}
def nfragsSum (l : List Ipq) : Nat := (l.map Ipq.nfrags).sum

theorem ttlChain_spec (ticks : Nat) (l : List Ipq) (s : Reass) (t : Ttl) :
    (ttlChain ticks l s t).1 = kept ticks l ∧ (ttlChain ticks l s t).2.1.ipq = s.ipq ∧
    (ttlChain ticks l s t).2.1.ipNfragpackets - ((kept ticks l).map one).sum = s.ipNfragpackets - (l.map one).sum ∧
    (ttlChain ticks l s t).2.1.ipNfrags - ((kept ticks l).map entries).sum = s.ipNfrags - (l.map entries).sum ∧
    (ttlChain ticks l s t).2.2.nfrags = t.nfrags + nfragsSum (kept ticks l) := by
  induction l generalizing s t with
  | nil => exact ⟨rfl,rfl,rfl,rfl,rfl⟩
  | cons fp l ih =>
    by_cases excess : fp.ttl ≤ ticks
    · have drop : kept ticks (fp :: l) = kept ticks l := by
        simp [kept,List.filter_cons,not_lt.mpr excess]
      obtain ⟨list,chains,packets,frags,count⟩ := ih (freed s fp) t
      have step : ttlChain ticks (fp :: l) s t = ttlChain ticks l (freed s fp) t := by
        rw [ttlChain,if_pos excess]
        exact if_pos rfl
      rw [step,drop]
      refine ⟨list,chains,?_,?_,count⟩
      · rw [packets]
        simp only [freed,one,List.map_cons,List.sum_cons]
        omega
      rw [frags]
      simp only [freed,entries,List.map_cons,List.sum_cons]
      omega
    have keep : kept ticks (fp :: l) = {fp with ttl := fp.ttl - ticks} :: kept ticks l := by
      simp [kept,List.filter_cons,Nat.lt_of_not_le excess]
    have step : ttlChain ticks (fp :: l) s t =
        ({fp with ttl := fp.ttl - ticks} :: (ttlChain ticks l s ⟨t.nfrags + fp.nfrags,update t.histo (fp.ttl - ticks) (t.histo (fp.ttl - ticks) + fp.nfrags)⟩).1,
          (ttlChain ticks l s ⟨t.nfrags + fp.nfrags,update t.histo (fp.ttl - ticks) (t.histo (fp.ttl - ticks) + fp.nfrags)⟩).2) := by
      rw [ttlChain,if_neg excess]
      exact if_neg (by omega)
    rw [step,keep]
    obtain ⟨list,chains,packets,frags,count⟩ := ih s ⟨t.nfrags + fp.nfrags,update t.histo (fp.ttl - ticks) (t.histo (fp.ttl - ticks) + fp.nfrags)⟩
    generalize ttlChain ticks l s _ = r at list chains packets frags count
    refine ⟨by rw [list],chains,?_,?_,?_⟩
    · simp only [one,List.map_cons,List.sum_cons] at packets ⊢
      omega
    · simp only [entries,List.map_cons,List.sum_cons] at frags ⊢
      omega
    simp only [nfragsSum,List.map_cons,List.sum_cons] at count ⊢
    omega

theorem ttlChains_spec (ticks : Nat) (hs : List (Fin 64)) (nodup : hs.Nodup) (s : Reass) (t : Ttl) :
    (∀ x, (ttlChains ticks hs s t).1.ipq x = if x ∈ hs then kept ticks (s.ipq x) else s.ipq x) ∧
    (ttlChains ticks hs s t).1.ipNfragpackets - total one (ttlChains ticks hs s t).1 = s.ipNfragpackets - total one s ∧
    (ttlChains ticks hs s t).1.ipNfrags - total entries (ttlChains ticks hs s t).1 = s.ipNfrags - total entries s ∧
    (ttlChains ticks hs s t).2.nfrags = t.nfrags + (hs.map fun x => nfragsSum (kept ticks (s.ipq x))).sum := by
  induction hs generalizing s t with
  | nil => exact ⟨fun x => by simp [ttlChains],rfl,rfl,rfl⟩
  | cons h hs ih =>
    obtain ⟨fresh,nodup⟩ := nodup_cons.mp nodup
    obtain ⟨list,chains,packets,frags,count⟩ := ttlChain_spec ticks (s.ipq h) s t
    rw [ttlChains]
    generalize ttlChain ticks (s.ipq h) s t = r at list chains packets frags count
    obtain ⟨l,s₁,t₁⟩ := r
    dsimp only at list chains packets frags count ⊢
    subst list
    obtain ⟨lists,packets',frags',count'⟩ := ih nodup (setIpq s₁ h (kept ticks (s.ipq h))) t₁
    have away : ∀ x ∈ hs, (setIpq s₁ h (kept ticks (s.ipq h))).ipq x = s.ipq x := fun x mem => by
      rw [setIpq_other _ _ (by rintro rfl; exact fresh mem),chains]
    have same : ∀ w : Ipq → Int, total w s₁ = total w s := fun w => by
      unfold total
      rw [chains]
    refine ⟨fun x => ?_,?_,?_,?_⟩
    · rw [lists x]
      by_cases here : x = h
      · subst here
        rw [if_neg fresh,setIpq_self,if_pos List.mem_cons_self]
      rw [setIpq_other _ _ here,chains]
      simp [here]
    · rw [packets',total_set,same,chains]
      simp only [setIpq]
      omega
    · rw [frags',total_set,same,chains]
      simp only [setIpq]
      omega
    rw [count',count,List.map_cons,List.sum_cons,add_assoc]
    congr 2
    exact congrArg sum (map_congr_left fun x mem => by rw [away x mem])

theorem kept_mem {ticks : Nat} (mem : fp ∈ kept ticks l) : ∃ old ∈ l, fp.nfrags = old.nfrags ∧ fp.fragq = old.fragq := by
  obtain ⟨old,here,rfl⟩ := mem_map.mp mem
  exact ⟨old,mem_of_mem_filter here,rfl,rfl⟩

theorem ttl_inv (inv : Inv s) (ticks : Nat) : ∃ s' median, ipReassTtlDecr s ticks = .ok (s',median) ∧ Inv s' := by
  obtain ⟨lists,packets,frags,count⟩ := ttlChains_spec ticks (finRange 64) (nodup_finRange 64) s ⟨0,fun _ => 0⟩
  unfold ipReassTtlDecr
  generalize ttlChains ticks (finRange 64) s ⟨0,fun _ => 0⟩ = r at lists packets frags count
  obtain ⟨s',t⟩ := r
  dsimp only at lists packets frags count ⊢
  have chain : ∀ x, s'.ipq x = kept ticks (s.ipq x) := fun x => by rw [lists x,if_pos (mem_finRange x)]
  have queues : ∀ x, ∀ fp ∈ s'.ipq x, fp.nfrags = fp.fragq.length ∧ fp.fragq.length < 65536 := fun x fp mem => by
    rw [chain x] at mem
    obtain ⟨old,here,nfrags,fragq⟩ := kept_mem mem
    rw [nfrags,fragq]
    exact inv.queues x old here
  have sum : (t.nfrags : Int) = total entries s' := by
    rw [count,total,Fin.sum_univ_def,zero_add]
    have each : ∀ x, ((s'.ipq x).map entries).sum = ((nfragsSum (kept ticks (s.ipq x)) : Nat) : Int) := fun x => by
      rw [← chain x,nfragsSum,cast_list_sum,List.map_map]
      refine congrArg sum (map_congr_left fun fp mem => ?_)
      rw [Function.comp,(queues x fp mem).1]
      rfl
    simp only [each]
    rfl
  have exact_ : s'.ipNfrags = t.nfrags := by
    have := inv.frags
    omega
  rw [if_neg (by simpa using exact_)]
  refine ⟨_,_,rfl,?_,exact_.trans sum,queues⟩
  have := inv.packets
  omega

theorem step_inv (inv : Inv s) (a : Action) (meets : Meets s a) (ran : step s a = .ok s') : Inv s' := by
  cases a with
  | reass h fp ipqe malloc =>
    cases ran
    cases fp with
    | none => exact first_inv inv h ipqe malloc meets
    | some k =>
      dsimp only [ipReass]
      cases at_ : (s.ipq h)[k]? with
      | none => exact inv
      | some fp => exact next_inv inv at_ ipqe (meets fp at_)
  | freef h k =>
    rw [step] at ran
    cases at_ : (s.ipq h)[k]? with
    | none =>
      rw [at_] at ran
      cases ran
      exact inv
    | some fp =>
      rw [at_] at ran
      cases ran
      exact freef_inv inv at_
  | ttlDecr ticks =>
    obtain ⟨s₁,median,ok,inv'⟩ := ttl_inv inv ticks
    rw [step,ok] at ran
    cases ran
    exact inv'

theorem start_inv (max : Int) : Inv ⟨fun _ => [],0,0,max⟩ where
  packets := by simp [total]
  frags := by simp [total]
  queues := fun _ _ mem => by cases mem

theorem Reached.inv {max : Int} (reached : Reached Meets max s) : Inv s := by
  induction reached with
  | start => exact start_inv max
  | step _ meets ran ih => exact step_inv ih _ meets ran

-- The counters are right, and the assertion of ip_reass_ttl_decr holds.
theorem reass_counted {max : Int} (reached : Reached Meets max s) :
    Counted s ∧ ∀ ticks, ∃ s' median, ipReassTtlDecr s ticks = .ok (s',median) := by
  refine ⟨reached.inv.counted,fun ticks => ?_⟩
  obtain ⟨s',median,ok,_⟩ := ttl_inv reached.inv ticks
  exact ⟨s',median,ok⟩

def someIp : Ip := ⟨5,0,8,7,0,17,1,2⟩
def someFragment : Ipqent := ⟨true,someIp,[1,2,3,4,5,6,7,8]⟩

theorem reass_counted_freed : ∃ s s', Reached Meets 200 s ∧ s.ipNfrags = 1 ∧ step s (.ttlDecr 60) = .ok s' ∧ Counted s ∧ Counted s' := by
  have first : Reached Meets 200 (ipReass ⟨fun _ => [],0,0,200⟩ 3 none someFragment true).1 :=
    .step (a := .reass 3 none someFragment true) .start (.inr rfl) rfl
  obtain ⟨s',median,ok⟩ := (reass_counted first).2 60
  have ran : step (ipReass ⟨fun _ => [],0,0,200⟩ 3 none someFragment true).1 (.ttlDecr 60) = .ok s' := by
    rw [step,ok]
    rfl
  exact ⟨_,s',first,rfl,ran,(reass_counted first).1,(reass_counted (first.step (a := .ttlDecr 60) trivial ran)).1⟩

-- Without memory for the queue, the packet stays counted.
theorem reass_leaks : ∃ s, Reached (fun _ _ => True) 200 s ∧ s.ipq = (fun _ => []) ∧ s.ipNfragpackets = 1 ∧ ¬Counted s := by
  refine ⟨_,.step (a := .reass 3 none someFragment false) .start trivial rfl,rfl,rfl,fun counted => ?_⟩
  have packets := counted.packets
  revert packets
  decide
end NetbsdAvr32.IpReass
