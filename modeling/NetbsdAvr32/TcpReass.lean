import Mathlib.Data.List.Basic
import NetbsdAvr32.Serial
import NetbsdAvr32.Cuts

-- sys/netinet/tcp_input.c: the queue of segments that came out of order.
namespace NetbsdAvr32.TcpReass
open Serial List

-- struct ipqent, by its address. Of the flags, TH_FIN is looked at, and the chain is its bytes.
structure Ipqent where
  addr : Nat
  seq : Seq
  len : Seq
  fin : Bool
  data : List UInt8
  deriving DecidableEq, Repr

-- The fields of struct tcpcb and of so_rcv that tcp_reass works on. `timeq` lists the addresses, and
-- `asserts` says that every KASSERT has held so far.
structure Reass where
  segq : List Ipqent
  timeq : List Nat
  segqlen : Int
  rcvNxt : Seq
  soRcv : List UInt8
  cantRcvMore : Bool
  asserts : Bool
  deriving DecidableEq, Repr

-- The received segment as it is merged with what overlaps it: pkt_seq, pkt_len, pkt_flags and m.
structure Pkt where
  seq : Seq
  len : Seq
  fin : Bool
  data : List UInt8
  deriving DecidableEq, Repr

def Ipqent.stop (q : Ipqent) : Seq := q.seq + q.len
def Pkt.stop (pkt : Pkt) : Seq := pkt.seq + pkt.len

-- m_adj on the bytes of a chain.
def mAdj (data : List UInt8) (len : Int) : List UInt8 := if len ≥ 0 then data.drop len.toNat else data.take (data.length - (-len).toNat)

-- The place after which the entry goes is the last of `before`; `passed` was walked over.
inductive Scan where
  | dup (s : Reass)
  | insert (s : Reass) (pkt : Pkt) (tiqe : Option Nat) (before after : List Ipqent)

-- An entry leaves both queues, and `left` is what stays on segq.
def unlink (s : Reass) (q : Ipqent) (left : List Ipqent) : Reass :=
  let timeq := s.timeq.erase q.addr
  let segqlen := s.segqlen - 1
  {s with timeq := timeq,segqlen := segqlen,asserts := s.asserts && (segqlen ≥ 0 && (segqlen ≠ 0 || (left.isEmpty && timeq.isEmpty)))}

-- RX'ed segment extends past the front of the fragment.
def trimFront (q : Ipqent) (pkt : Pkt) : Pkt :=
  if seqGt q.seq pkt.seq && seqLt q.seq pkt.stop then
    let overlap := pkt.stop - q.seq
    {pkt with len := pkt.len - overlap,data := mAdj pkt.data (-overlap.toInt)}
  else pkt

-- The loop over the segments, of which `before` ends with p. At free_ipqe the entry is kept as tiqe
-- if there is none yet.
def scan (s : Reass) (pkt : Pkt) (tiqe : Option Nat) (before passed : List Ipqent) : List Ipqent → Scan
  | [] => .insert s pkt tiqe before passed
  | q :: rest =>
    -- The received segment is just right after this fragment.
    if q.stop = pkt.seq then
      scan (unlink s q (before ++ passed ++ rest)) ⟨q.seq,pkt.len + q.len,pkt.fin || q.fin,q.data ++ pkt.data⟩ (tiqe.or (some q.addr)) before passed rest
    else if seqLt q.stop pkt.seq then scan s pkt tiqe (before ++ passed ++ [q]) [] rest
    else if seqGt q.seq pkt.stop then .insert s pkt tiqe before (passed ++ q :: rest)
    -- We've received all the data in this segment before.
    else if seqLeq q.seq pkt.seq && seqGeq q.stop pkt.stop then .dup {s with segq := before ++ passed ++ q :: rest}
    -- Received segment completely overlaps this fragment.
    else if seqGeq q.seq pkt.seq && seqLeq q.stop pkt.stop then scan (unlink s q (before ++ passed ++ rest)) pkt (tiqe.or (some q.addr)) before passed rest
    -- RX'ed segment extends past the end of the fragment.
    else if seqLt q.seq pkt.seq && seqGt q.stop pkt.seq then
      let overlap := q.stop - pkt.seq
      scan (unlink s q (before ++ passed ++ rest)) ⟨q.seq,pkt.len + (q.len - overlap),pkt.fin,q.data ++ mAdj pkt.data overlap.toInt⟩ (tiqe.or (some q.addr)) before passed rest
    else
      let pkt := trimFront q pkt
      if q.seq = pkt.stop then
        .insert (unlink s q (before ++ passed ++ rest)) ⟨pkt.seq,pkt.len + q.len,pkt.fin || q.fin,pkt.data ++ q.data⟩ (tiqe.or (some q.addr)) before (passed ++ rest)
      else if seqLeq q.seq pkt.seq then scan s pkt tiqe (before ++ passed ++ [q]) [] rest
      else scan s pkt tiqe before (passed ++ [q]) rest

-- Present data to user, advancing rcv_nxt through completed sequence space.
def present (s : Reass) : Reass × Bool :=
  match s.segq with
  | [] => (s,false)
  | q :: rest =>
    if q.seq ≠ s.rcvNxt then (s,false)
    else
      let soRcv := if s.cantRcvMore then s.soRcv else s.soRcv ++ q.data
      ({unlink s q rest with segq := rest,rcvNxt := s.rcvNxt + q.len,soRcv := soRcv},q.fin)

-- insert_it: without an entry to reuse, tcpipqent_alloc gives one or none.
def insertIt (s : Reass) (pkt : Pkt) (tiqe got : Option Nat) (before after : List Ipqent) : Reass × Bool :=
  match tiqe.or got with
  | none => ({s with segq := before ++ after},false)
  | some addr =>
    present {s with segq := before ++ ⟨addr,pkt.seq,pkt.len,pkt.fin,pkt.data⟩ :: after,timeq := addr :: s.timeq,segqlen := s.segqlen + 1}

-- An entry that took the segment in becomes the most recent one.
def skipReplacement (s : Reass) (segq : List Ipqent) (addr : Nat) : Reass × Bool :=
  present {s with segq := segq,timeq := addr :: s.timeq.erase addr}

def search (s : Reass) (pkt : Pkt) (got : Option Nat) : Reass × Bool :=
  match scan s pkt none [] [] s.segq with
  | .dup s => (s,false)
  | .insert s pkt tiqe before after => insertIt s pkt tiqe got before after

-- This segment may immediately precede the first out-of-order block.
def prependFirst (s : Reass) (pkt : Pkt) (got : Option Nat) : Reass × Bool :=
  match s.segq with
  | [] => search s pkt got
  | q :: rest =>
    if pkt.stop = q.seq then
      skipReplacement s ({q with seq := pkt.seq,len := q.len + pkt.len,fin := q.fin || pkt.fin,data := pkt.data ++ q.data} :: rest) q.addr
    else search s pkt got

-- tcp_reass of an established connection, with what it returns of the flags.
def tcpReass (s : Reass) (pkt : Pkt) (got : Option Nat) : Reass × Bool :=
  match s.segq.getLast? with
  | none => prependFirst s pkt got
  | some p =>
    if pkt.seq = p.stop then
      skipReplacement s (s.segq.dropLast ++ [{p with len := p.len + pkt.len,fin := p.fin || pkt.fin,data := p.data ++ pkt.data}]) p.addr
    else if seqGt pkt.seq p.stop then insertIt s pkt none got s.segq []
    else prependFirst s pkt got

open Cuts

def Ipqent.pkt (q : Ipqent) : Pkt := ⟨q.seq,q.len,q.fin,q.data⟩

-- Where a piece begins and ends, counted from u.
def begins (u : Seq) (b : Pkt) : Int := diff b.seq u
def ends (u : Seq) (b : Pkt) : Int := diff b.seq u + b.data.length

-- The piece has the bytes of the stream for its numbers. `good` is known of the FIN bit and the end.
structure Carries (st : Int → UInt8) (good : Bool → Int → Prop) (u : Seq) (b : Pkt) : Prop where
  low : 0 ≤ begins u b
  high : ends u b < half
  len : b.len = BitVec.ofNat 32 b.data.length
  bytes : b.data = cut st (begins u b) b.data.length
  fin : good b.fin (ends u b)

-- A piece may take over the FIN bit of one that ends no later.
def Joins (good : Bool → Int → Prop) : Prop := ∀ f g s t,s ≤ t → good f s → good g t → good (f || g) t
def Gap (u : Seq) (a b : Ipqent) : Prop := ends u a.pkt < begins u b.pkt

structure Entries (st : Int → UInt8) (good : Bool → Int → Prop) (u : Seq) (l : List Ipqent) : Prop where
  each : ∀ q ∈ l,Carries st good u q.pkt
  apart : l.Pairwise (Gap u)

-- Both queues have the same entries, and the counter is right.
structure Counted (s : Reass) (l : List Ipqent) : Prop where
  count : s.segqlen = l.length
  times : s.timeq.Perm (l.map Ipqent.addr)
  distinct : (l.map Ipqent.addr).Nodup
  asserts : s.asserts = true

variable {st : Int → UInt8} {good : Bool → Int → Prop} {P : Ipqent → Prop} {u : Seq} {b c pkt : Pkt} {s s' : Reass} {q : Ipqent} {l before after rest : List Ipqent} {tiqe got : Option Nat}

theorem stop_diff (carries : Carries st good u b) : diff b.stop u = ends u b := by
  have low := carries.low
  have high := carries.high
  unfold begins at low
  unfold Pkt.stop ends
  rw [carries.len]
  refine diff_forward ?_ high
  unfold half
  omega

theorem stop_eq_iff (one : Carries st good u b) (two : 0 ≤ diff c.seq u) : b.stop = c.seq ↔ ends u b = begins u c := by
  rw [← stop_diff one]
  exact ahead_eq

theorem begins_le_ends (u : Seq) (b : Pkt) : begins u b ≤ ends u b := by
  unfold begins ends
  omega

theorem Carries.join {good' : Bool → Int → Prop} (one : Carries st good' u b) (two : Carries st good u c) (touch : ends u b = begins u c) {len : Seq} {fin : Bool}
    (sum : len = b.len + c.len) (ok : good fin (ends u c)) : Carries st good u ⟨b.seq,len,fin,b.data ++ c.data⟩ ∧ ends u ⟨b.seq,len,fin,b.data ++ c.data⟩ = ends u c := by
  have end_ : ends u ⟨b.seq,len,fin,b.data ++ c.data⟩ = ends u c := by
    unfold ends begins at *
    simp only [length_append]
    omega
  refine ⟨⟨one.low,?_,?_,?_,?_⟩,end_⟩
  · rw [end_]
    exact two.high
  · rw [sum,one.len,two.len]
    simp [BitVec.ofNat_add]
  · rw [length_append,← cut_append]
    have first := one.bytes
    have second := two.bytes
    rw [← touch] at second
    exact congr (congrArg List.append first) second
  rw [end_]
  exact ok

theorem Carries.dropFirst (carries : Carries st good u b) {n : Nat} (within : n ≤ b.data.length) :
    Carries st good u ⟨b.seq + BitVec.ofNat 32 n,b.len - BitVec.ofNat 32 n,b.fin,b.data.drop n⟩ ∧
      begins u ⟨b.seq + BitVec.ofNat 32 n,b.len - BitVec.ofNat 32 n,b.fin,b.data.drop n⟩ = begins u b + n ∧
      ends u ⟨b.seq + BitVec.ofNat 32 n,b.len - BitVec.ofNat 32 n,b.fin,b.data.drop n⟩ = ends u b := by
  obtain ⟨low,high,len,bytes,fin⟩ := carries
  have begin_ : begins u ⟨b.seq + BitVec.ofNat 32 n,b.len - BitVec.ofNat 32 n,b.fin,b.data.drop n⟩ = begins u b + n := by
    unfold begins ends half at *
    exact diff_forward (by unfold half; omega) (by unfold half; omega)
  have end_ : ends u ⟨b.seq + BitVec.ofNat 32 n,b.len - BitVec.ofNat 32 n,b.fin,b.data.drop n⟩ = ends u b := by
    have same : ends u ⟨b.seq + BitVec.ofNat 32 n,b.len - BitVec.ofNat 32 n,b.fin,b.data.drop n⟩ =
        begins u ⟨b.seq + BitVec.ofNat 32 n,b.len - BitVec.ofNat 32 n,b.fin,b.data.drop n⟩ + (b.data.drop n).length := rfl
    rw [same,begin_,length_drop]
    unfold begins ends
    omega
  refine ⟨⟨?_,?_,?_,?_,?_⟩,begin_,end_⟩
  · omega
  · rw [end_]
    exact high
  · rw [len,length_drop]
    exact (BitVec.ofNat_sub_ofNat_of_le _ _ (by unfold begins ends half at *; omega) within)
  · rw [begin_]
    rw [length_drop,← cut_drop within,← bytes]
  rw [end_]
  exact fin

theorem Carries.dropLast (carries : Carries st good u b) {n : Nat} (within : n ≤ b.data.length) :
    Carries st (fun _ _ => True) u ⟨b.seq,b.len - BitVec.ofNat 32 n,b.fin,b.data.take (b.data.length - n)⟩ ∧
      ends u ⟨b.seq,b.len - BitVec.ofNat 32 n,b.fin,b.data.take (b.data.length - n)⟩ = ends u b - n := by
  obtain ⟨low,high,len,bytes,fin⟩ := carries
  have length : (b.data.take (b.data.length - n)).length = b.data.length - n := by
    rw [length_take]
    omega
  have end_ : ends u ⟨b.seq,b.len - BitVec.ofNat 32 n,b.fin,b.data.take (b.data.length - n)⟩ = ends u b - n := by
    have same : ends u ⟨b.seq,b.len - BitVec.ofNat 32 n,b.fin,b.data.take (b.data.length - n)⟩ =
        begins u b + (b.data.take (b.data.length - n)).length := rfl
    rw [same,length]
    unfold begins ends
    omega
  refine ⟨⟨low,?_,?_,?_,trivial⟩,end_⟩
  · omega
  · rw [len,length]
    exact (BitVec.ofNat_sub_ofNat_of_le _ _ (by unfold begins ends half at *; omega) within)
  rw [length,← cut_take (Nat.sub_le ..)]
  exact congrArg (take (b.data.length - n)) bytes

theorem Entries.split (entries : Entries st good u (before ++ q :: rest)) : Carries st good u q.pkt ∧ Entries st good u (before ++ rest) ∧
    (∀ p ∈ before,ends u p.pkt < begins u q.pkt) ∧ ∀ p ∈ rest,ends u q.pkt < begins u p.pkt := by
  obtain ⟨each,apart⟩ := entries
  obtain ⟨left,right,across⟩ := pairwise_append.mp apart
  obtain ⟨first,right⟩ := pairwise_cons.mp right
  refine ⟨each q (by simp),⟨fun p mem => each p ?_,?_⟩,fun p mem => across p mem q (by simp),first⟩
  · rcases mem_append.mp mem with here | there
    · simp [here]
    · simp [there]
  · exact pairwise_append.mpr ⟨left,right,fun a mem b mem' => across a mem b (by simp [mem'])⟩

theorem Entries.insert (entries : Entries st good u (before ++ rest)) (carries : Carries st good u q.pkt) (below : ∀ p ∈ before,ends u p.pkt < begins u q.pkt)
    (above : ∀ p ∈ rest,ends u q.pkt < begins u p.pkt) : Entries st good u (before ++ q :: rest) := by
  obtain ⟨each,apart⟩ := entries
  obtain ⟨left,right,across⟩ := pairwise_append.mp apart
  refine ⟨fun p mem => ?_,pairwise_append.mpr ⟨left,pairwise_cons.mpr ⟨above,right⟩,fun a mem b mem' => ?_⟩⟩
  · rcases mem_append.mp mem with here | there
    · exact each p (by simp [here])
    rcases mem_cons.mp there with rfl | there
    · exact carries
    · exact each p (by simp [there])
  rcases mem_cons.mp mem' with rfl | there
  · exact below a mem
  · exact across a mem b there

theorem Counted.unlink (counted : Counted s (before ++ q :: rest)) : Counted (unlink s q (before ++ rest)) (before ++ rest) ∧ q.addr ∉ (before ++ rest).map Ipqent.addr := by
  obtain ⟨count,times,distinct,asserts⟩ := counted
  have moved : ((before ++ q :: rest).map Ipqent.addr).Perm (q.addr :: (before ++ rest).map Ipqent.addr) := perm_middle.map Ipqent.addr
  obtain ⟨fresh,distinct⟩ := nodup_cons.mp (moved.nodup_iff.mp distinct)
  have times : (s.timeq.erase q.addr).Perm ((before ++ rest).map Ipqent.addr) := by
    have erased := (times.trans moved).erase q.addr
    rwa [erase_cons_head] at erased
  have length : s.segqlen - 1 = (before ++ rest).length := by
    rw [count]
    simp only [length_append,length_cons]
    omega
  refine ⟨⟨length,times,distinct,?_⟩,fresh⟩
  unfold TcpReass.unlink
  rw [length,asserts]
  cases left : before ++ rest with
  | nil =>
    rw [left] at times
    have none : s.timeq.erase q.addr = [] := times.eq_nil
    simp [none]
  | cons p tail =>
    simp
    omega

theorem Counted.link (counted : Counted s (before ++ rest)) {b : Pkt} {addr : Nat} (fresh : addr ∉ (before ++ rest).map Ipqent.addr) {segq : List Ipqent} :
    Counted {s with segq := segq,timeq := addr :: s.timeq,segqlen := s.segqlen + 1} (before ++ ⟨addr,b.seq,b.len,b.fin,b.data⟩ :: rest) := by
  obtain ⟨count,times,distinct,asserts⟩ := counted
  have moved : ((before ++ ⟨addr,b.seq,b.len,b.fin,b.data⟩ :: rest).map Ipqent.addr).Perm (addr :: (before ++ rest).map Ipqent.addr) :=
    perm_middle.map Ipqent.addr
  refine ⟨?_,?_,?_,asserts⟩
  · rw [count]
    simp only [length_append,length_cons]
    omega
  · exact (times.cons addr).trans moved.symm
  · exact moved.nodup_iff.mpr (nodup_cons.mpr ⟨fresh,distinct⟩)

structure Frame (s s' : Reass) : Prop where
  rcvNxt : s'.rcvNxt = s.rcvNxt
  soRcv : s'.soRcv = s.soRcv
  cantRcvMore : s'.cantRcvMore = s.cantRcvMore

theorem Frame.refl (s : Reass) : Frame s s := ⟨rfl,rfl,rfl⟩

theorem Frame.trans {s'' : Reass} (one : Frame s s') (two : Frame s' s'') : Frame s s'' :=
  ⟨two.rcvNxt.trans one.rcvNxt,two.soRcv.trans one.soRcv,two.cantRcvMore.trans one.cantRcvMore⟩

theorem unlink_frame (s : Reass) (q : Ipqent) (left : List Ipqent) : Frame s (unlink s q left) := ⟨rfl,rfl,rfl⟩

-- The state of the loop, of which `before` is behind the segment. `P` was known of every entry.
structure Walk (st : Int → UInt8) (good : Bool → Int → Prop) (P : Ipqent → Prop) (u : Seq) (s : Reass) (pkt : Pkt) (tiqe : Option Nat) (before rest : List Ipqent) : Prop where
  carries : Carries st good u pkt
  entries : Entries st good u (before ++ rest)
  below : ∀ p ∈ before,ends u p.pkt < begins u pkt
  counted : Counted s (before ++ rest)
  reuse : ∀ addr,tiqe = some addr → addr ∉ (before ++ rest).map Ipqent.addr
  known : ∀ p ∈ before ++ rest,P p

def Scanned (st : Int → UInt8) (good : Bool → Int → Prop) (P : Ipqent → Prop) (u : Seq) (s : Reass) : Scan → Prop
  | .dup s' => Frame s s' ∧ Entries st good u s'.segq ∧ Counted s' s'.segq ∧ ∀ p ∈ s'.segq,P p
  | .insert s' pkt tiqe before after => Frame s s' ∧ Walk st good P u s' pkt tiqe before after ∧ ∀ p ∈ after,ends u pkt < begins u p.pkt

theorem Scanned.mono {scan : Scan} (scanned : Scanned st good P u s' scan) (frame : Frame s s') : Scanned st good P u s scan := by
  cases scan with
  | dup s'' | insert s'' pkt tiqe before after => exact ⟨frame.trans scanned.1,scanned.2⟩

theorem Walk.unlink (walk : Walk st good P u s pkt tiqe before (q :: rest)) {b : Pkt} (carries : Carries st good u b) (below : ∀ p ∈ before,ends u p.pkt < begins u b) :
    Walk st good P u (unlink s q (before ++ rest)) b (tiqe.or (some q.addr)) before rest := by
  obtain ⟨counted,fresh⟩ := walk.counted.unlink
  obtain ⟨_,entries,_,_⟩ := walk.entries.split
  have known : ∀ p ∈ before ++ rest,P p := fun p mem => walk.known p (by
    rcases mem_append.mp mem with here | there
    · simp [here]
    · simp [there])
  refine ⟨carries,entries,below,counted,fun addr some_ => ?_,known⟩
  cases tiqe with
  | none =>
    cases some_
    exact fresh
  | some addr' =>
    cases some_
    have unused := walk.reuse addr rfl
    intro used
    refine unused ?_
    simp only [map_append,map_cons,mem_append,mem_cons] at used ⊢
    rcases used with here | there
    · exact .inl here
    · exact .inr (.inr there)

theorem overlap_toInt (a b : Seq) : (a - b).toInt = diff a b := by
  unfold diff
  rfl

theorem overlap_eq {a b : Seq} (one : 0 ≤ diff a u) (two : 0 ≤ diff b u) (order : diff b u ≤ diff a u) : ∃ n : Nat,a - b = BitVec.ofNat 32 n ∧
    (a - b).toInt = n ∧ (n : Int) = diff a u - diff b u := by
  have high := (diff_bounds a u).2
  have number : (((diff a u - diff b u).toNat : Nat) : Int) = diff a u - diff b u := Int.toNat_of_nonneg (by omega)
  generalize (diff a u - diff b u).toNat = n at number
  refine ⟨n,?_,?_,number⟩
  · have moved : a = b + BitVec.ofNat 32 n := by
      refine (@ahead_eq a (b + BitVec.ofNat 32 n) u).mpr (Eq.symm ?_)
      rw [diff_forward (by unfold half; omega) (by omega)]
      omega
    rw [moved,BitVec.add_comm,BitVec.add_sub_cancel]
  · rw [overlap_toInt,ahead_diff one two,number]

theorem tail_join (entry : Carries st good u q.pkt) (carries : Carries st good u pkt) (inside : begins u pkt < ends u q.pkt)
    (further : ends u q.pkt < ends u pkt) : Carries st good u ⟨q.seq,pkt.len + (q.len - (q.stop - pkt.seq)),pkt.fin,q.data ++ mAdj pkt.data (q.stop - pkt.seq).toInt⟩ ∧
      ends u ⟨q.seq,pkt.len + (q.len - (q.stop - pkt.seq)),pkt.fin,q.data ++ mAdj pkt.data (q.stop - pkt.seq).toInt⟩ = ends u pkt := by
  have qStop : diff q.stop u = ends u q.pkt := stop_diff entry
  have pLow : 0 ≤ diff pkt.seq u := carries.low
  have pSeq : diff pkt.seq u = begins u pkt := rfl
  obtain ⟨n,overlap,value,number⟩ := @overlap_eq u q.stop pkt.seq (by omega) pLow (by omega)
  have within : n ≤ pkt.data.length := by
    have length : ends u pkt = begins u pkt + pkt.data.length := rfl
    omega
  obtain ⟨dropped,begin_,end_⟩ := carries.dropFirst within
  have sum : pkt.len + (q.len - BitVec.ofNat 32 n) = q.len + (pkt.len - BitVec.ofNat 32 n) := by
    rw [BitVec.sub_eq_add_neg,BitVec.sub_eq_add_neg,← BitVec.add_assoc,← BitVec.add_assoc,BitVec.add_comm pkt.len]
  have bytes : mAdj pkt.data n = pkt.data.drop n := by
    unfold mAdj
    rfl
  rw [value,bytes,overlap]
  have joined := entry.join dropped (by rw [begin_]; omega) sum (by rw [end_]; exact carries.fin)
  rw [end_] at joined
  exact joined

theorem front_join (entry : Carries st good u q.pkt) (carries : Carries st good u pkt) (before : begins u pkt < begins u q.pkt) (reach : begins u q.pkt ≤ ends u pkt) :
    Carries st (fun _ _ => True) u (trimFront q pkt) ∧ ends u (trimFront q pkt) = begins u q.pkt ∧ (trimFront q pkt).seq = pkt.seq ∧ (trimFront q pkt).fin = pkt.fin := by
  have pStop : diff pkt.stop u = ends u pkt := stop_diff carries
  have qLow : 0 ≤ diff q.seq u := entry.low
  have qSeq : diff q.seq u = begins u q.pkt := rfl
  have pLow : 0 ≤ diff pkt.seq u := carries.low
  have pSeq : diff pkt.seq u = begins u pkt := rfl
  have pEnd : 0 ≤ diff pkt.stop u := by omega
  have after : seqGt q.seq pkt.seq = true := (ahead_gt qLow pLow).mpr (by omega)
  unfold trimFront
  split
  · obtain ⟨n,overlap,value,number⟩ := @overlap_eq u pkt.stop q.seq pEnd qLow (by omega)
    have length : ends u pkt = begins u pkt + pkt.data.length := rfl
    obtain ⟨dropped,end_⟩ := @Carries.dropLast _ _ _ _ carries n (by omega)
    have bytes : mAdj pkt.data (-(n : Int)) = pkt.data.take (pkt.data.length - n) := by
      unfold mAdj
      split
      · have zero : n = 0 := by omega
        subst zero
        simp
      · simp
    dsimp only
    rw [value,bytes,overlap]
    refine ⟨dropped,?_,rfl,rfl⟩
    omega
  next apart =>
  have touch : ¬diff q.seq u < diff pkt.stop u := by
    intro less
    refine apart ?_
    rw [after,(ahead_lt qLow pEnd).mpr less]
    rfl
  exact ⟨⟨carries.low,carries.high,carries.len,carries.bytes,trivial⟩,by omega,rfl,rfl⟩

-- The piece lies within the other one.
def Spans (u : Seq) (c b : Pkt) : Prop := begins u c ≤ begins u b ∧ ends u b ≤ ends u c

theorem spans_join {d : Pkt} (begin_ : begins u c = begins u b) (end_ : ends u c = ends u d) (low : begins u b ≤ begins u d) (high : ends u b ≤ ends u d) :
    Spans u c d ∧ Spans u c b := by
  unfold Spans
  omega

-- What one turn of the loop does with the entry q: it goes into the segment or is dropped, it is walked
-- over, or the loop ends at it.
inductive Turned (st : Int → UInt8) (good : Bool → Int → Prop) (P : Ipqent → Prop) (u : Seq) (s : Reass) (pkt : Pkt) (tiqe : Option Nat)
    (before rest : List Ipqent) (q : Ipqent) : Scan → Prop where
  | gone {s₁ : Reass} {pkt₁ : Pkt} {tiqe₁ : Option Nat} : Frame s s₁ → Walk st good P u s₁ pkt₁ tiqe₁ before rest → tiqe₁.isSome →
      ends u pkt₁ = ends u pkt → (begins u pkt₁ = begins u pkt ∨ begins u pkt ≤ ends u q.pkt) →
      (pkt₁.fin = (pkt.fin || q.fin) ∨ pkt₁.fin = pkt.fin ∧ ends u q.pkt ≤ ends u pkt ∧ (ends u q.pkt < ends u pkt ∨ begins u pkt < begins u q.pkt)) →
      Spans u pkt₁ pkt ∧ Spans u pkt₁ q.pkt → Turned st good P u s pkt tiqe before rest q (scan s₁ pkt₁ tiqe₁ before [] rest)
  | passed : Walk st good P u s pkt tiqe (before ++ [q]) rest → Turned st good P u s pkt tiqe before rest q (scan s pkt tiqe (before ++ [q]) [] rest)
  | beyond : (∀ p ∈ q :: rest,ends u pkt < begins u p.pkt) → Turned st good P u s pkt tiqe before rest q (.insert s pkt tiqe before (q :: rest))
  | dup : Spans u q.pkt pkt → Turned st good P u s pkt tiqe before rest q (.dup {s with segq := before ++ q :: rest})
  | joined {s₁ : Reass} {pkt₁ : Pkt} {tiqe₁ : Option Nat} : Frame s s₁ → Walk st good P u s₁ pkt₁ tiqe₁ before rest → tiqe₁.isSome →
      (∀ p ∈ rest,ends u pkt₁ < begins u p.pkt) → pkt₁.fin = (pkt.fin || q.fin) → Spans u pkt₁ pkt ∧ Spans u pkt₁ q.pkt →
      Turned st good P u s pkt tiqe before rest q (.insert s₁ pkt₁ tiqe₁ before rest)

theorem or_isSome (tiqe : Option Nat) (addr : Nat) : (tiqe.or (some addr)).isSome := by
  cases tiqe with
  | none => rfl
  | some _ => rfl

theorem scan_turn (joins : Joins good) (walk : Walk st good P u s pkt tiqe before (q :: rest)) :
    Turned st good P u s pkt tiqe before rest q (scan s pkt tiqe before [] (q :: rest)) := by
  obtain ⟨entry,left,under,excess⟩ := walk.entries.split
  have carries := walk.carries
  have qStop : diff q.stop u = ends u q.pkt := stop_diff entry
  have pStop : diff pkt.stop u = ends u pkt := stop_diff carries
  have qLow : 0 ≤ diff q.seq u := entry.low
  have pLow : 0 ≤ diff pkt.seq u := carries.low
  have qOrder := begins_le_ends u q.pkt
  have pOrder := begins_le_ends u pkt
  have qSeq : diff q.seq u = begins u q.pkt := rfl
  have pSeq : diff pkt.seq u = begins u pkt := rfl
  have qEnd : 0 ≤ diff q.stop u := by omega
  have pEnd : 0 ≤ diff pkt.stop u := by omega
  rw [scan]
  simp only [append_nil,nil_append]
  split
  · next touch =>
    have touch : ends u q.pkt = begins u pkt := by
      rw [← qStop,touch]
      rfl
    have ok : good (pkt.fin || q.fin) (ends u pkt) := by
      rw [Bool.or_comm]
      exact joins _ _ _ _ (by omega) entry.fin carries.fin
    obtain ⟨merged,end_⟩ := entry.join carries touch (BitVec.add_comm pkt.len q.len) ok
    exact .gone (unlink_frame ..) (walk.unlink merged under) (or_isSome ..) end_ (.inr (by omega)) (.inl rfl)
      (spans_join rfl end_ (by omega) (by omega))
  next apart =>
  have apart : ends u q.pkt ≠ begins u pkt := fun same => apart ((stop_eq_iff entry pLow).mpr same)
  split
  · next past =>
    have past := (ahead_lt qEnd pLow).mp past
    refine .passed ⟨carries,?_,?_,?_,?_,?_⟩
    · simpa using walk.entries
    · intro p mem
      rcases mem_append.mp mem with here | there
      · exact walk.below p here
      rw [mem_singleton.mp there]
      omega
    · simpa using walk.counted
    · simpa using walk.reuse
    · simpa using walk.known
  next notPast =>
  have notPast : ¬diff q.stop u < diff pkt.seq u := fun less => notPast ((ahead_lt qEnd pLow).mpr less)
  split
  · next beyond =>
    have beyond := (ahead_gt qLow pEnd).mp beyond
    refine .beyond fun p mem => ?_
    rcases mem_cons.mp mem with rfl | later
    · omega
    have := excess p later
    omega
  next notBeyond =>
  have notBeyond : ¬diff q.seq u > diff pkt.stop u := fun more => notBeyond ((ahead_gt qLow pEnd).mpr more)
  split
  · next dup =>
    simp only [Bool.and_eq_true,ahead_leq qLow pLow,ahead_geq qEnd pEnd] at dup
    exact .dup ⟨by omega,by omega⟩
  next notDup =>
  have notDup : ¬(diff q.seq u ≤ diff pkt.seq u ∧ diff q.stop u ≥ diff pkt.stop u) := by
    rintro ⟨one,two⟩
    refine notDup ?_
    rw [(ahead_leq qLow pLow).mpr one,(ahead_geq qEnd pEnd).mpr two]
    rfl
  split
  · next covers =>
    simp only [Bool.and_eq_true,ahead_geq qLow pLow,ahead_leq qEnd pEnd] at covers
    exact .gone (unlink_frame ..) (walk.unlink carries walk.below) (or_isSome ..) rfl (.inl rfl) (.inr ⟨rfl,by omega,by omega⟩)
      ⟨⟨Int.le_refl _,Int.le_refl _⟩,by omega,by omega⟩
  next notOver =>
  have notOver : ¬(diff q.seq u ≥ diff pkt.seq u ∧ diff q.stop u ≤ diff pkt.stop u) := by
    rintro ⟨one,two⟩
    refine notOver ?_
    rw [(ahead_geq qLow pLow).mpr one,(ahead_leq qEnd pEnd).mpr two]
    rfl
  split
  · next tail =>
    simp only [Bool.and_eq_true,ahead_lt qLow pLow,ahead_gt qEnd pLow] at tail
    obtain ⟨merged,end_⟩ := tail_join entry carries (by omega) (by omega)
    exact .gone (unlink_frame ..) (walk.unlink merged under) (or_isSome ..) end_ (.inr (by omega)) (.inr ⟨rfl,by omega,by omega⟩)
      (spans_join rfl end_ (by omega) (by omega))
  next notTail =>
  have notTail : ¬(diff q.seq u < diff pkt.seq u ∧ diff q.stop u > diff pkt.seq u) := by
    rintro ⟨one,two⟩
    refine notTail ?_
    rw [(ahead_lt qLow pLow).mpr one,(ahead_gt qEnd pLow).mpr two]
    rfl
  obtain ⟨trimmed,end_,seq,fin⟩ := front_join entry carries (by omega) (by omega)
  have touch : q.seq = (trimFront q pkt).stop := ((stop_eq_iff trimmed qLow).mpr end_).symm
  rw [if_pos touch]
  have ok : good ((trimFront q pkt).fin || q.fin) (ends u q.pkt) := by
    rw [fin]
    exact joins _ _ _ _ (by omega) carries.fin entry.fin
  obtain ⟨merged,end'⟩ := trimmed.join entry end_ rfl ok
  refine .joined (unlink_frame ..) (walk.unlink merged ?_) (or_isSome ..) ?_ (by rw [← fin]) (spans_join (by exact congrArg (diff · u) seq) end' (by omega) (by omega)).symm
  · intro p mem
    have here := walk.below p mem
    unfold begins at here ⊢
    rw [seq]
    exact here
  intro p mem
  exact Int.lt_of_le_of_lt (Int.le_of_eq end') (excess p mem)

theorem scan_spec (joins : Joins good) (walk : Walk st good P u s pkt tiqe before after) : Scanned st good P u s (scan s pkt tiqe before [] after) := by
  induction after generalizing s pkt tiqe before with
  | nil =>
    exact ⟨.refl s,walk,by simp⟩
  | cons q rest ih =>
    have turned := scan_turn joins walk
    generalize scan s pkt tiqe before [] (q :: rest) = result at turned ⊢
    cases turned with
    | gone frame walk => exact (ih walk).mono frame
    | passed walk => exact ih walk
    | beyond above => exact ⟨.refl s,walk,above⟩
    | dup => exact ⟨⟨rfl,rfl,rfl⟩,walk.entries,⟨walk.counted.count,walk.counted.times,walk.counted.distinct,walk.counted.asserts⟩,walk.known⟩
    | joined frame walk _ above => exact ⟨frame,walk,above⟩

-- The queue between two calls: its first entry is after rcv_nxt.
structure Queue (st : Int → UInt8) (good : Bool → Int → Prop) (s : Reass) : Prop where
  entries : Entries st good s.rcvNxt s.segq
  counted : Counted s s.segq
  first : ∀ q ∈ s.segq,0 < begins s.rcvNxt q.pkt

-- A call moves rcv_nxt over m bytes, which the user gets if it can receive.
structure Delivered (st : Int → UInt8) (good : Bool → Int → Prop) (s : Reass) (m : Nat) (fin : Bool) (s' : Reass) : Prop where
  small : (m : Int) < half
  next : s'.rcvNxt = s.rcvNxt + BitVec.ofNat 32 m
  soRcv : s'.soRcv = if s.cantRcvMore then s.soRcv else s.soRcv ++ cut st 0 m
  cantRcvMore : s'.cantRcvMore = s.cantRcvMore
  queue : Queue (fun i => st (m + i)) (fun f e => good f (m + e)) s'
  fin : (m = 0 ∧ fin = false) ∨ good fin m

theorem Queue.delivered (queue : Queue st good s') (frame : Frame s s') : Delivered st good s 0 false s' := by
  refine ⟨by decide,?_,?_,frame.cantRcvMore,?_,.inl ⟨rfl,rfl⟩⟩
  · rw [frame.rcvNxt]
    simp
  · rw [frame.soRcv]
    simp
  · simpa using queue

theorem Carries.shift (carries : Carries st good u b) {m : Nat} (ahead : m ≤ begins u b) :
    begins (u + BitVec.ofNat 32 m) b = begins u b - m ∧ Carries (fun i => st (m + i)) (fun f e => good f (m + e)) (u + BitVec.ofNat 32 m) b := by
  obtain ⟨low,high,len,bytes,fin⟩ := carries
  have order := begins_le_ends u b
  have begin_ : begins (u + BitVec.ofNat 32 m) b = begins u b - m := by
    unfold begins at *
    exact diff_backward (by unfold half; omega) (by unfold half at *; omega)
  have end_ : ends (u + BitVec.ofNat 32 m) b = ends u b - m := by
    have same : ends (u + BitVec.ofNat 32 m) b = begins (u + BitVec.ofNat 32 m) b + b.data.length := rfl
    rw [same,begin_]
    unfold begins ends
    omega
  refine ⟨begin_,?_,?_,len,?_,?_⟩
  · omega
  · omega
  · rw [begin_,cut_shift]
    have place : (m : Int) + (begins u b - m) = begins u b := by omega
    rw [place]
    exact bytes
  rw [end_]
  have place : (m : Int) + (ends u b - m) = ends u b := by omega
  rw [place]
  exact fin

theorem present_spec (entries : Entries st good s.rcvNxt s.segq) (counted : Counted s s.segq) : ∃ m,Delivered st good s m (present s).2 (present s).1 := by
  unfold present
  split
  · next empty => exact ⟨0,Queue.delivered ⟨entries,counted,by simp [empty]⟩ (.refl s)⟩
  next q rest segq =>
  rw [segq] at entries counted
  obtain ⟨carries,left,_,excess⟩ := @Entries.split st good s.rcvNxt q [] rest entries
  have low := carries.low
  have place : q.pkt.seq = q.seq := rfl
  split
  · next away =>
    refine ⟨0,Queue.delivered ⟨by rw [segq]; exact entries,by rw [segq]; exact counted,?_⟩ (.refl s)⟩
    have after : 0 < begins s.rcvNxt q.pkt := by
      have off : begins s.rcvNxt q.pkt ≠ 0 := fun zero => away (@diff_inj q.seq s.rcvNxt s.rcvNxt (by rw [diff_self]; exact zero))
      omega
    intro p mem
    rw [segq] at mem
    rcases mem_cons.mp mem with rfl | later
    · exact after
    have gap := excess p later
    have order := begins_le_ends s.rcvNxt q.pkt
    dsimp only
    omega
  next here =>
  have here : q.seq = s.rcvNxt := Decidable.not_not.mp here
  have zero : begins s.rcvNxt q.pkt = 0 := by
    unfold begins
    rw [place,here,diff_self]
  have end_ : ends s.rcvNxt q.pkt = q.data.length := by
    have same : ends s.rcvNxt q.pkt = begins s.rcvNxt q.pkt + q.data.length := rfl
    omega
  have len : q.len = BitVec.ofNat 32 q.data.length := carries.len
  have bytes : q.data = cut st 0 q.data.length := by
    have all := carries.bytes
    rw [zero] at all
    exact all
  obtain ⟨counted,_⟩ := @Counted.unlink s q [] rest counted
  have shift : ∀ p ∈ rest,begins (s.rcvNxt + BitVec.ofNat 32 q.data.length) p.pkt = begins s.rcvNxt p.pkt - q.data.length ∧
      Carries (fun i => st (q.data.length + i)) (fun f e => good f (q.data.length + e)) (s.rcvNxt + BitVec.ofNat 32 q.data.length) p.pkt := by
    intro p mem
    have gap := excess p mem
    exact (left.each p mem).shift (by omega)
  refine ⟨q.data.length,?_,?_,?_,rfl,⟨⟨?_,?_⟩,⟨counted.count,counted.times,counted.distinct,counted.asserts⟩,?_⟩,?_⟩
  · rw [← end_]
    exact carries.high
  · rw [len]
  · rw [← bytes]
  · rw [len]
    exact fun p mem => (shift p mem).2
  · dsimp only
    rw [len]
    refine left.apart.imp_of_mem fun {a b} mem mem' gap => ?_
    have one := (shift a mem).1
    have two := (shift b mem').1
    unfold Gap at gap ⊢
    have ends_ : ∀ v,ends v a.pkt = begins v a.pkt + a.pkt.data.length := fun _ => rfl
    rw [ends_] at gap ⊢
    omega
  · rw [len]
    intro p mem
    have gap := excess p mem
    rw [(shift p mem).1]
    omega
  have known := carries.fin
  rw [end_] at known
  exact .inr known

theorem Delivered.mono {m : Nat} {fin : Bool} {s'' : Reass} (delivered : Delivered st good s' m fin s'') (frame : Frame s s') : Delivered st good s m fin s'' := by
  obtain ⟨small,next_,soRcv,cantRcvMore,queue,fin_⟩ := delivered
  rw [frame.rcvNxt] at next_
  rw [frame.soRcv,frame.cantRcvMore] at soRcv
  exact ⟨small,next_,soRcv,cantRcvMore.trans frame.cantRcvMore,queue,fin_⟩

theorem Walk.insertIt (walk : Walk st good P u s pkt tiqe before after) (base : s.rcvNxt = u) (above : ∀ p ∈ after,ends u pkt < begins u p.pkt)
    (first : ∀ p,P p → 0 < begins u p.pkt) (fresh : ∀ p,P p → got ≠ some p.addr) :
    ∃ m,Delivered st good s m (insertIt s pkt tiqe got before after).2 (insertIt s pkt tiqe got before after).1 := by
  subst base
  unfold TcpReass.insertIt
  split
  · exact ⟨0,Queue.delivered ⟨walk.entries,⟨walk.counted.count,walk.counted.times,walk.counted.distinct,walk.counted.asserts⟩,fun p mem => first p (walk.known p mem)⟩ ⟨rfl,rfl,rfl⟩⟩
  next addr some_ =>
  have unused : addr ∉ (before ++ after).map Ipqent.addr := by
    cases tiqe with
    | none =>
      intro used
      obtain ⟨p,mem,same⟩ := mem_map.mp used
      exact fresh p (walk.known p mem) (some_.trans (congrArg some same.symm))
    | some _ =>
      cases some_
      exact walk.reuse _ rfl
  have entries : Entries st good s.rcvNxt (before ++ ⟨addr,pkt.seq,pkt.len,pkt.fin,pkt.data⟩ :: after) :=
    walk.entries.insert walk.carries walk.below above
  obtain ⟨m,delivered⟩ := @present_spec st good {s with segq := _,timeq := _,segqlen := _} entries (walk.counted.link unused)
  exact ⟨m,delivered.mono ⟨rfl,rfl,rfl⟩⟩

theorem skipReplacement_spec (queue : Queue st good s) {segq : List Ipqent} {addr : Nat} (entries : Entries st good s.rcvNxt segq)
    (same : segq.map Ipqent.addr = s.segq.map Ipqent.addr) (mem : addr ∈ segq.map Ipqent.addr) :
    ∃ m,Delivered st good s m (skipReplacement s segq addr).2 (skipReplacement s segq addr).1 := by
  obtain ⟨count,times,distinct,asserts⟩ := queue.counted
  have length : segq.length = s.segq.length := by
    have both := congrArg length same
    simpa using both
  have here : addr ∈ s.timeq := times.symm.subset (same ▸ mem)
  have counted : Counted {s with segq := segq,timeq := addr :: s.timeq.erase addr} segq := by
    refine ⟨?_,?_,?_,asserts⟩
    · rw [count,length]
    · rw [same]
      exact (perm_cons_erase here).symm.trans times
    rw [same]
    exact distinct
  obtain ⟨m,delivered⟩ := @present_spec st good {s with segq := segq,timeq := _} entries counted
  exact ⟨m,delivered.mono ⟨rfl,rfl,rfl⟩⟩

abbrev Outcome (st : Int → UInt8) (good : Bool → Int → Prop) (s : Reass) (r : Reass × Bool) : Prop := ∃ m,Delivered st good s m r.2 r.1

theorem search_spec (joins : Joins good) (queue : Queue st good s) (carries : Carries st good s.rcvNxt pkt) (fresh : ∀ p ∈ s.segq,got ≠ some p.addr) :
    Outcome st good s (search s pkt got) := by
  have walk : Walk st good (fun p => 0 < begins s.rcvNxt p.pkt ∧ got ≠ some p.addr) s.rcvNxt s pkt none [] s.segq :=
    ⟨carries,queue.entries,by simp,queue.counted,by simp,fun p mem => ⟨queue.first p mem,fresh p mem⟩⟩
  have scanned := scan_spec joins walk
  unfold search
  split
  · next s' result =>
    rw [result] at scanned
    obtain ⟨frame,entries,counted,known⟩ := scanned
    refine ⟨0,Queue.delivered ⟨?_,counted,?_⟩ frame⟩
    · rw [frame.rcvNxt]
      exact entries
    rw [frame.rcvNxt]
    exact fun p mem => (known p mem).1
  next s' pkt' tiqe before after result =>
  rw [result] at scanned
  obtain ⟨frame,walk,above⟩ := scanned
  obtain ⟨m,delivered⟩ := walk.insertIt frame.rcvNxt above (fun _ known => known.1) fun _ known => known.2
  exact ⟨m,delivered.mono frame⟩

theorem prependFirst_spec (joins : Joins good) (queue : Queue st good s) (carries : Carries st good s.rcvNxt pkt) (fresh : ∀ p ∈ s.segq,got ≠ some p.addr) :
    Outcome st good s (prependFirst s pkt got) := by
  unfold prependFirst
  split
  · exact search_spec joins queue carries fresh
  next q rest segq =>
  split
  · next touch =>
    have all := queue.entries
    rw [segq] at all
    obtain ⟨entry,left,_,excess⟩ := @Entries.split st good s.rcvNxt q [] rest all
    have touch : ends s.rcvNxt pkt = begins s.rcvNxt q.pkt := (stop_eq_iff carries entry.low).mp touch
    have order := begins_le_ends s.rcvNxt q.pkt
    have ok : good (q.fin || pkt.fin) (ends s.rcvNxt q.pkt) := by
      rw [Bool.or_comm]
      exact joins _ _ _ _ (by omega) carries.fin entry.fin
    obtain ⟨merged,end_⟩ := carries.join entry touch (BitVec.add_comm q.len pkt.len) ok
    refine skipReplacement_spec queue ?_ ?_ ?_
    · refine @Entries.insert st good s.rcvNxt _ [] rest left merged (by simp) fun p mem => ?_
      exact Int.lt_of_le_of_lt (Int.le_of_eq end_) (excess p mem)
    · rw [segq]
      rfl
    · simp
  · exact search_spec joins queue carries fresh

theorem tcpReass_spec (joins : Joins good) (queue : Queue st good s) (carries : Carries st good s.rcvNxt pkt) (fresh : ∀ p ∈ s.segq,got ≠ some p.addr) :
    Outcome st good s (tcpReass s pkt got) := by
  unfold tcpReass
  split
  · exact prependFirst_spec joins queue carries fresh
  next p last =>
  have split_ := dropLast_append_getLast? p last
  have all := queue.entries
  rw [← split_] at all
  obtain ⟨entry,left,under,_⟩ := @Entries.split st good s.rcvNxt p _ [] all
  have pStop : diff p.stop s.rcvNxt = ends s.rcvNxt p.pkt := stop_diff entry
  have low := carries.low
  have seq : diff pkt.seq s.rcvNxt = begins s.rcvNxt pkt := rfl
  have order := begins_le_ends s.rcvNxt p.pkt
  have pLow := entry.low
  split
  · next touch =>
    have touch : ends s.rcvNxt p.pkt = begins s.rcvNxt pkt := by rw [← pStop,← touch,seq]
    have order' := begins_le_ends s.rcvNxt pkt
    obtain ⟨merged,_⟩ := entry.join carries touch rfl (joins _ _ _ _ (by omega) entry.fin carries.fin)
    refine skipReplacement_spec queue ?_ ?_ ?_
    · exact @Entries.insert st good s.rcvNxt _ _ [] left merged under (by simp)
    · rw [← split_]
      simp
    · simp
  split
  · next beyond =>
    have beyond := (ahead_gt low (by omega)).mp beyond
    have walk : Walk st good (fun p => 0 < begins s.rcvNxt p.pkt ∧ got ≠ some p.addr) s.rcvNxt s pkt none s.segq [] := by
      refine ⟨carries,by simpa using queue.entries,fun q mem => ?_,by simpa using queue.counted,by simp,fun q mem => ?_⟩
      · rw [← split_] at mem
        rcases mem_append.mp mem with here | there
        · have gap := under q here
          omega
        rw [mem_singleton.mp there]
        omega
      rw [append_nil] at mem
      exact ⟨queue.first q mem,fresh q mem⟩
    exact walk.insertIt rfl (by simp) (fun _ known => known.1) fun _ known => known.2
  · exact prependFirst_spec joins queue carries fresh

-- The bytes of a stream from a place on.
def slice (stream : Nat → UInt8) (from_ n : Nat) : List UInt8 := (List.range n).map fun i => stream (from_ + i)

-- The segment begins at rcv_nxt or later, less than 2 ^ 30 ahead, and has the stream's bytes. rcv_nxt is at the place n.
structure Within (stream : Nat → UInt8) (n : Nat) (s : Reass) (pkt : Pkt) : Prop where
  low : 0 ≤ diff pkt.seq s.rcvNxt
  high : diff pkt.seq s.rcvNxt + pkt.data.length < 1073741824
  len : pkt.len = BitVec.ofNat 32 pkt.data.length
  bytes : pkt.data = slice stream (n + (diff pkt.seq s.rcvNxt).toNat) pkt.data.length

structure Fresh (s : Reass) : Prop where
  segq : s.segq = []
  timeq : s.timeq = []
  segqlen : s.segqlen = 0
  asserts : s.asserts = true

-- The calls, of which each finds rcv_nxt at its place in the stream. The user may stop receiving.
inductive Run (stream : Nat → UInt8) (start : Reass) : Nat → Reass → Prop where
  | start : Run stream start 0 start
  | call {n : Nat} {s : Reass} {pkt : Pkt} {got : Option Nat} : Run stream start n s → Within stream n s pkt → (∀ q ∈ s.segq,got ≠ some q.addr) →
      Run stream start (n + ((tcpReass s pkt got).1.rcvNxt - s.rcvNxt).toNat) (tcpReass s pkt got).1
  | socantrcvmore {n : Nat} {s : Reass} : Run stream start n s → Run stream start n {s with cantRcvMore := true}

-- The segments wait in order, with gaps between them, and both queues agree.
structure Queued (stream : Nat → UInt8) (n : Nat) (s : Reass) : Prop where
  first : ∀ q ∈ s.segq,0 < diff q.seq s.rcvNxt
  gaps : s.segq.Pairwise fun p q => diff p.seq s.rcvNxt + p.data.length < diff q.seq s.rcvNxt
  bytes : ∀ q ∈ s.segq,q.data = slice stream (n + (diff q.seq s.rcvNxt).toNat) q.data.length
  len : ∀ q ∈ s.segq,q.len.toNat = q.data.length
  segqlen : s.segqlen = s.segq.length
  timeq : s.timeq.Perm (s.segq.map Ipqent.addr)
  asserts : s.asserts = true

-- The user has the stream as far as it was received before it stopped receiving.
def Received (stream : Nat → UInt8) (start : Reass) (n : Nat) (s : Reass) : Prop :=
  ∃ m,m ≤ n ∧ s.soRcv = start.soRcv ++ slice stream 0 m ∧ (s.cantRcvMore = false → m = n)

def seen (stream : Nat → UInt8) (n : Nat) (i : Int) : UInt8 := stream (n + i).toNat

structure Inv (stream : Nat → UInt8) (start : Reass) (n : Nat) (s : Reass) : Prop where
  next : s.rcvNxt = start.rcvNxt + BitVec.ofNat 32 n
  queue : Queue (seen stream n) (fun _ _ => True) s
  received : Received stream start n s

variable {stream : Nat → UInt8} {start s : Reass} {n m : Nat} {pkt : Pkt} {q : Ipqent} {got : Option Nat}

theorem cut_seen {a : Int} (low : 0 ≤ a) (k : Nat) : cut (seen stream n) a k = slice stream (n + a.toNat) k := by
  exact map_congr_left fun i _ => congrArg stream (by omega)

theorem seen_shift (stream : Nat → UInt8) (n m : Nat) : (fun i => seen stream n (m + i)) = seen stream (n + m) := by
  funext i
  exact congrArg stream (by omega)

theorem slice_append (stream : Nat → UInt8) (n m : Nat) : slice stream 0 n ++ slice stream n m = slice stream 0 (n + m) := by
  unfold slice
  rw [range_add,map_append,map_map]
  congr 1
  exact map_congr_left fun i _ => congrArg stream (by dsimp only; omega)

theorem Within.carries (within : Within stream n s pkt) : Carries (seen stream n) (fun _ _ => True) s.rcvNxt pkt := by
  obtain ⟨low,high,len,bytes⟩ := within
  refine ⟨low,?_,len,?_,trivial⟩
  · unfold ends half
    omega
  · exact bytes.trans (cut_seen low _).symm

theorem Inv.queued (inv : Inv stream start n s) : Queued stream n s := by
  obtain ⟨_,⟨⟨each,apart⟩,⟨count,times,_,asserts⟩,first⟩,_⟩ := inv
  refine ⟨first,apart,fun q mem => ?_,fun q mem => ?_,count,times,asserts⟩
  · have carries := each q mem
    exact carries.bytes.trans (cut_seen carries.low _)
  have carries := each q mem
  have high := carries.high
  have low := carries.low
  have len : q.len = BitVec.ofNat 32 q.data.length := carries.len
  have end_ : ends s.rcvNxt q.pkt = begins s.rcvNxt q.pkt + q.data.length := rfl
  rw [len,BitVec.toNat_ofNat]
  unfold half at high
  exact Nat.mod_eq_of_lt (by omega)

theorem call_inv (inv : Inv stream start n s) (within : Within stream n s pkt) (fresh : ∀ q ∈ s.segq,got ≠ some q.addr) :
    Inv stream start (n + ((tcpReass s pkt got).1.rcvNxt - s.rcvNxt).toNat) (tcpReass s pkt got).1 := by
  obtain ⟨next_,queue,m,le,soRcv,all⟩ := inv
  obtain ⟨k,delivered⟩ := tcpReass_spec (fun _ _ _ _ _ _ _ => trivial) queue within.carries fresh
  generalize tcpReass s pkt got = result at *
  obtain ⟨small,moved,appended,same,queue',_⟩ := delivered
  have places : (result.1.rcvNxt - s.rcvNxt).toNat = k := by
    rw [moved,BitVec.add_comm,BitVec.add_sub_cancel,BitVec.toNat_ofNat]
    unfold half at small
    exact Nat.mod_eq_of_lt (by omega)
  rw [places]
  refine ⟨?_,?_,?_⟩
  · rw [moved,next_,BitVec.ofNat_add,BitVec.add_assoc]
  · rw [← seen_shift]
    exact queue'
  rw [cut_seen (by omega)] at appended
  cases closed : s.cantRcvMore with
  | true =>
    rw [closed] at appended same
    exact ⟨m,by omega,appended.trans soRcv,fun open_ => absurd (same.symm.trans open_) (by simp)⟩
  | false =>
    have all := all closed
    subst all
    rw [closed] at appended
    refine ⟨m + k,Nat.le_refl _,?_,fun _ => rfl⟩
    rw [← slice_append,← append_assoc,← soRcv]
    exact appended

theorem run_inv (fresh : Fresh start) (run : Run stream start n s) : Inv stream start n s := by
  induction run with
  | start =>
    obtain ⟨segq,timeq,segqlen,asserts⟩ := fresh
    refine ⟨by simp,⟨⟨by simp [segq],by simp [segq]⟩,⟨by simp [segq,segqlen],by simp [segq,timeq],by simp [segq],asserts⟩,by simp [segq]⟩,0,Nat.le_refl 0,?_,fun _ => rfl⟩
    simp [slice]
  | call _ within unused ih => exact call_inv ih within unused
  | socantrcvmore _ ih =>
    obtain ⟨next_,⟨entries,counted,first⟩,m,le,soRcv,_⟩ := ih
    exact ⟨next_,⟨entries,⟨counted.count,counted.times,counted.distinct,counted.asserts⟩,first⟩,m,le,soRcv,by simp⟩

def listening (rcvNxt : Seq) (cantRcvMore : Bool) : Reass := ⟨[],[],0,rcvNxt,[],cantRcvMore,true⟩
def firstByte (rcvNxt : Seq) : Pkt := ⟨rcvNxt,1,false,[7]⟩

theorem firstByte_within (rcvNxt : Seq) (cantRcvMore : Bool) : Within (fun _ => 7) 0 (listening rcvNxt cantRcvMore) (firstByte rcvNxt) := by
  have here : diff (firstByte rcvNxt).seq (listening rcvNxt cantRcvMore).rcvNxt = 0 := diff_self rcvNxt
  refine ⟨?_,?_,rfl,rfl⟩
  · rw [here]
  rw [here]
  exact (by decide : (0 : Int) + (1 : Nat) < 1073741824)

end NetbsdAvr32.TcpReass
