import NetbsdAvr32.Outcome
import NetbsdAvr32.Serial

-- sys/netinet/tcp_sack.c: the holes of the sender's scoreboard.
namespace NetbsdAvr32.TcpSack
open Serial List

structure Sackhole where
  start : Seq
  stop : Seq
  rxmit : Seq
  deriving DecidableEq, Repr

-- The fields of struct tcpcb that concern the scoreboard, and the counter of all holes.
-- `pool` tells how pool_get answers: with none of them left, it succeeds.
structure Tcpcb where
  sackEnabled : Bool
  sndUna : Seq
  sndMax : Seq
  sndFack : Seq
  rcvLastsack : Seq
  sndHoles : List Sackhole
  sndNumholes : Int
  globalholes : Int
  pool : List Bool
  deriving DecidableEq, Repr

-- tcp_sack_tp_maxholes and tcp_sack_globalmaxholes
structure Limits where
  tpMaxholes : Nat
  globalMaxholes : Nat

structure Sackblk where
  left : Seq
  right : Seq
  deriving DecidableEq, Repr

structure Tcphdr where
  thAck : Seq
  ackFlag : Bool

-- The hole itself comes from the caller.
def sackAllochole (lim : Limits) (tp : Tcpcb) : Tcpcb × Bool :=
  if tp.sndNumholes ≥ lim.tpMaxholes ∨ tp.globalholes ≥ lim.globalMaxholes then (tp,false)
  else
    match tp.pool with
    | false :: pool => ({tp with pool := pool},false)
    | pool => ({tp with pool := pool.tail,sndNumholes := tp.sndNumholes + 1,globalholes := tp.globalholes + 1},true)

def removeCounts (tp : Tcpcb) : Tcpcb := {tp with sndNumholes := tp.sndNumholes - 1,globalholes := tp.globalholes - 1}

-- The walk over the holes: `cur` is the first of `after`, and NULL if there is none.
structure Pass where
  tp : Tcpcb
  before : List Sackhole
  after : List Sackhole

-- The holes of a pass go back to the connection.
def Pass.done (p : Pass) : Tcpcb := {p.tp with sndHoles := p.before ++ p.after}

inductive Next where
  | go (p : Pass)
  | ret (tp : Tcpcb)

-- sack_inserthole with prev = NULL: the hole goes to the tail, and becomes `cur`.
def insertTail (lim : Limits) (p : Pass) (start stop : Seq) : Next :=
  let (tp,got) := sackAllochole lim p.tp
  if got then .go ⟨tp,p.before ++ p.after,[⟨start,stop,start⟩]⟩ else .ret (Pass.done {p with tp := tp})

-- The loop through the list of holes. Where it would not end, it halts.
def scan (lim : Limits) (sack : Sackblk) (tp : Tcpcb) (before : List Sackhole) : List Sackhole → Except Halt Next
  | [] => .ok (.go ⟨tp,before,[]⟩)
  | cur :: rest =>
    if seqLeq sack.right cur.start then .ok (.go ⟨tp,before,cur :: rest⟩)
    else if seqGeq sack.left cur.stop then scan lim sack tp (before ++ [cur]) rest
    else if seqLeq sack.left cur.start then
      if seqGeq sack.right cur.stop then .ok (.go ⟨removeCounts tp,before,rest⟩)
      else .ok (.go ⟨tp,before,{cur with start := sack.right,rxmit := seqMax cur.rxmit sack.right} :: rest⟩)
    else if seqGeq sack.right cur.stop then
      .ok (.go ⟨tp,before ++ [{cur with stop := sack.left,rxmit := seqMin cur.rxmit sack.left}],rest⟩)
    else if seqLt cur.start sack.left && seqGt cur.stop sack.right then
      let (tp,got) := sackAllochole lim tp
      if got then
        .ok (.go ⟨tp,before ++ [{cur with stop := sack.left,rxmit := seqMin cur.rxmit sack.left}],
          ⟨sack.right,cur.stop,seqMax cur.rxmit sack.right⟩ :: rest⟩)
      else .ok (.ret (Pass.done ⟨tp,before,cur :: rest⟩))
    else .error .fuel

def appendHole (lim : Limits) (sack : Sackblk) (p : Pass) : Next :=
  let next := if seqLt p.tp.rcvLastsack sack.left then insertTail lim p p.tp.rcvLastsack sack.left else .go p
  match next with
  | .ret tp => .ret tp
  | .go p => if seqLt p.tp.rcvLastsack sack.right then .go {p with tp := {p.tp with rcvLastsack := sack.right}} else .go p

def updateFack (sack : Sackblk) (tp : Tcpcb) : Tcpcb := if seqGeq sack.right tp.sndFack then {tp with sndFack := sack.right} else tp

def blockHoles (lim : Limits) (thAck : Seq) (sack : Sackblk) (p : Pass) : Except Halt Next :=
  if p.before ++ p.after = [] then
    match insertTail lim p thAck sack.left with
    | .ret tp => .ok (.ret tp)
    | .go p => .ok (.go {p with tp := {p.tp with rcvLastsack := sack.right}})
  else do
    match ← scan lim sack p.tp p.before p.after with
    | .ret tp => .ok (.ret tp)
    | .go p => .ok (appendHole lim sack p)

def block (lim : Limits) (thAck : Seq) (sack : Sackblk) (p : Pass) : Except Halt Next :=
  blockHoles lim thAck sack {p with tp := updateFack sack p.tp}

def update (lim : Limits) (thAck : Seq) : List Sackblk → Pass → Except Halt Tcpcb
  | [], p => .ok p.done
  | sack :: sacks, p => do
    match ← block lim thAck sack p with
    | .ret tp => .ok tp
    | .go p => update lim thAck sacks p

-- The insertion sort of t_sack_block, of which the last entry comes first here.
def insertBlock (b : Sackblk) : List Sackblk → List Sackblk
  | [] => [b]
  | c :: l => if seqLt b.left c.left then c :: insertBlock b l else b :: c :: l

-- SACK entry that's old, or invalid.
def oldOrInvalid (acked sndMax : Seq) (b : Sackblk) : Bool := seqLeq b.right acked || seqGt b.right sndMax || seqGeq b.left b.right

-- ntohl of the four bytes from the place i on.
def word (cp : Nat → BitVec 8) (i : Nat) : Seq := cp i ++ cp (i + 1) ++ cp (i + 2) ++ cp (i + 3)
def sackBlocks (cp : Nat → BitVec 8) (n : Nat) : List Sackblk := (List.range n).map fun i => ⟨word cp (2 + 8 * i),word cp (2 + 8 * i + 4)⟩

-- Max because this could be an older ack that just arrived.
def lastack (tp : Tcpcb) (th : Tcphdr) : Seq := if seqGt th.thAck tp.sndUna then th.thAck else tp.sndUna

def accepted (tp : Tcpcb) (th : Tcphdr) (cp : Nat → BitVec 8) (optlen : Nat) : List Sackblk :=
  (sackBlocks cp (optlen / 8)).filter fun b => !oldOrInvalid (lastack tp th) tp.sndMax b

def sortBlocks (l : List Sackblk) : List Sackblk := (l.foldl (fun sorted b => insertBlock b sorted) []).reverse

def ignored (lim : Limits) (tp : Tcpcb) (th : Tcphdr) (optlen : Nat) : Bool :=
  (!tp.sackEnabled || !th.ackFlag || (optlen % 8 ≠ 2 || optlen < 10)) || (lim.globalMaxholes = 0 || lim.tpMaxholes = 0) ||
    (seqLt th.thAck tp.sndUna || seqGt th.thAck tp.sndMax)

def tcpSackOption (lim : Limits) (tp : Tcpcb) (th : Tcphdr) (cp : Nat → BitVec 8) (optlen : Nat) : Except Halt Tcpcb :=
  if ignored lim tp th optlen then .ok tp else update lim th.thAck (sortBlocks (accepted tp th cp optlen)) ⟨tp,[],tp.sndHoles⟩

def delHoles (lastack : Seq) : List Sackhole → List Sackhole
  | [] => []
  | cur :: rest =>
    if seqLeq cur.stop lastack then delHoles lastack rest
    else if seqLt cur.start lastack then
      {cur with start := lastack,rxmit := if seqLt cur.rxmit lastack then lastack else cur.rxmit} :: rest
    else cur :: rest

-- Each hole that goes is taken from the counters.
def tcpDelSackholes (tp : Tcpcb) (th : Tcphdr) : Tcpcb :=
  let holes := delHoles (lastack tp th) tp.sndHoles
  let removed : Int := tp.sndHoles.length - holes.length
  {tp with sndHoles := holes,sndNumholes := tp.sndNumholes - removed,globalholes := tp.globalholes - removed}

-- The place of the hole with a pending retransmission, and the bytes retransmitted before.
def pending (sndUna : Seq) : List Sackhole → Nat → Seq → Option Nat × Seq
  | [], _, bytes => (none,bytes)
  | cur :: rest, i, bytes =>
    if seqLt cur.rxmit cur.stop then
      if seqLt cur.rxmit sndUna then pending sndUna rest (i + 1) bytes else (some i,bytes + (cur.rxmit - cur.start))
    else pending sndUna rest (i + 1) (bytes + (cur.rxmit - cur.start))

def tcpSackOutput (tp : Tcpcb) (bytes : Seq) : Option Nat × Seq :=
  if !tp.sackEnabled then (none,bytes) else pending tp.sndUna tp.sndHoles 0 0

-- The holes as they lie behind snd_una, and one block of an option.

structure Good (u : Seq) (top : Int) (h : Sackhole) : Prop where
  low : 0 ≤ diff h.start u
  order : diff h.start u < diff h.stop u
  rxmit : diff h.start u ≤ diff h.rxmit u
  sent : diff h.rxmit u ≤ diff h.stop u
  high : diff h.stop u ≤ top

-- The first hole of a pass, if its block begins at the ACK or before. It goes with the
-- holes that the ACK closes.
structure Stale (u : Seq) (m a lo top : Int) (h : Sackhole) : Prop where
  start : diff h.start u = a
  behind : diff h.stop u ≤ a
  below : diff h.stop u ≤ lo
  near : m - half < diff h.stop u
  close : a - half < diff h.stop u
  high : diff h.stop u ≤ top

structure Holes (u : Seq) (m a lo top : Int) (l : List Sackhole) : Prop where
  each : ∀ h ∈ l, Good u top h ∨ Stale u m a lo top h
  apart : l.Pairwise fun x y => diff x.stop u ≤ diff y.start u ∧ Good u top y

structure Count (lim : Limits) (tp : Tcpcb) (n : Nat) : Prop where
  count : tp.sndNumholes = n
  limit : tp.sndNumholes ≤ lim.tpMaxholes

-- A block of the window whose left edge compares right with the holes.
structure Block (u : Seq) (w m a lo top : Int) (b : Sackblk) : Prop where
  right : a < diff b.right u ∧ diff b.right u ≤ w
  left : top - half < diff b.left u ∧ diff b.left u < diff b.right u
  sorted : lo ≤ diff b.left u ∧ diff b.left u ≤ m

variable {lim : Limits} {u x y : Seq} {w m a lo lo' top top' : Int} {h cur : Sackhole} {l before after : List Sackhole}
variable {tp tp' : Tcpcb} {b : Sackblk} {p : Pass} {n : Nat}

theorem Good.mono (good : Good u top h) (more : top ≤ top') : Good u top' h := ⟨good.low,good.order,good.rxmit,good.sent,Int.le_trans good.high more⟩

theorem Stale.mono (stale : Stale u m a lo top h) (more : top ≤ top') (later : lo ≤ lo') : Stale u m a lo' top' h :=
  ⟨stale.start,stale.behind,Int.le_trans stale.below later,stale.near,stale.close,Int.le_trans stale.high more⟩

theorem Holes.mono (holes : Holes u m a lo top l) (more : top ≤ top') (later : lo ≤ lo') : Holes u m a lo' top' l :=
  ⟨fun h mem => (holes.each h mem).imp (·.mono more) (·.mono more later),holes.apart.imp fun pair => ⟨pair.1,pair.2.mono more⟩⟩

theorem Holes.high (holes : Holes u m a lo top l) (mem : h ∈ l) : diff h.stop u ≤ top := by
  rcases holes.each h mem with good | stale
  · exact good.high
  · exact stale.high

theorem Holes.replace (new : List Sackhole) (holes : Holes u m a lo top (before ++ cur :: after))
    (inside : ∀ h ∈ new, Good u top h ∧ diff cur.start u ≤ diff h.start u ∧ diff h.stop u ≤ diff cur.stop u)
    (apart : new.Pairwise fun x y => diff x.stop u ≤ diff y.start u) : Holes u m a lo top (before ++ (new ++ after)) := by
  obtain ⟨left,right,across⟩ := pairwise_append.mp holes.apart
  obtain ⟨behind,right⟩ := pairwise_cons.mp right
  refine ⟨fun h mem => ?_,pairwise_append.mpr ⟨left,pairwise_append.mpr ⟨?_,right,?_⟩,?_⟩⟩
  · rcases mem_append.mp mem with here | mem
    · exact holes.each h (mem_append_left _ here)
    rcases mem_append.mp mem with here | there
    · exact .inl (inside h here).1
    · exact holes.each h (by simp [there])
  · exact apart.imp_of_mem fun _ mem pair => ⟨pair,(inside _ mem).1⟩
  · intro x mem y mem'
    have := (inside x mem).2.2
    have pair := behind y mem'
    exact ⟨by omega,pair.2⟩
  intro x mem y mem'
  rcases mem_append.mp mem' with here | there
  · have pair := across x mem cur mem_cons_self
    have := (inside y here).2.1
    exact ⟨by omega,(inside y here).1⟩
  · exact across x mem y (mem_cons_of_mem _ there)

structure Kept (tp tp' : Tcpcb) : Prop where
  una : tp'.sndUna = tp.sndUna
  max : tp'.sndMax = tp.sndMax
  last : tp'.rcvLastsack = tp.rcvLastsack

theorem allochole_cases (lim : Limits) (tp : Tcpcb) (count : Count lim tp n) : ∃ tp', Kept tp tp' ∧
    ((sackAllochole lim tp = (tp',true) ∧ Count lim tp' (n + 1)) ∨ (sackAllochole lim tp = (tp',false) ∧ Count lim tp' n)) := by
  have number := count.count
  have limit := count.limit
  unfold sackAllochole
  split
  · exact ⟨tp,⟨rfl,rfl,rfl⟩,.inr ⟨rfl,count⟩⟩
  next room =>
  split
  · next pool _ => exact ⟨{tp with pool := pool},⟨rfl,rfl,rfl⟩,.inr ⟨rfl,number,limit⟩⟩
  refine ⟨{tp with pool := tp.pool.tail,sndNumholes := tp.sndNumholes + 1,globalholes := tp.globalholes + 1},⟨rfl,rfl,rfl⟩,.inl ⟨rfl,?_,?_⟩⟩
  · dsimp only
    omega
  dsimp only
  omega

structure Piece (u : Seq) (cur h : Sackhole) : Prop where
  low : diff cur.start u ≤ diff h.start u
  order : diff h.start u < diff h.stop u
  high : diff h.stop u ≤ diff cur.stop u
  rxmit : diff h.rxmit u = max (diff h.start u) (min (diff cur.rxmit u) (diff h.stop u))

def Sackhole.Has (u : Seq) (h : Sackhole) (x : Int) : Prop := diff h.start u ≤ x ∧ x < diff h.stop u
def Sackblk.Has (u : Seq) (b : Sackblk) (x : Int) : Prop := diff b.left u ≤ x ∧ x < diff b.right u
def Met (u : Seq) (b : Sackblk) (h : Sackhole) : Prop := diff b.left u < diff h.stop u ∧ diff h.start u < diff b.right u

-- A hole gives way to what the block leaves of it, before the block and after it.
structure Cut (u : Seq) (top : Int) (b : Sackblk) (cur : Sackhole) (left right : List Sackhole) : Prop where
  good : Good u top cur
  met : Met u b cur
  each : ∀ h ∈ left ++ right,Piece u cur h
  apart : (left ++ right).Pairwise fun x y => diff x.stop u ≤ diff y.start u
  leftEnd : ∀ h ∈ left,diff h.stop u ≤ diff b.left u
  rightStart : ∀ h ∈ right,diff b.right u ≤ diff h.start u
  rest : ∀ x,cur.Has u x → ¬b.Has u x → ∃ h ∈ left ++ right,h.Has u x
  one : right.length ≤ 1

-- The walk passes holes that end before the block. The next one is cut, or the block ends before it.
inductive Walked (u : Seq) (top : Int) (b : Sackblk) (before after : List Sackhole) : List Sackhole → List Sackhole → Prop where
  | between (skipped : List Sackhole) {rest : List Sackhole} (split : after = skipped ++ rest) (passed : ∀ h ∈ skipped,diff h.stop u ≤ diff b.left u)
      (beyond : ∀ h ∈ rest,diff b.right u ≤ diff h.start u) : Walked u top b before after (before ++ skipped) rest
  | cut (skipped : List Sackhole) {rest left right : List Sackhole} {cur : Sackhole} (split : after = skipped ++ cur :: rest)
      (passed : ∀ h ∈ skipped,diff h.stop u ≤ diff b.left u) (cut : Cut u top b cur left right) :
      Walked u top b before after (before ++ (skipped ++ left)) (right ++ rest)

-- What the walk leaves, or a call that returns early.
def Scanned (lim : Limits) (u : Seq) (top : Int) (b : Sackblk) (tp₀ : Tcpcb) (before after : List Sackhole) : Next → Prop
  | .go p => Kept tp₀ p.tp ∧ Count lim p.tp (p.before ++ p.after).length ∧ Walked u top b before after p.before p.after
  | .ret tp => Kept tp₀ tp ∧ Count lim tp tp.sndHoles.length ∧ tp.sndHoles = before ++ after

theorem Piece.good (piece : Piece u cur h) (good : Good u top cur) : Good u top h := by
  have low := good.low
  have high := good.high
  obtain ⟨first,order,last,rxmit⟩ := piece
  exact ⟨by omega,order,by omega,by omega,by omega⟩

theorem Walked.skip {q r : List Sackhole} (walked : Walked u top b (before ++ [cur]) after q r) (passed : diff cur.stop u ≤ diff b.left u) :
    Walked u top b before (cur :: after) q r := by
  have more : ∀ {skipped : List Sackhole},(∀ h ∈ skipped,diff h.stop u ≤ diff b.left u) → ∀ h ∈ cur :: skipped,diff h.stop u ≤ diff b.left u := by
    intro skipped all h mem
    rcases mem_cons.mp mem with rfl | mem
    · exact passed
    · exact all h mem
  cases walked with
  | @between skipped rest split all beyond =>
    rw [append_assoc]
    exact .between (cur :: skipped) (by rw [split]; rfl) (more all) beyond
  | @cut skipped rest left right other split all cut =>
    rw [append_assoc]
    exact .cut (cur :: skipped) (by rw [split]; rfl) (more all) cut

theorem scan_cut (wide : 0 ≤ w ∧ w < half) (from_ : 0 ≤ a ∧ a ≤ w) (block : Block u w m a lo top b) (below : top ≤ w)
    (count : Count lim tp (before ++ after).length) (holes : Holes u m a lo top (before ++ after)) :
    ∃ next, scan lim b tp before after = .ok next ∧ Scanned lim u top b tp before after next := by
  obtain ⟨r₁,r₂⟩ := block.right
  obtain ⟨l₁,l₂⟩ := block.left
  obtain ⟨s₁,s₂⟩ := block.sorted
  induction after generalizing before with
  | nil =>
    have walked : Walked u top b before [] (before ++ []) [] := .between [] rfl (by simp) (by simp)
    exact ⟨_,rfl,⟨rfl,rfl,rfl⟩,count,by simpa using walked⟩
  | cons cur rest ih =>
    have skip : diff cur.stop u ≤ diff b.left u → ∃ next, scan lim b tp (before ++ [cur]) rest = .ok next ∧ Scanned lim u top b tp before (cur :: rest) next := by
      intro passed
      have count' : Count lim tp ((before ++ [cur]) ++ rest).length := by simpa using count
      have holes' : Holes u m a lo top ((before ++ [cur]) ++ rest) := by simpa using holes
      obtain ⟨next,ran,scanned⟩ := ih count' holes'
      refine ⟨next,ran,?_⟩
      cases next with
      | go p => exact ⟨scanned.1,scanned.2.1,scanned.2.2.skip passed⟩
      | ret tp' => exact ⟨scanned.1,scanned.2.1,by rw [scanned.2.2,append_assoc]; rfl⟩
    rw [scan]
    rcases holes.each cur (by simp) with good | stale
    · have all := good
      obtain ⟨low,order,rxmit,sent,high⟩ := good
      have right_start : diff b.right cur.start = diff b.right u - diff cur.start u := diff_near (by omega) (by omega)
      have right_stop : diff b.right cur.stop = diff b.right u - diff cur.stop u := diff_near (by omega) (by omega)
      have left_start : diff b.left cur.start = diff b.left u - diff cur.start u := diff_near (by omega) (by omega)
      have left_stop : diff b.left cur.stop = diff b.left u - diff cur.stop u := diff_near (by omega) (by omega)
      have start_left : diff cur.start b.left = diff cur.start u - diff b.left u := diff_near (by omega) (by omega)
      have stop_right : diff cur.stop b.right = diff cur.stop u - diff b.right u := diff_near (by omega) (by omega)
      have max_right : diff (seqMax cur.rxmit b.right) u = max (diff cur.rxmit u) (diff b.right u) := seqMax_diff (by omega) (by omega)
      have min_left : diff (seqMin cur.rxmit b.left) u = min (diff cur.rxmit u) (diff b.left u) := seqMin_diff (by omega) (by omega)
      split
      · next before_ =>
        have before_ := seqLeq_iff.mp before_
        have later : ∀ h ∈ cur :: rest,diff b.right u ≤ diff h.start u := by
          intro h mem
          have apart := (pairwise_append.mp holes.apart).2.1
          rcases mem_cons.mp mem with rfl | mem
          · omega
          have pair := (pairwise_cons.mp apart).1 h mem
          omega
        have walked : Walked u top b before (cur :: rest) (before ++ []) (cur :: rest) := .between [] rfl (by simp) later
        exact ⟨_,rfl,⟨rfl,rfl,rfl⟩,count,by simpa using walked⟩
      next after_ =>
      have after_ : ¬diff b.right u - diff cur.start u ≤ 0 := fun less => after_ (seqLeq_iff.mpr (by omega))
      split
      · next before_ =>
        have before_ := seqGeq_iff.mp before_
        exact skip (by omega)
      next before_ =>
      have before_ : ¬diff b.left u - diff cur.stop u ≥ 0 := fun more => before_ (seqGeq_iff.mpr (by omega))
      have met : Met u b cur := ⟨by omega,by omega⟩
      have walked : ∀ {left right : List Sackhole},Cut u top b cur left right → Walked u top b before (cur :: rest) (before ++ left) (right ++ rest) := fun cut =>
        Walked.cut [] rfl (by simp) cut
      split
      · next begins =>
        have begins := seqLeq_iff.mp begins
        split
        · -- The block acks the entire hole.
          next whole =>
          have whole := seqGeq_iff.mp whole
          have cut : Cut u top b cur [] [] := by
            refine ⟨all,met,by simp,.nil,by simp,by simp,fun x has outside => (outside ⟨?_,?_⟩).elim,by simp⟩
            · have := has.1
              omega
            have := has.2
            omega
          refine ⟨_,rfl,⟨rfl,rfl,rfl⟩,?_,by simpa using walked cut⟩
          have number := count.count
          have limit := count.limit
          simp only [length_append,length_cons] at number
          refine ⟨?_,?_⟩
          · simp only [removeCounts,length_append]
            omega
          simp only [removeCounts]
          omega
        next short =>
        have short : ¬diff b.right u - diff cur.stop u ≥ 0 := fun more => short (seqGeq_iff.mpr (by omega))
        have piece : Piece u cur {cur with start := b.right,rxmit := seqMax cur.rxmit b.right} := by
          refine ⟨?_,?_,Int.le_refl _,?_⟩
          · dsimp only
            omega
          · dsimp only
            omega
          dsimp only
          omega
        have cut : Cut u top b cur [] [{cur with start := b.right,rxmit := seqMax cur.rxmit b.right}] := by
          refine ⟨all,met,by simpa using piece,pairwise_singleton _ _,by simp,by simp,fun x has outside => ⟨_,mem_singleton_self _,?_,has.2⟩,by simp⟩
          have := has.1
          by_contra inside
          dsimp only at inside
          exact outside ⟨by omega,by omega⟩
        exact ⟨_,rfl,⟨rfl,rfl,rfl⟩,by simpa using count,by simpa using walked cut⟩
      next begins =>
      have begins : ¬diff b.left u - diff cur.start u ≤ 0 := fun less => begins (seqLeq_iff.mpr (by omega))
      have first : Piece u cur {cur with stop := b.left,rxmit := seqMin cur.rxmit b.left} := by
        refine ⟨Int.le_refl _,?_,?_,?_⟩
        · dsimp only
          omega
        · dsimp only
          omega
        dsimp only
        omega
      split
      · next ends =>
        have ends := seqGeq_iff.mp ends
        have cut : Cut u top b cur [{cur with stop := b.left,rxmit := seqMin cur.rxmit b.left}] [] := by
          refine ⟨all,met,by simpa using first,pairwise_singleton _ _,by simp,by simp,fun x has outside => ⟨_,mem_singleton_self _,has.1,?_⟩,by simp⟩
          have := has.2
          by_contra inside
          dsimp only at inside
          exact outside ⟨by omega,by omega⟩
        exact ⟨_,rfl,⟨rfl,rfl,rfl⟩,by simpa using count,by simpa using walked cut⟩
      next short =>
      have short : ¬diff b.right u - diff cur.stop u ≥ 0 := fun more => short (seqGeq_iff.mpr (by omega))
      have middle : (seqLt cur.start b.left && seqGt cur.stop b.right) = true := by
        rw [Bool.and_eq_true,seqLt_iff,seqGt_iff]
        omega
      rw [if_pos middle]
      obtain ⟨tp',kept,⟨got,count'⟩ | ⟨got,count'⟩⟩ := allochole_cases lim tp count
      · rw [got]
        have second : Piece u cur ⟨b.right,cur.stop,seqMax cur.rxmit b.right⟩ := by
          refine ⟨?_,?_,Int.le_refl _,?_⟩
          · dsimp only
            omega
          · dsimp only
            omega
          dsimp only
          omega
        have cut : Cut u top b cur [{cur with stop := b.left,rxmit := seqMin cur.rxmit b.left}] [⟨b.right,cur.stop,seqMax cur.rxmit b.right⟩] := by
          refine ⟨all,met,by simp [first,second],?_,by simp,by simp,fun x has outside => ?_,by simp⟩
          · refine pairwise_cons.mpr ⟨fun h mem => ?_,pairwise_singleton _ _⟩
            rcases mem_singleton.mp mem with rfl
            dsimp only
            omega
          by_cases less : x < diff b.left u
          · exact ⟨_,mem_cons_self,has.1,less⟩
          refine ⟨_,mem_cons_of_mem _ (mem_singleton_self _),?_,has.2⟩
          by_contra inside
          dsimp only at inside
          exact outside ⟨by omega,by omega⟩
        refine ⟨_,rfl,kept,?_,by simpa using walked cut⟩
        simp only [length_append,length_cons,length_nil] at count' ⊢
        have same : before.length + (0 + 1) + (rest.length + 1) = before.length + (rest.length + 1) + 1 := by omega
        rwa [same]
      · rw [got]
        exact ⟨_,rfl,⟨kept.una,kept.max,kept.last⟩,⟨count'.count,count'.limit⟩,rfl⟩
    · obtain ⟨start,behind,below_,near_,_,high⟩ := stale
      have right_start : diff b.right cur.start = diff b.right u - diff cur.start u := diff_near (by omega) (by omega)
      have left_stop : diff b.left cur.stop = diff b.left u - diff cur.stop u := diff_near (by omega) (by omega)
      have one : ¬seqLeq b.right cur.start = true := fun less => by
        have := seqLeq_iff.mp less
        omega
      have two : seqGeq b.left cur.stop = true := seqGeq_iff.mpr (by omega)
      rw [if_neg one,if_pos two]
      exact skip (by omega)

theorem Cut.holes {left right rest : List Sackhole} (cut : Cut u top b cur left right) (holes : Holes u m a lo top (before ++ cur :: rest)) :
    Holes u m a lo top (before ++ (left ++ right ++ rest)) :=
  holes.replace _ (fun h mem => ⟨(cut.each h mem).good cut.good,(cut.each h mem).low,(cut.each h mem).high⟩) cut.apart

theorem Walked.holes {q r : List Sackhole} (walked : Walked u top b before after q r) (holes : Holes u m a lo top (before ++ after)) :
    Holes u m a lo top (q ++ r) := by
  cases walked with
  | between skipped split =>
    rw [append_assoc,← split]
    exact holes
  | cut skipped split _ cut =>
    rw [split,← append_assoc] at holes
    simpa using cut.holes holes
end NetbsdAvr32.TcpSack
