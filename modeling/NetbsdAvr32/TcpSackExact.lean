import NetbsdAvr32.TcpSack

-- The scoreboard over whole runs.
namespace NetbsdAvr32.TcpSack
open Serial List Int

-- Once there are holes, they end at rcv_lastsack, and the blocks that follow compare right
-- with it.
structure Scored (u : Seq) (w m a lo top : Int) (l : List Sackhole) : Prop where
  low : 0 ≤ top
  below : top ≤ w
  reach : top - half < lo
  holes : Holes u m a lo top l

structure Loop (lim : Limits) (u : Seq) (w m a lo : Int) (tp : Tcpcb) (l : List Sackhole) : Prop where
  una : tp.sndUna = u
  max : diff tp.sndMax u = w
  count : Count lim tp l.length
  scored : l ≠ [] → Scored u w m a lo (diff tp.rcvLastsack u) l

def Looped (lim : Limits) (u : Seq) (w m a lo : Int) : Next → Prop
  | .go p => Loop lim u w m a lo p.tp (p.before ++ p.after)
  | .ret tp => Loop lim u w m a lo tp tp.sndHoles

-- An accepted block, whatever the holes are.
structure Edges (u : Seq) (w m a : Int) (b : Sackblk) : Prop where
  right : a < diff b.right u ∧ diff b.right u ≤ w
  left : m - half < diff b.left u ∧ diff b.left u ≤ m
  short : diff b.right u - half < diff b.left u ∧ diff b.left u < diff b.right u

inductive Appended (u : Seq) (b : Sackblk) (p : Pass) : Next → Prop where
  | none {tp : Tcpcb} (touches : diff b.left u ≤ diff p.tp.rcvLastsack u)
      (last : diff tp.rcvLastsack u = Max.max (diff p.tp.rcvLastsack u) (diff b.right u)) : Appended u b p (.go ⟨tp,p.before,p.after⟩)
  | gap {tp : Tcpcb} (behind : diff p.tp.rcvLastsack u < diff b.left u) (last : diff tp.rcvLastsack u = diff b.right u) :
      Appended u b p (.go ⟨tp,p.before ++ p.after,[⟨p.tp.rcvLastsack,b.left,p.tp.rcvLastsack⟩]⟩)
  | short {tp : Tcpcb} (same : tp.sndHoles = p.before ++ p.after) : Appended u b p (.ret tp)

inductive Effect (u thAck : Seq) (b : Sackblk) (p : Pass) : Next → Prop where
  | first {tp : Tcpcb} (empty : p.before ++ p.after = []) (last : tp.rcvLastsack = b.right) : Effect u thAck b p (.go ⟨tp,[],[⟨thAck,b.left,thAck⟩]⟩)
  | walked {tp : Tcpcb} {before after : List Sackhole} {next : Next} (some : p.before ++ p.after ≠ [])
      (walked : Walked u (diff p.tp.rcvLastsack u) b p.before p.after before after) (last : tp.rcvLastsack = p.tp.rcvLastsack)
      (appended : Appended u b ⟨tp,before,after⟩ next) : Effect u thAck b p next
  | short {tp : Tcpcb} (same : tp.sndHoles = p.before ++ p.after) : Effect u thAck b p (.ret tp)

def ranOut (lim : Limits) (thAck : Seq) : List Sackblk → Pass → Bool
  | [], _ => false
  | sack :: sacks, p =>
    match block lim thAck sack p with
    | .ok (.go p) => ranOut lim thAck sacks p
    | .ok (.ret _) => true
    | .error _ => false

-- The blocks of an option, one after the other, until the holes run out.
inductive Effects (u thAck : Seq) : List Sackblk → Pass → Bool → Tcpcb → Prop where
  | done {p : Pass} : Effects u thAck [] p false p.done
  | ret {b : Sackblk} {blocks : List Sackblk} {p : Pass} {tp : Tcpcb} (effect : Effect u thAck b p (.ret tp)) : Effects u thAck (b :: blocks) p true tp
  | go {b : Sackblk} {blocks : List Sackblk} {p q : Pass} {short : Bool} {tp : Tcpcb} (effect : Effect u thAck b p (.go q))
      (rest : Effects u thAck blocks q short tp) : Effects u thAck (b :: blocks) p short tp

variable {lim : Limits} {u start stop : Seq} {w m a lo lo' top : Int} {h : Sackhole} {l : List Sackhole} {tp tp' : Tcpcb}
variable {b c : Sackblk} {blocks sorted : List Sackblk} {p : Pass} {n : Nat} {th : Tcphdr} {next : Next}

theorem insertTail_cases (lim : Limits) (p : Pass) (start stop : Seq) (count : Count lim p.tp (p.before ++ p.after).length) : ∃ tp,Kept p.tp tp ∧
    ((insertTail lim p start stop = .go ⟨tp,p.before ++ p.after,[⟨start,stop,start⟩]⟩ ∧ Count lim tp ((p.before ++ p.after).length + 1)) ∨
      (insertTail lim p start stop = .ret {tp with sndHoles := p.before ++ p.after} ∧ Count lim tp (p.before ++ p.after).length)) := by
  obtain ⟨tp,kept,⟨got,count'⟩ | ⟨got,count'⟩⟩ := allochole_cases lim p.tp count
  · exact ⟨tp,kept,.inl ⟨by simp [insertTail,got],count'⟩⟩
  · exact ⟨tp,kept,.inr ⟨by simp [insertTail,got,Pass.done],count'⟩⟩

theorem Holes.snoc (holes : Holes u m a lo top l) (good : Good u (diff stop u) h) (begins : diff h.start u = top) (ends : h.stop = stop) :
    Holes u m a lo (diff stop u) (l ++ [h]) := by
  have order := good.order
  subst ends
  have more : top ≤ diff h.stop u := by omega
  refine ⟨fun x mem => ?_,pairwise_append.mpr ⟨(holes.mono more (le_refl _)).apart,pairwise_singleton _ _,?_⟩⟩
  · rcases mem_append.mp mem with old | new
    · exact (holes.mono more (le_refl _)).each x old
    rcases mem_singleton.mp new with rfl
    exact .inl good
  intro x mem y mem'
  rcases mem_singleton.mp mem' with rfl
  have := holes.high mem
  exact ⟨by omega,good⟩

theorem appendHole_spec (wide : 0 ≤ w ∧ w < half) (from_ : 0 ≤ a ∧ a ≤ w) (block : Block u w m a lo top b) (una : p.tp.sndUna = u)
    (max : diff p.tp.sndMax u = w) (last : diff p.tp.rcvLastsack u = top) (count : Count lim p.tp (p.before ++ p.after).length)
    (short : diff b.right u - half < lo) (scored : Scored u w m a lo top (p.before ++ p.after)) :
    Looped lim u w m a lo (appendHole lim b p) ∧ Appended u b p (appendHole lim b p) := by
  obtain ⟨low,below,reach,holes⟩ := scored
  obtain ⟨r₁,r₂⟩ := block.right
  obtain ⟨l₁,l₂⟩ := block.left
  have left : diff p.tp.rcvLastsack b.left = top - diff b.left u := by
    rw [← last]
    exact diff_near (by omega) (by omega)
  have finish : ∀ q : Pass,q.tp.sndUna = u → diff q.tp.sndMax u = w → diff q.tp.rcvLastsack u = top →
      Count lim q.tp (q.before ++ q.after).length → Holes u m a lo (Max.max top (diff b.right u)) (q.before ++ q.after) →
      ∃ tp,diff tp.rcvLastsack u = Max.max top (diff b.right u) ∧ Loop lim u w m a lo tp (q.before ++ q.after) ∧
        (if seqLt q.tp.rcvLastsack b.right then Next.go {q with tp := {q.tp with rcvLastsack := b.right}} else .go q) = .go ⟨tp,q.before,q.after⟩ := by
    intro q una max last count holes
    have right : diff q.tp.rcvLastsack b.right = top - diff b.right u := by
      rw [← last]
      exact diff_near (by omega) (by omega)
    split
    · next more =>
      have more := seqLt_iff.mp more
      rw [max_eq_right (by omega)] at holes ⊢
      exact ⟨{q.tp with rcvLastsack := b.right},rfl,⟨una,max,⟨count.count,count.limit⟩,fun _ => ⟨by dsimp only; omega,r₂,short,holes⟩⟩,rfl⟩
    next less =>
    have less : ¬diff q.tp.rcvLastsack b.right < 0 := fun more => less (seqLt_iff.mpr more)
    rw [max_eq_left (by omega),← last] at holes ⊢
    exact ⟨q.tp,rfl,⟨una,max,count,fun _ => ⟨by omega,by omega,by omega,holes⟩⟩,rfl⟩
  have keep := holes.mono (le_max_left top (diff b.right u)) (le_refl lo)
  unfold appendHole
  split_ifs with more
  · have more := seqLt_iff.mp more
    obtain ⟨tp',kept,⟨ins,count'⟩ | ⟨ins,count'⟩⟩ := insertTail_cases lim p p.tp.rcvLastsack b.left count
    · rw [ins]
      have good : Good u (diff b.left u) ⟨p.tp.rcvLastsack,b.left,p.tp.rcvLastsack⟩ := by
        refine ⟨?_,?_,le_refl _,?_,le_refl _⟩
        · dsimp only
          omega
        · dsimp only
          omega
        dsimp only
        omega
      obtain ⟨tp₂,last₂,loop,same⟩ := finish ⟨tp',p.before ++ p.after,[⟨p.tp.rcvLastsack,b.left,p.tp.rcvLastsack⟩]⟩ (kept.una.trans una)
        (by rw [kept.max,max]) (by rw [kept.last,last]) (by simpa [Nat.add_assoc] using count')
        ((holes.snoc good last rfl).mono (by omega) (le_refl _))
      dsimp only at same ⊢
      rw [same]
      exact ⟨loop,.gap (by omega) (by omega)⟩
    rw [ins]
    refine ⟨⟨kept.una.trans una,?_,⟨count'.count,count'.limit⟩,fun _ => ?_⟩,.short rfl⟩
    · rw [kept.max,max]
    rw [kept.last,last]
    exact ⟨low,below,reach,holes⟩
  have more : ¬diff p.tp.rcvLastsack b.left < 0 := fun less => more (seqLt_iff.mpr less)
  obtain ⟨tp',last',loop,same⟩ := finish p una max last count keep
  dsimp only
  rw [same]
  exact ⟨loop,.none (by omega) (by rw [last',last])⟩

theorem blockHoles_spec (wide : 0 ≤ w ∧ w < half) (from_ : 0 ≤ a ∧ a ≤ w) (acked : diff th.thAck u = a) (edges : Edges u w m a b) (later : lo ≤ diff b.left u)
    (loop : Loop lim u w m a lo p.tp (p.before ++ p.after)) :
    ∃ next,blockHoles lim th.thAck b p = .ok next ∧ Looped lim u w m a (diff b.left u) next ∧ Effect u th.thAck b p next := by
  obtain ⟨r₁,r₂⟩ := edges.right
  obtain ⟨l₁,l₂⟩ := edges.left
  obtain ⟨s₁,s₂⟩ := edges.short
  unfold blockHoles
  obtain ⟨una,max,count,scored⟩ := loop
  split
  · next empty =>
    obtain ⟨tp',kept,⟨ins,count'⟩ | ⟨ins,count'⟩⟩ := insertTail_cases lim p th.thAck b.left count
    · rw [ins,empty]
      rw [empty] at count'
      refine ⟨_,rfl,⟨kept.una.trans una,?_,⟨count'.count,count'.limit⟩,fun _ => ?_⟩,.first empty rfl⟩
      · rw [kept.max,max]
      show Scored u w m a (diff b.left u) (diff b.right u) [⟨th.thAck,b.left,th.thAck⟩]
      refine ⟨by omega,r₂,s₁,fun h mem => ?_,pairwise_singleton _ _⟩
      rcases mem_singleton.mp mem with rfl
      by_cases open_ : a < diff b.left u
      · exact .inl ⟨by dsimp only; omega,by dsimp only; omega,le_refl _,by dsimp only; omega,by dsimp only; omega⟩
      · exact .inr ⟨acked,by dsimp only; omega,le_refl _,l₁,by dsimp only; omega,by dsimp only; omega⟩
    rw [ins]
    refine ⟨_,rfl,⟨kept.una.trans una,?_,⟨count'.count,count'.limit⟩,fun more => absurd empty more⟩,.short rfl⟩
    rw [kept.max,max]
  next some_ =>
  obtain ⟨low,below,reach,holes⟩ := scored some_
  have fits : Block u w m a (diff b.left u) (diff p.tp.rcvLastsack u) b := ⟨edges.right,⟨by omega,s₂⟩,⟨le_refl _,l₂⟩⟩
  have moved := holes.mono (le_refl _) later
  obtain ⟨next,ran,after⟩ := scan_cut wide from_ fits below count moved
  rw [ran]
  cases next with
  | ret tp' =>
    obtain ⟨kept,count',same⟩ := after
    refine ⟨_,rfl,⟨kept.una.trans una,?_,count',fun _ => ?_⟩,.short same⟩
    · rw [kept.max,max]
    rw [kept.last,same]
    exact ⟨low,below,by omega,moved⟩
  | go p' =>
    obtain ⟨kept,count',walked⟩ := after
    have holes' := walked.holes moved
    obtain ⟨looped,appended⟩ := appendHole_spec wide from_ fits (kept.una.trans una) (by rw [kept.max,max]) (by rw [kept.last]) count' s₁
      ⟨low,below,by omega,holes'⟩
    exact ⟨_,rfl,looped,.walked some_ walked kept.last appended⟩

theorem updateFack_last (b : Sackblk) (tp : Tcpcb) : (updateFack b tp).rcvLastsack = tp.rcvLastsack := by
  unfold updateFack
  split
  · rfl
  · rfl

theorem block_spec (wide : 0 ≤ w ∧ w < half) (from_ : 0 ≤ a ∧ a ≤ w) (acked : diff th.thAck u = a) (edges : Edges u w m a b) (later : lo ≤ diff b.left u)
    (loop : Loop lim u w m a lo p.tp (p.before ++ p.after)) :
    ∃ next,block lim th.thAck b p = .ok next ∧ Looped lim u w m a (diff b.left u) next ∧ Effect u th.thAck b p next := by
  have loop : Loop lim u w m a lo (updateFack b p.tp) (p.before ++ p.after) := by
    unfold updateFack
    split
    · exact ⟨loop.una,loop.max,⟨loop.count.count,loop.count.limit⟩,loop.scored⟩
    · exact loop
  obtain ⟨next,ran,looped,effect⟩ := @blockHoles_spec lim u w m a lo b {p with tp := updateFack b p.tp} th wide from_ acked edges later loop
  refine ⟨next,ran,looped,?_⟩
  cases effect with
  | first empty last => exact .first empty last
  | walked some walked last appended =>
    rw [updateFack_last] at walked last
    exact .walked some walked last appended
  | short same => exact .short same

theorem update_spec (wide : 0 ≤ w ∧ w < half) (from_ : 0 ≤ a ∧ a ≤ w) (acked : diff th.thAck u = a) (edges : ∀ b ∈ blocks,Edges u w m a b)
    (sorted : blocks.Pairwise fun b c => diff b.left u ≤ diff c.left u) (later : ∀ b ∈ blocks,lo ≤ diff b.left u)
    (loop : Loop lim u w m a lo p.tp (p.before ++ p.after)) :
    ∃ tp' lo',update lim th.thAck blocks p = .ok tp' ∧ Loop lim u w m a lo' tp' tp'.sndHoles ∧
      Effects u th.thAck blocks p (ranOut lim th.thAck blocks p) tp' := by
  induction blocks generalizing p lo with
  | nil => exact ⟨_,lo,rfl,⟨loop.una,loop.max,⟨loop.count.count,loop.count.limit⟩,loop.scored⟩,.done⟩
  | cons b blocks ih =>
    obtain ⟨first,sorted⟩ := pairwise_cons.mp sorted
    obtain ⟨next,ran,looped,effect⟩ := block_spec wide from_ acked (edges b mem_cons_self) (later b mem_cons_self) loop
    rw [update,ranOut,ran]
    cases next with
    | ret tp' => exact ⟨tp',_,rfl,looped,.ret effect⟩
    | go p' =>
      obtain ⟨tp',lo',ran,loop,effects⟩ := ih (fun c mem => edges c (mem_cons_of_mem _ mem)) sorted first looped
      exact ⟨tp',lo',ran,loop,.go effect effects⟩

theorem mem_insertBlock : c ∈ insertBlock b blocks ↔ c = b ∨ c ∈ blocks := by
  induction blocks with
  | nil => simp [insertBlock]
  | cons d blocks ih =>
    rw [insertBlock]
    split
    · rw [mem_cons,ih,mem_cons]
      tauto
    · simp

-- The left edges compare right with each other.
def LeftNear (u : Seq) (blocks : List Sackblk) : Prop := ∀ b ∈ blocks,∀ c ∈ blocks,diff c.left u - diff b.left u < half

theorem insertBlock_sorted (near : LeftNear u (b :: blocks)) (sorted : blocks.Pairwise fun b c => diff c.left u ≤ diff b.left u) :
    (insertBlock b blocks).Pairwise fun b c => diff c.left u ≤ diff b.left u := by
  induction blocks with
  | nil => exact pairwise_singleton _ _
  | cons c blocks ih =>
    obtain ⟨first,rest⟩ := pairwise_cons.mp sorted
    have one := near b (by simp) c (by simp)
    have two := near c (by simp) b (by simp)
    have compare : diff b.left c.left = diff b.left u - diff c.left u := diff_near (by omega) (by omega)
    rw [insertBlock]
    split
    · next less =>
      have less := seqLt_iff.mp less
      refine pairwise_cons.mpr ⟨fun d mem => ?_,ih (fun x memx y memy => near x ?_ y ?_) rest⟩
      · rcases mem_insertBlock.mp mem with rfl | old
        · omega
        · exact first d old
      · rcases mem_cons.mp memx with rfl | mem
        · simp
        · simp [mem]
      rcases mem_cons.mp memy with rfl | mem
      · simp
      · simp [mem]
    next more =>
    have more : ¬diff b.left c.left < 0 := fun less => more (seqLt_iff.mpr less)
    refine pairwise_cons.mpr ⟨fun d mem => ?_,sorted⟩
    rcases mem_cons.mp mem with rfl | old
    · omega
    have := first d old
    omega

theorem foldl_insertBlock (near : LeftNear u (sorted ++ blocks)) (order : sorted.Pairwise fun b c => diff c.left u ≤ diff b.left u) :
    (∀ c,c ∈ blocks.foldl (fun sorted b => insertBlock b sorted) sorted ↔ c ∈ sorted ∨ c ∈ blocks) ∧
      (blocks.foldl (fun sorted b => insertBlock b sorted) sorted).Pairwise fun b c => diff c.left u ≤ diff b.left u := by
  induction blocks generalizing sorted with
  | nil => exact ⟨by simp,order⟩
  | cons b blocks ih =>
    have members : ∀ c,c ∈ insertBlock b sorted ++ blocks ↔ c ∈ sorted ++ b :: blocks := by
      intro c
      rw [mem_append,mem_insertBlock,mem_append,mem_cons]
      tauto
    have order' : (insertBlock b sorted).Pairwise fun b c => diff c.left u ≤ diff b.left u := by
      refine insertBlock_sorted (fun x memx y memy => near x ?_ y ?_) order
      · rcases mem_cons.mp memx with rfl | mem
        · simp
        · simp [mem]
      rcases mem_cons.mp memy with rfl | mem
      · simp
      · simp [mem]
    obtain ⟨mem,order''⟩ := ih (fun x memx y memy => near x ((members x).mp memx) y ((members y).mp memy)) order'
    refine ⟨fun c => ?_,order''⟩
    rw [foldl_cons,mem,mem_insertBlock,mem_cons]
    tauto

theorem mem_sortBlocks (near : LeftNear u blocks) : c ∈ sortBlocks blocks ↔ c ∈ blocks := by
  have members := (@foldl_insertBlock u blocks [] near .nil).1 c
  simp only [sortBlocks,mem_reverse]
  rw [members]
  simp

theorem sortBlocks_sorted (near : LeftNear u blocks) : (sortBlocks blocks).Pairwise fun b c => diff b.left u ≤ diff c.left u :=
  pairwise_reverse.mpr (foldl_insertBlock near .nil).2

theorem delHoles_spec (from_ : 0 ≤ a ∧ a < half) (below : top < half) (acked : diff stop u = a) (holes : Holes u m a lo top l) :
    (∀ h ∈ delHoles stop l,Good u top h ∧ a ≤ diff h.start u) ∧ (delHoles stop l).Pairwise fun x y => diff x.stop u ≤ diff y.start u := by
  induction l with
  | nil => exact ⟨by simp [delHoles],.nil⟩
  | cons cur rest ih =>
    obtain ⟨behind,apart⟩ := pairwise_cons.mp holes.apart
    have ih := ih ⟨fun h mem => holes.each h (mem_cons_of_mem _ mem),apart⟩
    have apart := apart.imp fun pair => pair.1
    rw [delHoles]
    rcases holes.each cur mem_cons_self with good | stale
    · obtain ⟨low,order,rxmit,sent,high⟩ := good
      have stop_ack : diff cur.stop stop = diff cur.stop u - diff stop u := diff_near (by omega) (by omega)
      have start_ack : diff cur.start stop = diff cur.start u - diff stop u := diff_near (by omega) (by omega)
      have rxmit_ack : diff cur.rxmit stop = diff cur.rxmit u - diff stop u := diff_near (by omega) (by omega)
      split
      · exact ih
      next more =>
      have more : ¬diff cur.stop stop ≤ 0 := fun less => more (seqLeq_iff.mpr less)
      have later : ∀ h ∈ rest,Good u top h ∧ a ≤ diff h.start u := by
        intro h mem
        have pair := behind h mem
        exact ⟨pair.2,by omega⟩
      split
      · next begun =>
        have cut : diff (if seqLt cur.rxmit stop then stop else cur.rxmit) u = max (diff cur.rxmit u) a := by
          split
          · next less =>
            have less := seqLt_iff.mp less
            omega
          next less =>
          have less : ¬diff cur.rxmit stop < 0 := fun more => less (seqLt_iff.mpr more)
          omega
        refine ⟨fun h mem => ?_,pairwise_cons.mpr ⟨fun h mem => (behind h mem).1,apart⟩⟩
        rcases mem_cons.mp mem with rfl | mem
        · refine ⟨⟨?_,?_,?_,?_,high⟩,by dsimp only; omega⟩
          · dsimp only
            omega
          · dsimp only
            omega
          · dsimp only
            omega
          dsimp only
          omega
        · exact later h mem
      next begun =>
      have begun : ¬diff cur.start stop < 0 := fun less => begun (seqLt_iff.mpr less)
      refine ⟨fun h mem => ?_,pairwise_cons.mpr ⟨fun h mem => (behind h mem).1,apart⟩⟩
      rcases mem_cons.mp mem with rfl | mem
      · exact ⟨⟨low,order,rxmit,sent,high⟩,by omega⟩
      · exact later h mem
    have stop_ack : diff cur.stop stop = diff cur.stop u - diff stop u := diff_near (by have := stale.close; omega) (by have := stale.behind; omega)
    have closed : seqLeq cur.stop stop = true := seqLeq_iff.mpr (by have := stale.behind; omega)
    rw [if_pos closed]
    exact ih

theorem delHoles_length (stop : Seq) (l : List Sackhole) : (delHoles stop l).length ≤ l.length := by
  induction l with
  | nil => simp [delHoles]
  | cons cur rest ih =>
    rw [delHoles]
    split
    · simp only [length_cons]
      omega
    split
    · simp
    · simp

-- The holes lie in the window, in order, and are counted.
structure Scoreboard (lim : Limits) (tp : Tcpcb) : Prop where
  each : ∀ h ∈ tp.sndHoles,Good tp.sndUna (diff tp.sndMax tp.sndUna) h
  apart : tp.sndHoles.Pairwise fun x y => diff x.stop tp.sndUna ≤ diff y.start tp.sndUna
  numholes : tp.sndNumholes = tp.sndHoles.length
  limit : tp.sndNumholes ≤ lim.tpMaxholes

-- The left edge of an accepted block lies less than 2 ^ 31 before the right edge, before
-- rcv_lastsack when there are holes, and before the other left edges.
def Near (tp : Tcpcb) (blocks : List Sackblk) : Prop :=
  ∀ b ∈ blocks,diff b.right tp.sndUna - half < diff b.left tp.sndUna ∧ (tp.sndHoles ≠ [] → diff tp.rcvLastsack tp.sndUna - half < diff b.left tp.sndUna) ∧
    ∀ c ∈ blocks,diff c.left tp.sndUna - half < diff b.left tp.sndUna

inductive Act where
  | ack (th : Tcphdr) (cp : Nat → BitVec 8) (optlen : Nat) (taken : Bool)
  | rexmit (rxmit : Seq)
  | send (max : Seq)
  | world (pool : List Bool) (globalholes : Int) (sndFack : Seq)

-- The ACK is taken, if it is for outstanding data, unless the segment is dropped.
def newAck (tp : Tcpcb) (th : Tcphdr) (taken : Bool) : Tcpcb :=
  if taken && seqGt th.thAck tp.sndUna && seqLeq th.thAck tp.sndMax then {tp with sndUna := th.thAck} else tp

inductive Step (lim : Limits) (tp : Tcpcb) : Act → Tcpcb → Prop where
  | ack {th : Tcphdr} {cp : Nat → BitVec 8} {optlen : Nat} {taken : Bool} {tp' : Tcpcb} (option : tcpSackOption lim tp th cp optlen = .ok tp') :
      Step lim tp (.ack th cp optlen taken) (newAck (tcpDelSackholes tp' th) th taken)
  | rexmit {rxmit bytes bytes' : Seq} {i : Nat} {h : Sackhole} (output : tcpSackOutput tp bytes = (some i,bytes')) (hole : tp.sndHoles[i]? = some h)
      (inside : seqLeq h.rxmit rxmit ∧ seqLeq rxmit h.stop) : Step lim tp (.rexmit rxmit) {tp with sndHoles := tp.sndHoles.set i {h with rxmit := rxmit}}
  | send {max : Seq} (more : diff tp.sndMax tp.sndUna ≤ diff max tp.sndUna) : Step lim tp (.send max) {tp with sndMax := max}
  | world {pool : List Bool} {globalholes : Int} {sndFack : Seq} :
      Step lim tp (.world pool globalholes sndFack) {tp with pool := pool,globalholes := globalholes,sndFack := sndFack}

inductive Run (lim : Limits) (meets : Tcpcb → Act → Prop) : Tcpcb → Prop where
  | start {tp : Tcpcb} (window : 0 ≤ diff tp.sndMax tp.sndUna) (empty : tp.sndHoles = []) (zero : tp.sndNumholes = 0) : Run lim meets tp
  | step {tp tp' : Tcpcb} {act : Act} (run : Run lim meets tp) (met : meets tp act) (step : Step lim tp act tp') : Run lim meets tp'

-- The condition: a block that is looked at compares right.
def Meets (lim : Limits) (tp : Tcpcb) : Act → Prop
  | .ack th cp optlen _ => ignored lim tp th optlen = false → Near tp (accepted tp th cp optlen)
  | _ => True

-- The blocks that the holes are compared with, in their order.
def processed (lim : Limits) (tp : Tcpcb) (th : Tcphdr) (cp : Nat → BitVec 8) (optlen : Nat) : List Sackblk :=
  if ignored lim tp th optlen then [] else sortBlocks (accepted tp th cp optlen)

structure Inv (lim : Limits) (tp : Tcpcb) : Prop where
  window : 0 ≤ diff tp.sndMax tp.sndUna
  count : Count lim tp tp.sndHoles.length
  each : ∀ h ∈ tp.sndHoles,Good tp.sndUna (diff tp.rcvLastsack tp.sndUna) h
  apart : tp.sndHoles.Pairwise fun x y => diff x.stop tp.sndUna ≤ diff y.start tp.sndUna
  below : tp.sndHoles ≠ [] → diff tp.rcvLastsack tp.sndUna ≤ diff tp.sndMax tp.sndUna

theorem Inv.scoreboard (inv : Inv lim tp) : Scoreboard lim tp :=
  ⟨fun _ mem => (inv.each _ mem).mono (inv.below (ne_nil_of_mem mem)),inv.apart,inv.count.count,inv.count.limit⟩

theorem Inv.loop (inv : Inv lim tp) (m a : Int) (reach : tp.sndHoles ≠ [] → diff tp.rcvLastsack tp.sndUna - half < lo) :
    Loop lim tp.sndUna (diff tp.sndMax tp.sndUna) m a lo tp tp.sndHoles := by
  refine ⟨rfl,rfl,inv.count,fun some_ => ⟨?_,inv.below some_,reach some_,fun h mem => .inl (inv.each h mem),?_⟩⟩
  · obtain ⟨h,mem⟩ := exists_mem_of_ne_nil _ some_
    have good := inv.each h mem
    have := good.low
    have := good.order
    have := good.high
    omega
  · exact inv.apart.imp_of_mem fun _ mem pair => ⟨pair,inv.each _ mem⟩

theorem lastack_diff (tp : Tcpcb) (th : Tcphdr) : diff (lastack tp th) tp.sndUna = max 0 (diff th.thAck tp.sndUna) := by
  unfold lastack
  split
  · next more =>
    have := seqGt_iff.mp more
    omega
  next less =>
  have : ¬diff th.thAck tp.sndUna > 0 := fun more => less (seqGt_iff.mpr more)
  rw [diff_self]
  omega

theorem exists_greatest (u : Seq) (blocks : List Sackblk) : ∃ m,(∀ b ∈ blocks,diff b.left u ≤ m) ∧ (blocks ≠ [] → ∃ c ∈ blocks,diff c.left u = m) := by
  induction blocks with
  | nil => exact ⟨0,by simp,by simp⟩
  | cons b blocks ih =>
    obtain ⟨m,most,reached⟩ := ih
    by_cases more : blocks = [] ∨ m ≤ diff b.left u
    · refine ⟨diff b.left u,fun c mem => ?_,fun _ => ⟨b,by simp,rfl⟩⟩
      rcases mem_cons.mp mem with rfl | mem
      · exact le_refl _
      have := most c mem
      rcases more with rfl | more
      · cases mem
      · omega
    refine ⟨m,fun c mem => ?_,fun _ => ?_⟩
    · rcases mem_cons.mp mem with rfl | mem
      · omega
      · exact most c mem
    obtain ⟨c,mem,same⟩ := reached fun empty => more (.inl empty)
    exact ⟨c,mem_cons_of_mem _ mem,same⟩

theorem accepted_edges {cp : Nat → BitVec 8} {optlen : Nat} (window : 0 ≤ diff tp.sndMax tp.sndUna) (acked : diff th.thAck tp.sndUna = a) (from_ : 0 ≤ a ∧ a ≤ diff tp.sndMax tp.sndUna)
    (mem : b ∈ accepted tp th cp optlen) : a < diff b.right tp.sndUna ∧ diff b.right tp.sndUna ≤ diff tp.sndMax tp.sndUna ∧ diff b.left b.right < 0 := by
  obtain ⟨_,valid⟩ := mem_filter.mp mem
  simp only [oldOrInvalid,Bool.not_or,Bool.and_eq_true,Bool.not_eq_true'] at valid
  obtain ⟨⟨old,beyond⟩,empty⟩ := valid
  have old : ¬diff b.right (lastack tp th) ≤ 0 := fun less => by
    rw [seqLeq_iff.mpr less] at old
    cases old
  have beyond : ¬diff b.right tp.sndMax > 0 := fun more => by
    rw [seqGt_iff.mpr more] at beyond
    cases beyond
  have empty : ¬diff b.left b.right ≥ 0 := fun more => by
    rw [seqGeq_iff.mpr more] at empty
    cases empty
  obtain ⟨j,one⟩ := diff_add b.right (lastack tp th) tp.sndUna
  obtain ⟨k,two⟩ := diff_add b.right tp.sndMax tp.sndUna
  have last := lastack_diff tp th
  obtain ⟨low,high⟩ := diff_bounds b.right tp.sndUna
  obtain ⟨low₁,high₁⟩ := diff_bounds b.right (lastack tp th)
  obtain ⟨low₂,high₂⟩ := diff_bounds b.right tp.sndMax
  obtain ⟨_,max⟩ := diff_bounds tp.sndMax tp.sndUna
  unfold half at *
  omega

variable {cp : Nat → BitVec 8} {optlen : Nat}

theorem looked_edges (inv : Inv lim tp) (near : Near tp (accepted tp th cp optlen)) (looked : ignored lim tp th optlen = false) :
    (0 ≤ diff th.thAck tp.sndUna ∧ diff th.thAck tp.sndUna ≤ diff tp.sndMax tp.sndUna) ∧ LeftNear tp.sndUna (accepted tp th cp optlen) ∧
      ∃ m,∀ b ∈ sortBlocks (accepted tp th cp optlen),Edges tp.sndUna (diff tp.sndMax tp.sndUna) m (diff th.thAck tp.sndUna) b := by
  simp only [ignored,Bool.or_eq_false_iff] at looked
  obtain ⟨_,old,beyond⟩ := looked
  have old : ¬diff th.thAck tp.sndUna < 0 := fun less => by
    rw [seqLt_iff.mpr less] at old
    cases old
  have beyond : ¬diff th.thAck tp.sndMax > 0 := fun more => by
    rw [seqGt_iff.mpr more] at beyond
    cases beyond
  have window := inv.window
  obtain ⟨_,high⟩ := diff_bounds tp.sndMax tp.sndUna
  obtain ⟨_,high'⟩ := diff_bounds th.thAck tp.sndUna
  have compare : diff th.thAck tp.sndMax = diff th.thAck tp.sndUna - diff tp.sndMax tp.sndUna := diff_near (by omega) (by omega)
  have edges := fun b mem => @accepted_edges (diff th.thAck tp.sndUna) tp b th cp optlen window rfl ⟨by omega,by omega⟩ mem
  have lefts : LeftNear tp.sndUna (accepted tp th cp optlen) := by
    intro b mem c mem'
    have := (near b mem).2.2 c mem'
    omega
  obtain ⟨m,most,reached⟩ := exists_greatest tp.sndUna (accepted tp th cp optlen)
  refine ⟨⟨by omega,by omega⟩,lefts,m,fun b mem => ?_⟩
  have mem := (mem_sortBlocks lefts).mp mem
  obtain ⟨r₁,r₂,order⟩ := edges b mem
  obtain ⟨short,_,close⟩ := near b mem
  obtain ⟨c,mem',same⟩ := reached (ne_nil_of_mem mem)
  have := close c mem'
  have := most b mem
  obtain ⟨_,left⟩ := diff_bounds b.left tp.sndUna
  have compare : diff b.left b.right = diff b.left tp.sndUna - diff b.right tp.sndUna := diff_near (by omega) (by omega)
  exact ⟨⟨r₁,r₂⟩,⟨by omega,by omega⟩,⟨by omega,by omega⟩⟩

theorem option_spec {taken : Bool} (inv : Inv lim tp) (met : Meets lim tp (.ack th cp optlen taken)) :
    ∃ tp' m lo,tcpSackOption lim tp th cp optlen = .ok tp' ∧
      Loop lim tp.sndUna (diff tp.sndMax tp.sndUna) m (max 0 (diff th.thAck tp.sndUna)) lo tp' tp'.sndHoles ∧
      Effects tp.sndUna th.thAck (processed lim tp th cp optlen) ⟨tp,[],tp.sndHoles⟩
        (ranOut lim th.thAck (processed lim tp th cp optlen) ⟨tp,[],tp.sndHoles⟩) tp' := by
  unfold tcpSackOption processed
  split
  · exact ⟨tp,0,_,rfl,inv.loop 0 _ fun _ => Int.sub_lt_self _ (by decide),.done⟩
  next looked =>
  have near := met (Bool.eq_false_iff.mpr looked)
  obtain ⟨⟨from_,beyond⟩,lefts,m,fits⟩ := looked_edges inv near (Bool.eq_false_iff.mpr looked)
  have window := inv.window
  obtain ⟨_,high⟩ := diff_bounds tp.sndMax tp.sndUna
  rw [max_eq_right (by omega)]
  obtain ⟨lo,reach,later⟩ : ∃ lo,(tp.sndHoles ≠ [] → diff tp.rcvLastsack tp.sndUna - half < lo) ∧
      ∀ b ∈ sortBlocks (accepted tp th cp optlen),lo ≤ diff b.left tp.sndUna := by
    by_cases empty : tp.sndHoles = []
    · exact ⟨-half,fun some_ => absurd empty some_,fun b _ => (diff_bounds b.left tp.sndUna).1⟩
    refine ⟨diff tp.rcvLastsack tp.sndUna - half + 1,fun _ => by omega,fun b mem => ?_⟩
    have := (near b ((mem_sortBlocks lefts).mp mem)).2.1 empty
    omega
  obtain ⟨tp',lo',ran,loop,effects⟩ := @update_spec lim tp.sndUna _ m _ lo _ ⟨tp,[],tp.sndHoles⟩ th ⟨window,high⟩ ⟨by omega,by omega⟩ rfl fits (sortBlocks_sorted lefts) later
    (inv.loop m _ reach)
  exact ⟨tp',m,lo',ran,loop,effects⟩

theorem ack_inv {taken : Bool} (inv : Inv lim tp) (met : Meets lim tp (.ack th cp optlen taken))
    (option : tcpSackOption lim tp th cp optlen = .ok tp') : Inv lim (newAck (tcpDelSackholes tp' th) th taken) := by
  obtain ⟨made,m,lo,ran,loop,_⟩ := option_spec inv met
  rw [option] at ran
  obtain rfl := Except.ok.inj ran
  obtain ⟨una,max_,count,scored⟩ := loop
  have window := inv.window
  obtain ⟨_,high⟩ := diff_bounds tp.sndMax tp.sndUna
  obtain ⟨_,high'⟩ := diff_bounds th.thAck tp.sndUna
  have acked := lastack_diff tp' th
  rw [una] at acked
  obtain ⟨each,apart⟩ : (∀ h ∈ delHoles (lastack tp' th) tp'.sndHoles,Good tp.sndUna (diff tp'.rcvLastsack tp.sndUna) h ∧
      max 0 (diff th.thAck tp.sndUna) ≤ diff h.start tp.sndUna ∧ diff tp'.rcvLastsack tp.sndUna ≤ diff tp.sndMax tp.sndUna) ∧
      (delHoles (lastack tp' th) tp'.sndHoles).Pairwise fun x y => diff x.stop tp.sndUna ≤ diff y.start tp.sndUna := by
    by_cases empty : tp'.sndHoles = []
    · rw [empty]
      exact ⟨by simp [delHoles],.nil⟩
    obtain ⟨low,below,_,holes⟩ := scored empty
    obtain ⟨each,apart⟩ := delHoles_spec ⟨by omega,by omega⟩ (by omega) acked holes
    exact ⟨fun h mem => ⟨(each h mem).1,(each h mem).2,below⟩,apart⟩
  have del : Inv lim (tcpDelSackholes tp' th) := by
    have number := count.count
    have limit := count.limit
    have fewer := delHoles_length (lastack tp' th) tp'.sndHoles
    refine ⟨?_,⟨?_,?_⟩,fun h mem => ?_,?_,fun some_ => ?_⟩
    · show 0 ≤ diff tp'.sndMax tp'.sndUna
      rw [una,max_]
      exact window
    · simp only [tcpDelSackholes]
      omega
    · simp only [tcpDelSackholes]
      omega
    · show Good tp'.sndUna (diff tp'.rcvLastsack tp'.sndUna) h
      rw [una]
      exact (each h mem).1
    · show (delHoles (lastack tp' th) tp'.sndHoles).Pairwise fun x y => diff x.stop tp'.sndUna ≤ diff y.start tp'.sndUna
      rw [una]
      exact apart
    show diff tp'.rcvLastsack tp'.sndUna ≤ diff tp'.sndMax tp'.sndUna
    obtain ⟨h,mem⟩ := exists_mem_of_ne_nil _ some_
    rw [una,max_]
    exact (each h mem).2.2
  unfold newAck
  split
  · next accepts =>
    -- Everything that is left lies behind the ACK, and is seen from there now.
    simp only [Bool.and_eq_true] at accepts
    obtain ⟨⟨_,more⟩,less⟩ := accepts
    have more : diff th.thAck tp'.sndUna > 0 := seqGt_iff.mp more
    have less : diff th.thAck tp'.sndMax ≤ 0 := seqLeq_iff.mp less
    rw [una] at more
    have inside : diff th.thAck tp'.sndMax = diff th.thAck tp.sndUna - diff tp'.sndMax tp.sndUna := diff_near (by omega) (by omega)
    have seen : ∀ x,diff th.thAck tp.sndUna ≤ diff x tp.sndUna → diff x th.thAck = diff x tp.sndUna - diff th.thAck tp.sndUna := by
      intro x after
      have := (diff_bounds x tp.sndUna).2
      exact diff_near (by omega) (by omega)
    have seen_max := seen tp'.sndMax (by omega)
    have good : ∀ h ∈ (tcpDelSackholes tp' th).sndHoles,Good th.thAck (diff tp'.rcvLastsack th.thAck) h ∧
        diff h.start th.thAck = diff h.start tp.sndUna - diff th.thAck tp.sndUna ∧ diff h.stop th.thAck = diff h.stop tp.sndUna - diff th.thAck tp.sndUna ∧
        diff tp'.rcvLastsack th.thAck = diff tp'.rcvLastsack tp.sndUna - diff th.thAck tp.sndUna := by
      intro h mem
      obtain ⟨⟨low,order,rxmit,sent,high⟩,after,_⟩ := each h mem
      have one := seen h.start (by omega)
      have two := seen h.stop (by omega)
      have three := seen h.rxmit (by omega)
      have four := seen tp'.rcvLastsack (by omega)
      exact ⟨⟨by omega,by omega,by omega,by omega,by omega⟩,one,two,four⟩
    refine ⟨?_,⟨del.count.count,del.count.limit⟩,fun h mem => (good h mem).1,?_,fun some_ => ?_⟩
    · show 0 ≤ diff tp'.sndMax th.thAck
      omega
    · refine apart.imp_of_mem fun mem mem' pair => ?_
      have one := (good _ mem).2.2.1
      have two := (good _ mem').2.1
      show diff _ th.thAck ≤ diff _ th.thAck
      omega
    show diff tp'.rcvLastsack th.thAck ≤ diff tp'.sndMax th.thAck
    obtain ⟨h,mem⟩ := exists_mem_of_ne_nil _ some_
    have := (good h mem).2.2.2
    have := (each h mem).2.2
    omega
  · exact del

theorem pending_some {i j : Nat} {bytes bytes' : Seq} (output : pending u l j bytes = (some i,bytes')) :
    ∃ k h,i = j + k ∧ l[k]? = some h ∧ seqLt h.rxmit h.stop = true := by
  induction l generalizing j bytes with
  | nil => cases output
  | cons cur rest ih =>
    have later : ∀ {bytes},pending u rest (j + 1) bytes = (some i,bytes') → ∃ k h,i = j + k ∧ (cur :: rest)[k]? = some h ∧ seqLt h.rxmit h.stop = true := by
      intro bytes output
      obtain ⟨k,h,same,found,less⟩ := ih output
      exact ⟨k + 1,h,by omega,by simpa using found,less⟩
    rw [pending] at output
    split at output
    · next less =>
      split at output
      · exact later output
      refine ⟨0,cur,?_,rfl,less⟩
      have := Option.some.inj (Prod.mk.inj output).1
      omega
    · exact later output

theorem rexmit_inv {i : Nat} {rxmit bytes bytes' : Seq} (inv : Inv lim tp) (output : tcpSackOutput tp bytes = (some i,bytes'))
    (hole : tp.sndHoles[i]? = some h) (inside : seqLeq h.rxmit rxmit ∧ seqLeq rxmit h.stop) :
    Inv lim {tp with sndHoles := tp.sndHoles.set i {h with rxmit := rxmit}} := by
  have less : diff h.rxmit h.stop < 0 := by
    unfold tcpSackOutput at output
    split at output
    · cases output
    obtain ⟨k,h',same,found,less⟩ := pending_some output
    rw [show i = k by omega,found] at hole
    obtain rfl := Option.some.inj hole
    exact seqLt_iff.mp less
  have mem := mem_of_getElem? hole
  have number := inv.count.count
  have first := seqLeq_iff.mp inside.1
  have second := seqLeq_iff.mp inside.2
  have here : ∀ x ∈ tp.sndHoles.set i {h with rxmit := rxmit},x ∈ tp.sndHoles ∨ x = {h with rxmit := rxmit} := fun x mem => mem_or_eq_of_mem_set mem
  obtain ⟨low,order,rx,sent,high⟩ := inv.each h mem
  have within : diff h.rxmit tp.sndUna ≤ diff rxmit tp.sndUna ∧ diff rxmit tp.sndUna ≤ diff h.stop tp.sndUna := by
    obtain ⟨j,one⟩ := diff_add h.rxmit rxmit tp.sndUna
    obtain ⟨k,two⟩ := diff_add rxmit h.stop tp.sndUna
    obtain ⟨_,high₄⟩ := diff_bounds h.stop tp.sndUna
    have pending : diff h.rxmit h.stop = diff h.rxmit tp.sndUna - diff h.stop tp.sndUna := diff_near (by omega) (by omega)
    obtain ⟨low₁,high₁⟩ := diff_bounds h.rxmit rxmit
    obtain ⟨low₂,high₂⟩ := diff_bounds rxmit h.stop
    obtain ⟨low₃,high₃⟩ := diff_bounds rxmit tp.sndUna
    unfold half at *
    omega
  refine ⟨inv.window,⟨?_,inv.count.limit⟩,fun x mem => ?_,?_,fun _ => inv.below (ne_nil_of_mem mem)⟩
  · rw [length_set]
    exact number
  · rcases here x mem with old | rfl
    · exact inv.each x old
    · exact ⟨low,order,by dsimp only; omega,within.2,high⟩
  have edges : (tp.sndHoles.set i {h with rxmit := rxmit}).map (fun x => (x.start,x.stop)) = tp.sndHoles.map fun x => (x.start,x.stop) := by
    rw [map_set]
    refine ext_getElem? fun j => ?_
    rw [getElem?_set]
    split
    · next same =>
      subst same
      split
      · simp [hole]
      next outside =>
      rw [getElem?_eq_none (by omega)]
    · rfl
  have pairs : (tp.sndHoles.map fun x => (x.start,x.stop)).Pairwise fun x y => diff x.2 tp.sndUna ≤ diff y.1 tp.sndUna :=
    pairwise_map.mpr inv.apart
  rw [← edges] at pairs
  exact pairwise_map.mp pairs

theorem step_inv {act : Act} (inv : Inv lim tp) (met : Meets lim tp act) (step : Step lim tp act tp') : Inv lim tp' := by
  cases step with
  | ack option => exact ack_inv inv met option
  | rexmit output hole inside => exact rexmit_inv inv output hole inside
  | send more =>
    have window := inv.window
    exact ⟨by dsimp only; omega,⟨inv.count.count,inv.count.limit⟩,inv.each,inv.apart,fun some_ => le_trans (inv.below some_) more⟩
  | world => exact ⟨inv.window,⟨inv.count.count,inv.count.limit⟩,inv.each,inv.apart,inv.below⟩

theorem run_inv (run : Run lim (Meets lim) tp) : Inv lim tp := by
  induction run with
  | start window empty zero =>
    refine ⟨window,⟨?_,by omega⟩,?_,?_,?_⟩
    · rw [empty]
      exact zero
    · rw [empty]
      simp
    · rw [empty]
      exact .nil
    · exact fun some_ => absurd empty some_
  | step _ met step ih => exact step_inv ih met step

-- The scoreboard is right as long as the left edges of the blocks that the peer sends
-- compare right, and then tcp_sack_option comes back.
theorem scoreboard_exact (lim : Limits) (tp : Tcpcb) (run : Run lim (Meets lim) tp) : Scoreboard lim tp ∧
    ∀ th cp optlen taken,Meets lim tp (.ack th cp optlen taken) → (tcpSackOption lim tp th cp optlen).isOk = true := by
  have inv := run_inv run
  refine ⟨inv.scoreboard,fun th cp optlen taken met => ?_⟩
  obtain ⟨tp',_,_,ran,_,_⟩ := option_spec inv met
  rw [ran]
  rfl

def idle : Tcpcb := ⟨true,0,1000,0,0,[],0,0,[]⟩
def limits : Limits := ⟨32,1024⟩
def ackSegment : Tcphdr := ⟨0,true⟩
def option (l : List (BitVec 8)) (i : Nat) : BitVec 8 := (l[i]?).getD 0
theorem idle_run (meets : Tcpcb → Act → Prop) : Run limits meets idle := .start (by decide +kernel) rfl rfl
def oneBlock : Nat → BitVec 8 := option [5,10,0,0,0,100,0,0,0,200]
def oneHole : Tcpcb := ⟨true,0,1000,200,200,[⟨0,100,0⟩],1,1,[]⟩
theorem one_block : tcpSackOption limits idle ackSegment oneBlock 10 = .ok oneHole := by decide +kernel

theorem one_block_near : Near idle (accepted idle ackSegment oneBlock 10) := by
  have blocks : accepted idle ackSegment oneBlock 10 = [⟨100,200⟩] := by decide +kernel
  rw [blocks]
  intro b mem
  rcases mem_singleton.mp mem with rfl
  refine ⟨by decide +kernel,fun some_ => absurd rfl some_,fun c mem => ?_⟩
  rcases mem_singleton.mp mem with rfl
  decide +kernel

theorem scoreboard_exact_block : Scoreboard limits (newAck (tcpDelSackholes oneHole ackSegment) ackSegment true) := by
  have met : Meets limits idle (.ack ackSegment oneBlock 10 true) := fun _ => one_block_near
  exact (scoreboard_exact limits _ (.step (idle_run _) met (.ack one_block))).1

-- The left edge of the first block lies 2 ^ 31 - 10 before snd_una, so it compares as if it
-- came after the second block.
def farBlocks : Nat → BitVec 8 := option [5,18,128,0,0,10,0,0,0,10,0,0,0,100,0,0,0,200]
def farHoles : Tcpcb := ⟨true,0,1000,200,200,[⟨0,100,0⟩,⟨200,2147483658,200⟩],2,2,[]⟩
theorem far_blocks : tcpSackOption limits idle ackSegment farBlocks 18 = .ok farHoles := by decide +kernel

theorem scoreboard_beyond : ¬∀ lim tp,Run lim (fun _ _ => True) tp → Scoreboard lim tp := by
  intro claim
  have step : Step limits idle (.ack ackSegment farBlocks 18 false) _ := .ack far_blocks
  have board := claim limits _ (.step (idle_run _) trivial step)
  have kept : newAck (tcpDelSackholes farHoles ackSegment) ackSegment false = farHoles := by decide +kernel
  rw [kept] at board
  have order := (board.each ⟨200,2147483658,200⟩ (by decide)).order
  revert order
  decide +kernel
end NetbsdAvr32.TcpSack
