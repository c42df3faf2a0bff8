import NetbsdAvr32.TcpSackExact

-- Which hole is retransmitted next, and where new data continues.
namespace NetbsdAvr32.TcpSack
open Serial List

-- The loop of tcp_sack_adjust: `cur`, and the holes behind it.
def adjust (rcvLastsack sndNxt : Seq) (cur : Sackhole) : List Sackhole → Seq
  | [] => if seqLt sndNxt cur.stop then sndNxt else rcvLastsack
  | n :: rest =>
    if seqLt sndNxt cur.stop then sndNxt
    else if seqGeq sndNxt n.start then adjust rcvLastsack sndNxt n rest
    else n.start

-- Gives snd_nxt.
def tcpSackAdjust (tp : Tcpcb) (sndNxt : Seq) : Seq :=
  match tp.sndHoles with
  | [] => sndNxt
  | cur :: rest => if seqGeq sndNxt tp.rcvLastsack then sndNxt else adjust tp.rcvLastsack sndNxt cur rest

-- Before a hole with a byte retransmitted, all of each hole is.
def InOrder (l : List Sackhole) : Prop := l.Pairwise fun x y => y.rxmit = y.start ∨ x.rxmit = x.stop
def retransmitted (l : List Sackhole) : Int := (l.map fun h => diff h.rxmit h.start).sum

-- A number in a hole, or behind everything that the peer has.
def Wanted (tp : Tcpcb) (x : Seq) : Prop := (∃ h ∈ tp.sndHoles,seqGeq x h.start ∧ seqLt x h.stop) ∨ seqGeq x tp.rcvLastsack

-- The least such number from nxt on, as seen from the first hole.
structure Least (tp : Tcpcb) (from_ nxt nxt' : Seq) : Prop where
  forwards : diff nxt from_ ≤ diff nxt' from_
  wanted : Wanted tp nxt'
  least : ∀ x,diff nxt from_ ≤ diff x from_ → diff x from_ < diff nxt' from_ → ¬Wanted tp x

variable {lim : Limits} {u : Seq} {w m a lo top : Int} {h cur first : Sackhole} {l before after left right rest : List Sackhole}
variable {tp tp' : Tcpcb} {b : Sackblk} {p : Pass} {th : Tcphdr} {next : Next}

theorem Piece.untouched (piece : Piece u cur h) (good : Good u top cur) (none : cur.rxmit = cur.start) : h.rxmit = h.start := by
  have low := piece.low
  have rxmit := piece.rxmit
  rw [none] at rxmit
  exact diff_inj (u := u) (by omega)

theorem Piece.finished (piece : Piece u cur h) (good : Good u top cur) (all : cur.rxmit = cur.stop) : h.rxmit = h.stop := by
  have high := piece.high
  have order := piece.order
  have rxmit := piece.rxmit
  rw [all] at rxmit
  exact diff_inj (u := u) (by omega)

theorem InOrder.pieces {new : List Sackhole} (ordered : InOrder (before ++ cur :: rest)) (good : Good u top cur) (each : ∀ h ∈ new,Piece u cur h)
    (apart : new.Pairwise fun x y => diff x.stop u ≤ diff y.start u) : InOrder (before ++ (new ++ rest)) := by
  obtain ⟨left,right,across⟩ := pairwise_append.mp ordered
  obtain ⟨behind,right⟩ := pairwise_cons.mp right
  refine pairwise_append.mpr ⟨left,pairwise_append.mpr ⟨?_,right,fun x mem y mem' => ?_⟩,fun x mem y mem' => ?_⟩
  · refine apart.imp_of_mem fun {x y} mem mem' pair => ?_
    have one := each x mem
    have two := each y mem'
    by_cases less : diff cur.rxmit u ≤ diff y.start u
    · left
      have rxmit := two.rxmit
      exact diff_inj (u := u) (by omega)
    right
    have order := one.order
    have rxmit := one.rxmit
    exact diff_inj (u := u) (by omega)
  · exact (behind y mem').imp id fun all => (each x mem).finished good all
  rcases mem_append.mp mem' with here | there
  · exact (across x mem cur mem_cons_self).imp (fun none => (each y here).untouched good none) id
  · exact across x mem y (mem_cons_of_mem _ there)

theorem InOrder.snoc (ordered : InOrder l) (none : h.rxmit = h.start) : InOrder (l ++ [h]) := by
  refine pairwise_append.mpr ⟨ordered,pairwise_singleton _ _,fun x _ y mem => ?_⟩
  rcases mem_singleton.mp mem with rfl
  exact .inl none

theorem Walked.ordered {q r : List Sackhole} (walked : Walked u top b before after q r) (ordered : InOrder (before ++ after)) : InOrder (q ++ r) := by
  cases walked with
  | between skipped split =>
    rw [append_assoc,← split]
    exact ordered
  | cut skipped split _ cut =>
    rw [split,← append_assoc] at ordered
    simpa using ordered.pieces cut.good cut.each cut.apart

def Next.holes : Next → List Sackhole
  | .go p => p.before ++ p.after
  | .ret tp => tp.sndHoles

theorem Appended.ordered (appended : Appended u b p next) (ordered : InOrder (p.before ++ p.after)) : InOrder next.holes := by
  cases appended with
  | none => exact ordered
  | gap => exact ordered.snoc rfl
  | short same => rwa [Next.holes,same]

theorem Effect.ordered {thAck : Seq} (effect : Effect u thAck b p next) (ordered : InOrder (p.before ++ p.after)) : InOrder next.holes := by
  cases effect with
  | first => exact pairwise_singleton _ _
  | walked _ walked _ appended => exact appended.ordered (walked.ordered ordered)
  | short same => rwa [Next.holes,same]

theorem Effects.ordered {thAck : Seq} {blocks : List Sackblk} {short : Bool} (effects : Effects u thAck blocks p short tp) (ordered : InOrder (p.before ++ p.after)) :
    InOrder tp.sndHoles := by
  induction effects with
  | done => exact ordered
  | ret effect => exact effect.ordered ordered
  | go effect _ ih => exact ih (effect.ordered ordered)

theorem delHoles_ordered (stop : Seq) (ordered : InOrder l) : InOrder (delHoles stop l) := by
  induction l with
  | nil => exact .nil
  | cons cur rest ih =>
    obtain ⟨behind,later⟩ := pairwise_cons.mp ordered
    rw [delHoles]
    split
    · exact ih later
    next more =>
    split
    · refine pairwise_cons.mpr ⟨fun y mem => (behind y mem).imp id fun all => ?_,later⟩
      have short : ¬seqLt cur.stop stop = true := fun less => more (seqLeq_iff.mpr (Int.le_of_lt (seqLt_iff.mp less)))
      rw [all,if_neg short]
    · exact ordered

theorem pending_before {i j : Nat} {bytes bytes' : Seq} (each : ∀ h ∈ l,Good u top h) (output : pending u l j bytes = (some i,bytes')) :
    ∃ before h after,l = before ++ h :: after ∧ i = j + before.length ∧ seqLt h.rxmit h.stop = true ∧ ∀ x ∈ before,x.rxmit = x.stop := by
  induction l generalizing j bytes with
  | nil => cases output
  | cons cur rest ih =>
    have good := each cur mem_cons_self
    rw [pending] at output
    split at output
    · next less =>
      have low := good.low
      have rxmit := good.rxmit
      have ahead : ¬seqLt cur.rxmit u = true := fun old => by
        have := seqLt_iff.mp old
        omega
      rw [if_neg ahead] at output
      have same := Option.some.inj (Prod.mk.inj output).1
      exact ⟨[],cur,rest,rfl,by simp [same],less,by simp⟩
    next done =>
    obtain ⟨before,h,after,split,place,less,all⟩ := ih (fun h mem => each h (mem_cons_of_mem _ mem)) output
    refine ⟨cur :: before,h,after,by rw [split]; rfl,by simp only [length_cons]; omega,less,fun x mem => ?_⟩
    rcases mem_cons.mp mem with rfl | mem
    · have low := good.low
      have sent := good.sent
      have rxmit := good.rxmit
      have near := ahead_lt (a := x.rxmit) (b := x.stop) (u := u) (by omega) (by omega)
      have : ¬diff x.rxmit u < diff x.stop u := fun less => done (near.mpr less)
      exact diff_inj (u := u) (by omega)
    · exact all x mem

theorem step_ordered {act : Act} (inv : Inv lim tp) (ordered : InOrder tp.sndHoles) (met : Meets lim tp act) (step : Step lim tp act tp') :
    InOrder tp'.sndHoles := by
  cases step with
  | @ack th cp optlen taken made option =>
    obtain ⟨made',_,_,ran,_,effects⟩ := option_spec inv met
    rw [option] at ran
    obtain rfl := Except.ok.inj ran
    have cut := delHoles_ordered (lastack made th) (effects.ordered ordered)
    unfold newAck
    split
    · exact cut
    · exact cut
  | @rexmit rxmit bytes bytes' i h output hole inside =>
    unfold tcpSackOutput at output
    split at output
    · cases output
    obtain ⟨before,h',after,split,place,less,done⟩ := pending_before inv.each output
    rw [split] at hole ordered ⊢
    have here : i = before.length := by omega
    rw [here,getElem?_append_right (Nat.le_refl _),Nat.sub_self,getElem?_cons_zero] at hole
    rw [here,set_append_right _ _ (Nat.le_refl _),Nat.sub_self,set_cons_zero]
    obtain ⟨left,right,across⟩ := pairwise_append.mp ordered
    obtain ⟨behind,right⟩ := pairwise_cons.mp right
    have unsent : h'.rxmit ≠ h'.stop := fun same => by
      rw [same] at less
      have := seqLt_iff.mp less
      simp at this
    refine pairwise_append.mpr ⟨left,pairwise_cons.mpr ⟨fun y mem => .inl ((behind y mem).resolve_right unsent),right⟩,fun x mem y mem' => ?_⟩
    rcases mem_cons.mp mem' with rfl | mem'
    · exact .inr (done x mem)
    · exact across x mem y (mem_cons_of_mem _ mem')
  | send => exact ordered
  | world => exact ordered

theorem retransmitted_cons (cur : Sackhole) (l : List Sackhole) : retransmitted (cur :: l) = diff cur.rxmit cur.start + retransmitted l := by
  simp [retransmitted]

theorem retransmitted_none (none : ∀ h ∈ l,h.rxmit = h.start) : retransmitted l = 0 := by
  induction l with
  | nil => rfl
  | cons cur l ih =>
    rw [retransmitted_cons,none cur mem_cons_self,diff_self,ih fun h mem => none h (mem_cons_of_mem _ mem)]
    rfl

theorem retransmitted_bounds (each : ∀ h ∈ l,Good u top h) (apart : l.Pairwise fun x y => diff x.stop u ≤ diff y.start u) (from_ : ∀ h ∈ l,lo ≤ diff h.start u)
    (order : lo ≤ top) : 0 ≤ retransmitted l ∧ lo + retransmitted l ≤ top := by
  induction l generalizing lo with
  | nil => exact ⟨Int.le_refl _,by simpa [retransmitted] using order⟩
  | cons cur l ih =>
    obtain ⟨low,order',rxmit,sent,high⟩ := each cur mem_cons_self
    obtain ⟨behind,apart⟩ := pairwise_cons.mp apart
    obtain ⟨positive,rest⟩ := ih (fun h mem => each h (mem_cons_of_mem _ mem)) apart behind high
    have begin_ := from_ cur mem_cons_self
    have some_ : diff cur.rxmit cur.start = diff cur.rxmit u - diff cur.start u := ahead_diff (by omega) low
    rw [retransmitted_cons]
    omega

theorem ofInt_diff (a b : Seq) : BitVec.ofInt 32 (diff a b) = a - b := by
  unfold diff
  exact BitVec.ofInt_toInt

theorem pending_spec (each : ∀ h ∈ l,Good u top h) (ordered : InOrder l) (j : Nat) (bytes : Seq) :
    pending u l j bytes = ((l.findIdx? fun h => seqLt h.rxmit h.stop && seqGeq h.rxmit u).map (j + ·),bytes + BitVec.ofInt 32 (retransmitted l)) := by
  induction l generalizing j bytes with
  | nil => simp [pending,retransmitted]
  | cons cur rest ih =>
    obtain ⟨low,order,rxmit,sent,high⟩ := each cur mem_cons_self
    obtain ⟨behind,later⟩ := pairwise_cons.mp ordered
    have ahead : ¬seqLt cur.rxmit u = true := fun old => by
      have := seqLt_iff.mp old
      omega
    have geq : seqGeq cur.rxmit u = true := seqGeq_iff.mpr (by omega)
    rw [pending,findIdx?_cons,retransmitted_cons,geq,Bool.and_true]
    by_cases less : seqLt cur.rxmit cur.stop = true
    · -- Nothing of the holes behind it has been retransmitted.
      have unsent : cur.rxmit ≠ cur.stop := fun same => by
        rw [same] at less
        have := seqLt_iff.mp less
        simp at this
      rw [if_pos less,if_neg ahead,if_pos less,retransmitted_none fun y mem => (behind y mem).resolve_right unsent,Int.add_zero,ofInt_diff]
      rfl
    rw [if_neg less,if_neg less,ih (fun h mem => each h (mem_cons_of_mem _ mem)) later,BitVec.ofInt_add,ofInt_diff,BitVec.add_assoc,Option.map_map]
    congr 2
    funext i
    simp only [Function.comp_apply]
    omega

theorem adjust_least {f last nxt : Seq} (each : ∀ h ∈ cur :: rest,diff h.start f < diff h.stop f ∧ diff h.stop f ≤ diff last f ∧ 0 ≤ diff h.start f)
    (apart : (cur :: rest).Pairwise fun x y => diff x.stop f ≤ diff y.start f) (here : diff cur.start f ≤ diff nxt f) (short : diff nxt f < diff last f) :
    diff nxt f ≤ diff (adjust last nxt cur rest) f ∧
      ((∃ h ∈ cur :: rest,h.Has f (diff (adjust last nxt cur rest) f)) ∨ adjust last nxt cur rest = last) ∧
      ∀ x,diff nxt f ≤ x → x < diff (adjust last nxt cur rest) f → x < diff last f ∧ ∀ h ∈ cur :: rest,¬h.Has f x := by
  induction rest generalizing cur with
  | nil =>
    obtain ⟨order,high,low⟩ := each cur mem_cons_self
    have compare : seqLt nxt cur.stop = true ↔ diff nxt f < diff cur.stop f := ahead_lt (by omega) (by omega)
    rw [adjust]
    split
    · next less =>
      exact ⟨Int.le_refl _,.inl ⟨cur,mem_cons_self,here,compare.mp less⟩,fun x after before => by omega⟩
    next more =>
    have more : ¬diff nxt f < diff cur.stop f := fun less => more (compare.mpr less)
    refine ⟨by omega,.inr rfl,fun x after before => ⟨before,fun h mem has => ?_⟩⟩
    rcases mem_singleton.mp mem with rfl
    have := has.2
    omega
  | cons n rest ih =>
    obtain ⟨order,high,low⟩ := each cur mem_cons_self
    obtain ⟨behind,apart⟩ := pairwise_cons.mp apart
    obtain ⟨order',high',low'⟩ := each n (by simp)
    have compare : seqLt nxt cur.stop = true ↔ diff nxt f < diff cur.stop f := ahead_lt (by omega) (by omega)
    have compare' : seqGeq nxt n.start = true ↔ diff nxt f ≥ diff n.start f := ahead_geq (by omega) low'
    rw [adjust]
    split
    · next less =>
      exact ⟨Int.le_refl _,.inl ⟨cur,mem_cons_self,here,compare.mp less⟩,fun x after before => by omega⟩
    next more =>
    have more : ¬diff nxt f < diff cur.stop f := fun less => more (compare.mpr less)
    have passed : ∀ x,diff nxt f ≤ x → ¬cur.Has f x := fun x after has => by
      have := has.2
      omega
    split
    · next reached =>
      obtain ⟨forwards,found,none⟩ := ih (fun h mem => each h (mem_cons_of_mem _ mem)) apart (compare'.mp reached)
      refine ⟨forwards,found.imp (fun ⟨h,mem,has⟩ => ⟨h,mem_cons_of_mem _ mem,has⟩) id,fun x after before => ⟨(none x after before).1,fun h mem => ?_⟩⟩
      rcases mem_cons.mp mem with rfl | mem
      · exact passed x after
      · exact (none x after before).2 h mem
    next less =>
    have less : ¬diff nxt f ≥ diff n.start f := fun reached => less (compare'.mpr reached)
    refine ⟨by omega,.inl ⟨n,by simp,Int.le_refl _,order'⟩,fun x after before => ⟨by omega,fun h mem => ?_⟩⟩
    rcases mem_cons.mp mem with rfl | mem
    · exact passed x after
    rintro ⟨begins,_⟩
    rcases mem_cons.mp mem with rfl | mem
    · omega
    have pair := (pairwise_cons.mp apart).1 h mem
    omega

theorem tcpSackAdjust_least {nxt : Seq} (inv : Inv lim tp) (some : tp.sndHoles = first :: rest) (after : seqGeq nxt first.start = true) :
    Least tp first.start nxt (tcpSackAdjust tp nxt) := by
  have after := seqGeq_iff.mp after
  have good : ∀ h ∈ first :: rest,Good tp.sndUna (diff tp.rcvLastsack tp.sndUna) h := by
    intro h mem
    exact inv.each h (some ▸ mem)
  obtain ⟨low,order,_,_,high⟩ := good first mem_cons_self
  have seen : ∀ x,0 ≤ diff x tp.sndUna → diff x first.start = diff x tp.sndUna - diff first.start tp.sndUna := fun x ahead => ahead_diff ahead low
  have apart := inv.apart
  rw [some] at apart
  have last := seen tp.rcvLastsack (by omega)
  have each : ∀ h ∈ first :: rest,diff h.start first.start < diff h.stop first.start ∧ diff h.stop first.start ≤ diff tp.rcvLastsack first.start ∧
      0 ≤ diff h.start first.start := by
    intro h mem
    obtain ⟨low',order',_,_,high'⟩ := good h mem
    have one := seen h.start low'
    have two := seen h.stop (by omega)
    have above : diff first.start tp.sndUna ≤ diff h.start tp.sndUna := by
      rcases mem_cons.mp mem with rfl | mem
      · exact Int.le_refl _
      have := (pairwise_cons.mp apart).1 h mem
      omega
    omega
  have apart : (first :: rest).Pairwise fun x y => diff x.stop first.start ≤ diff y.start first.start := by
    refine apart.imp_of_mem fun {x y} mem mem' pair => ?_
    obtain ⟨low₁,order₁,_,_,_⟩ := good x mem
    obtain ⟨low₂,_,_,_,_⟩ := good y mem'
    rw [seen x.stop (by omega),seen y.start low₂]
    omega
  -- What the comparisons of the code say of a number behind the first hole's start.
  have wanted : ∀ x,0 ≤ diff x first.start → (Wanted tp x ↔ (∃ h ∈ first :: rest,h.Has first.start (diff x first.start)) ∨
      diff tp.rcvLastsack first.start ≤ diff x first.start) := by
    intro x ahead
    unfold Wanted Sackhole.Has
    rw [some,ahead_geq ahead (by omega)]
    refine or_congr (exists_congr fun h => and_congr_right fun mem => ?_) Iff.rfl
    obtain ⟨one,two,three⟩ := each h mem
    rw [ahead_geq ahead three,ahead_lt ahead (by omega)]
  have beyond : seqGeq nxt tp.rcvLastsack = true ↔ diff nxt first.start ≥ diff tp.rcvLastsack first.start := ahead_geq after (by omega)
  unfold tcpSackAdjust
  rw [some]
  dsimp only
  split
  · next reached =>
    exact ⟨Int.le_refl _,(wanted nxt after).mpr (.inr (beyond.mp reached)),fun x after before => by omega⟩
  next short =>
  have short : ¬diff nxt first.start ≥ diff tp.rcvLastsack first.start := fun reached => short (beyond.mpr reached)
  have here : diff first.start first.start ≤ diff nxt first.start := by
    rw [diff_self]
    exact after
  obtain ⟨forwards,found,none⟩ := adjust_least each apart here (by omega)
  refine ⟨forwards,(wanted _ (by omega)).mpr (found.imp id fun same => by rw [same]),fun x later before is => ?_⟩
  obtain ⟨less,outside⟩ := none (diff x first.start) later before
  rcases (wanted x (by omega)).mp is with ⟨h,mem,has⟩ | more
  · exact outside h mem has
  · omega

-- The first hole with something pending is chosen and all that was retransmitted is counted; snd_nxt
-- goes on to the next number that the peer has not. Every step keeps holes in order.
theorem retransmission_choice (lim : Limits) (tp : Tcpcb) (valid : Inv lim tp) (ordered : InOrder tp.sndHoles) (enabled : tp.sackEnabled = true) :
    (∀ bytes,∃ total,tcpSackOutput tp bytes = (tp.sndHoles.findIdx? fun h => seqLt h.rxmit h.stop && seqGeq h.rxmit tp.sndUna,total) ∧
      total.toInt = retransmitted tp.sndHoles) ∧
    (∀ first rest nxt,tp.sndHoles = first :: rest → seqGeq nxt first.start = true → Least tp first.start nxt (tcpSackAdjust tp nxt)) ∧
    ∀ act tp',Meets lim tp act → Step lim tp act tp' → Inv lim tp' ∧ InOrder tp'.sndHoles := by
  refine ⟨fun bytes => ⟨BitVec.ofInt 32 (retransmitted tp.sndHoles),?_,?_⟩,fun first rest nxt some after => tcpSackAdjust_least valid some after,
    fun act tp' met step => ⟨step_inv valid met step,step_ordered valid ordered met step⟩⟩
  · unfold tcpSackOutput
    rw [enabled,Bool.not_true,if_neg Bool.false_ne_true,pending_spec valid.each ordered]
    simp
  obtain ⟨_,wide⟩ := diff_bounds tp.rcvLastsack tp.sndUna
  have small : 0 ≤ retransmitted tp.sndHoles ∧ retransmitted tp.sndHoles < half := by
    by_cases empty : tp.sndHoles = []
    · rw [empty]
      decide
    obtain ⟨h,mem⟩ := exists_mem_of_ne_nil _ empty
    obtain ⟨low,order,_,_,high⟩ := valid.each h mem
    have bounds := retransmitted_bounds valid.each valid.apart (fun h mem => (valid.each h mem).low) (by omega)
    omega
  unfold half at small
  rw [BitVec.toInt_ofInt]
  exact Int.bmod_eq_of_le (by omega) (by omega)

def threeHoles : Tcpcb := ⟨true,0,1000,400,400,[⟨0,100,100⟩,⟨150,200,170⟩,⟨250,300,250⟩],3,3,[]⟩

theorem retransmission_choice_three : tcpSackOutput threeHoles 0 = (some 1,120) ∧ tcpSackAdjust threeHoles 210 = 250 ∧
    Least threeHoles 0 210 (tcpSackAdjust threeHoles 210) := by
  have valid : Inv limits threeHoles := by
    refine ⟨by decide +kernel,⟨rfl,by decide⟩,fun h mem => ?_,by decide +kernel,fun _ => by decide +kernel⟩
    simp only [threeHoles,mem_cons,not_mem_nil,or_false] at mem
    rcases mem with rfl | rfl | rfl
    · exact ⟨by decide +kernel,by decide +kernel,by decide +kernel,by decide +kernel,by decide +kernel⟩
    · exact ⟨by decide +kernel,by decide +kernel,by decide +kernel,by decide +kernel,by decide +kernel⟩
    · exact ⟨by decide +kernel,by decide +kernel,by decide +kernel,by decide +kernel,by decide +kernel⟩
  have ordered : InOrder threeHoles.sndHoles := by
    unfold InOrder
    decide +kernel
  obtain ⟨_,adjusted,_⟩ := retransmission_choice limits threeHoles valid ordered rfl
  exact ⟨by decide +kernel,by decide +kernel,adjusted _ _ 210 rfl (by decide +kernel)⟩
end NetbsdAvr32.TcpSack
