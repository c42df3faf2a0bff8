import NetbsdAvr32.TcpAck

-- The data of a segment on its way to the queue, and the FIN behind the last byte of the stream.
namespace NetbsdAvr32.TcpInput
open Serial TcpSack TcpReass Cuts List Nat

def synLen (f : Flags) : Nat := if f.syn then 1 else 0
def place (c : Conn) (th : Segment) : Int := diff th.thSeq c.rcvNxt + synLen th.flags

-- The segment is within 2 ^ 31 of rcv_nxt, which is at the place n of the stream. From there on it
-- has the bytes of the stream, and the FIN is at the place `last` behind all of them.
structure Carried (stream : Nat → UInt8) (last n : Nat) (c : Conn) (th : Segment) : Prop where
  behind : -half < diff th.thSeq c.rcvNxt
  ahead : place c th + th.data.length < half
  bytes : ∀ (i : Nat) (lt : i < th.data.length),0 ≤ place c th + i → th.data[i] = stream (n + (place c th + i).toNat)
  inside : n + place c th + th.data.length ≤ last
  fin : th.flags.fin → n + place c th + th.data.length = last

def excess (env : Env) (c : Conn) (th : Segment) : Int :=
  diff (th.thSeq + BitVec.ofNat 32 (synLen th.flags + th.data.length)) (c.rcvNxt + (window env c).rcvWnd)
def fresh (c : Conn) (th : Segment) : Int := th.data.length - max 0 (-place c th)

-- No FIN comes with text that is cut in part, no urgent byte is taken out of the text, and the user receives.
structure Uncut (env : Env) (c : Conn) (th : Segment) : Prop where
  fin : th.flags.fin → ¬(0 < excess env c th ∧ excess env c th < fresh c th)
  urgent : th.flags.urg → th.urp ≠ 0 → env.oobInline = false → synLen th.flags + th.data.length < th.urp.toNat
  receives : c.reass.cantRcvMore = false

-- What is known of the FIN bit of a piece and its end.
def goodFin (last n : Nat) (fin : Bool) (stop : Int) : Prop := n + stop ≤ last ∧ (fin = true → n + stop = last)

variable {stream : Nat → UInt8} {last n m : Nat} {k : Config} {env : Env} {out : Conn → Conn} {c c' : Conn} {th : Segment} {w : Work}

theorem goodFin_joins (last n : Nat) : Joins (goodFin last n) := by
  intro f g s t le one two
  obtain ⟨_,exact_⟩ := one
  obtain ⟨below,exact'⟩ := two
  refine ⟨below,fun either => ?_⟩
  rcases Bool.or_eq_true_iff.mp either with here | there
  · have := exact_ here
    omega
  · exact exact' there

theorem goodFin_shift (last n m : Nat) : (fun f e => goodFin last n f (m + e)) = goodFin last (n + m) := by
  funext f e
  unfold goodFin
  rw [Int.natCast_add,Int.add_assoc]

theorem Carried.drop (carried : Carried stream last n c th) {d : Nat} (low : 0 ≤ place c th + d) :
    th.data.drop d = cut (seen stream n) (place c th + d) (th.data.length - d) := by
  refine ext_getElem (by simp) fun i lt _ => ?_
  rw [length_drop] at lt
  rw [getElem_drop,carried.bytes (d + i) (by omega) (by omega),cut_getElem]
  exact congrArg stream (by omega)

structure Head (stream : Nat → UInt8) (last n : Nat) (env : Env) (c : Conn) (th : Segment) (w : Work) : Prop where
  wnd : w.c.rcvWnd = (window env c).rcvWnd
  urgent : w.ti.urg → w.th.urp ≠ 0 → env.oobInline = false → synLen w.ti + w.tlen < w.th.urp.toNat
  length : w.data.length = w.tlen
  piece : w.ti.syn = false → (w.tlen ≠ 0 ∨ w.ti.fin) → Carries (seen stream n) (goodFin last n) c.rcvNxt ⟨w.th.thSeq,BitVec.ofNat 32 w.tlen,th.flags.fin,w.data⟩ ∧
    w.th.thSeq + BitVec.ofNat 32 w.tlen = th.thSeq + BitVec.ofNat 32 (synLen th.flags + th.data.length) ∧ (w.tlen : Int) = fresh c th

theorem dropHead_fields (w : Work) (todrop : Nat) : (dropHead w todrop).c = w.c ∧ (dropHead w todrop).th.thSeq = w.th.thSeq + BitVec.ofNat 32 todrop ∧
    (dropHead w todrop).tlen = w.tlen - todrop ∧ (dropHead w todrop).data = w.data.drop todrop ∧ (dropHead w todrop).ti.fin = w.ti.fin ∧
      (dropHead w todrop).ti.syn = w.ti.syn := by
  unfold dropHead
  dsimp only
  split
  · exact ⟨rfl,rfl,rfl,rfl,rfl,rfl⟩
  · exact ⟨rfl,rfl,rfl,rfl,rfl,rfl⟩

theorem dropHead_urgent {todrop : Nat} (within : todrop ≤ w.tlen) (urgent : w.ti.urg → w.th.urp ≠ 0 → env.oobInline = false → synLen w.ti + w.tlen < w.th.urp.toNat) :
    (dropHead w todrop).ti.urg → (dropHead w todrop).th.urp ≠ 0 → env.oobInline = false →
      synLen (dropHead w todrop).ti + (dropHead w todrop).tlen < (dropHead w todrop).th.urp.toNat := by
  unfold dropHead
  dsimp only
  split
  · next more =>
    intro urg _ out_
    have some_ : w.th.urp ≠ 0 := by
      intro zero
      rw [zero] at more
      exact absurd more (not_lt_zero _)
    have room := urgent urg some_ out_
    have moved : (w.th.urp - BitVec.ofNat 16 todrop).toNat = w.th.urp.toNat - todrop := by
      rw [BitVec.toNat_sub_of_le]
      · rw [BitVec.toNat_ofNat,mod_eq_of_lt (by omega)]
      rw [BitVec.le_def,BitVec.toNat_ofNat,mod_eq_of_lt (by omega)]
      omega
    dsimp only
    omega
  intro urg
  cases urg

-- The way of the text as far as the trimming of its head: the SYN, if there was one, is off.
structure Text (env : Env) (c : Conn) (th : Segment) (w : Work) : Prop where
  wnd : w.c.rcvWnd = (window env c).rcvWnd
  thSeq : w.th.thSeq = th.thSeq + BitVec.ofNat 32 (synLen th.flags)
  urgent : w.ti.urg → w.th.urp ≠ 0 → env.oobInline = false → w.tlen < w.th.urp.toNat
  tlen : w.tlen = th.data.length
  data : w.data = th.data
  fin : w.ti.fin = th.flags.fin
  syn : w.ti.syn = false

theorem text_diff (carried : Carried stream last n c th) (old : place c th ≤ 0) : diff (th.thSeq + BitVec.ofNat 32 (synLen th.flags)) c.rcvNxt = place c th := by
  have behind := carried.behind
  unfold place at *
  exact diff_forward (by omega) (by unfold half; omega)

theorem trimDup_head (carried : Carried stream last n c th) (old : place c th ≤ 0) (text : Text env c th w) :
    Exits (fun _ => True) (Head stream last n env c th) (trimDup env w (-place c th)) := by
  obtain ⟨wnd,thSeq,urgent,tlen,data,fin,syn⟩ := text
  have none : synLen w.ti = 0 := by
    unfold synLen
    rw [syn]
    rfl
  unfold trimDup
  split
  · split
    · trivial
    obtain ⟨conn,seq,tlen',data',fin',syn'⟩ := dropHead_fields {w with c := {w.c with ackNow := true},ti := {w.ti with fin := false,rst := false},dupseg := true} w.tlen
    refine ⟨?_,dropHead_urgent (le_refl _) ?_,?_,?_⟩
    · rw [conn]
      exact wnd
    · intro urg some_ out_
      have room := urgent urg some_ out_
      have none' : synLen ({w.ti with fin := false,rst := false} : Flags) = 0 := none
      dsimp only
      rw [none']
      omega
    · rw [data',tlen']
      refine length_drop.trans ?_
      rw [data,tlen]
    intro _ some_
    rw [tlen',fin'] at some_
    simp at some_
  next notOld =>
  split
  · trivial
  obtain ⟨d,number⟩ : ∃ d : Nat,-place c th = d := ⟨(-place c th).toNat,by omega⟩
  rw [number] at notOld ⊢
  have within : d ≤ w.tlen := by
    simp only [Bool.or_eq_true,decide_eq_true_eq,not_or] at notOld
    omega
  have ahead := carried.ahead
  have toNat : (d : Int).toNat = d := rfl
  rw [toNat]
  obtain ⟨conn,seq,tlen',data',fin',syn'⟩ := dropHead_fields w d
  refine ⟨?_,dropHead_urgent within ?_,?_,?_⟩
  · rw [conn]
    exact wnd
  · rw [none,zero_add]
    exact urgent
  · rw [data',tlen',data,tlen]
    exact length_drop
  intro _ _
  have begin_ : diff (dropHead w d).th.thSeq c.rcvNxt = 0 := by
    rw [seq,thSeq,diff_forward (by rw [text_diff carried old]; unfold half; omega) (by rw [text_diff carried old]; unfold half; omega),text_diff carried old]
    omega
  have bytes : (dropHead w d).data = cut (seen stream n) 0 (th.data.length - d) := by
    rw [data',data,carried.drop (by omega)]
    congr 1
    omega
  have length : (dropHead w d).data.length = th.data.length - d := by
    rw [bytes]
    exact cut_length
  have inside := carried.inside
  have fin_ := carried.fin
  rw [tlen',tlen]
  refine ⟨⟨?_,?_,?_,?_,?_⟩,?_,?_⟩
  · exact Int.le_of_eq begin_.symm
  · unfold ends
    rw [begin_,length]
    omega
  · rw [length]
  · dsimp only [begins]
    rw [begin_,length]
    exact bytes
  · unfold ends
    rw [begin_,length]
    exact ⟨by omega,fun set_ => by have := fin_ set_; omega⟩
  · rw [seq,thSeq,BitVec.add_assoc,BitVec.add_assoc,← BitVec.ofNat_add,← BitVec.ofNat_add]
    congr 2
    omega
  unfold fresh
  omega

structure Untouched (env : Env) (c : Conn) (th : Segment) (w : Work) : Prop where
  conn : w.c.rcvNxt = c.rcvNxt
  wnd : w.c.rcvWnd = (window env c).rcvWnd
  same : w.th = th
  ti : w.ti = th.flags
  tlen : w.tlen = th.data.length
  data : w.data = th.data

theorem paws_untouched (k : Config) (env : Env) (c : Conn) (th : Segment) :
    Exits (fun _ => True) (Untouched env c th) (paws k env ⟨window env c,th,th.flags,th.data.length,th.data,false,false⟩) := by
  unfold paws
  split
  · exact ⟨rfl,rfl,rfl,rfl,rfl,rfl⟩
  split
  · split
    · exact ⟨rfl,rfl,rfl,rfl,rfl,rfl⟩
    · trivial
  · exact ⟨rfl,rfl,rfl,rfl,rfl,rfl⟩

theorem dropSyn_text (uncut : Uncut env c th) (untouched : Untouched env c th w) (syn : w.ti.syn) : Text env c th (dropSyn w) := by
  obtain ⟨conn,wnd,same,ti,tlen,data⟩ := untouched
  have one : synLen th.flags = 1 := by
    unfold synLen
    rw [← ti,syn]
    rfl
  have urgent := uncut.urgent
  unfold dropSyn
  rw [same,ti]
  split
  · next more =>
    refine ⟨wnd,?_,?_,tlen,data,rfl,rfl⟩
    · rw [one]
      rfl
    intro urg _ out_
    have some_ : th.urp ≠ 0 := by
      intro zero
      rw [zero] at more
      exact absurd more (not_lt_zero _)
    have room := urgent urg some_ out_
    have moved : (th.urp - 1).toNat = th.urp.toNat - 1 := by
      rw [BitVec.toNat_sub_of_le]
      · rfl
      · exact le_of_lt more
    rw [moved,tlen]
    omega
  refine ⟨wnd,?_,?_,tlen,data,rfl,rfl⟩
  · rw [one]
    rfl
  intro urg
  cases urg

theorem noSyn_text (uncut : Uncut env c th) (untouched : Untouched env c th w) (none : w.ti.syn = false) : Text env c th w := by
  obtain ⟨conn,wnd,same,ti,tlen,data⟩ := untouched
  have zero : synLen th.flags = 0 := by
    unfold synLen
    rw [← ti,none]
    rfl
  refine ⟨wnd,?_,?_,tlen,data,by rw [ti],none⟩
  · rw [same,zero]
    simp
  rw [same,ti,tlen]
  intro urg some_ out_
  have room := uncut.urgent urg some_ out_
  omega

theorem trimHead_head (carried : Carried stream last n c th) (uncut : Uncut env c th) (untouched : Untouched env c th w) :
    Exits (fun _ => True) (Head stream last n env c th) (trimHead env w) := by
  have behind := carried.behind
  have ahead := carried.ahead
  have back : diff w.c.rcvNxt w.th.thSeq = -diff th.thSeq c.rcvNxt := by
    have bound := (diff_bounds th.thSeq c.rcvNxt).2
    rw [untouched.conn,untouched.same,@diff_near c.rcvNxt th.thSeq c.rcvNxt (by rw [diff_self]; omega) (by rw [diff_self]; omega),diff_self]
    omega
  unfold trimHead
  dsimp only
  rw [back]
  split
  · next old =>
    split
    · next syn =>
      have one : synLen th.flags = 1 := by
        unfold synLen
        rw [← untouched.ti,syn]
        rfl
      have place_ : -diff th.thSeq c.rcvNxt - 1 = -place c th := by
        unfold place
        omega
      rw [place_]
      exact trimDup_head carried (by unfold place; omega) (dropSyn_text uncut untouched syn)
    next noSyn =>
    have none : w.ti.syn = false := Bool.eq_false_iff.mpr noSyn
    have zero : synLen th.flags = 0 := by
      unfold synLen
      rw [← untouched.ti,none]
      rfl
    have place_ : -diff th.thSeq c.rcvNxt = -place c th := by
      unfold place
      omega
    rw [place_]
    exact trimDup_head carried (by unfold place; omega) (noSyn_text uncut untouched none)
  next new =>
  obtain ⟨conn,wnd,same,ti,tlen,data⟩ := untouched
  refine ⟨wnd,?_,?_,?_⟩
  · rw [ti,same,tlen]
    exact uncut.urgent
  · rw [data,tlen]
  intro none _
  have zero : synLen th.flags = 0 := by
    unfold synLen
    rw [← ti,none]
    rfl
  have here : place c th = diff th.thSeq c.rcvNxt := by
    unfold place
    omega
  have bytes := @Carried.drop _ _ _ _ _ carried 0 (by omega)
  have inside := carried.inside
  have fin_ := carried.fin
  rw [same,data,tlen]
  refine ⟨⟨?_,?_,rfl,?_,?_⟩,?_,?_⟩
  · unfold begins
    dsimp only
    omega
  · unfold ends
    dsimp only
    omega
  · dsimp only [begins]
    rw [← here]
    simpa using bytes
  · unfold ends
    dsimp only
    exact ⟨by omega,fun set_ => by have := fin_ set_; omega⟩
  · rw [zero,zero_add]
  unfold fresh
  omega

structure Tail (stream : Nat → UInt8) (last n : Nat) (env : Env) (c : Conn) (th : Segment) (w : Work) : Prop where
  urgent : w.ti.urg → w.th.urp ≠ 0 → env.oobInline = false → w.tlen < w.th.urp.toNat
  length : w.data.length = w.tlen
  piece : w.ti.syn = false → (w.tlen ≠ 0 ∨ w.ti.fin) → Carries (seen stream n) (goodFin last n) c.rcvNxt ⟨w.th.thSeq,BitVec.ofNat 32 w.tlen,th.flags.fin,w.data⟩

theorem Head.tail (head : Head stream last n env c th w) : Tail stream last n env c th w := by
  refine ⟨fun urg some_ out_ => ?_,head.length,fun none some_ => (head.piece none some_).1⟩
  have room := head.urgent urg some_ out_
  omega

theorem dropTail_tail {todrop : Nat} (head : Head stream last n env c th w)
    (cut_ : w.ti.syn = false → todrop < w.tlen → th.flags.fin = false ∧ Carries (seen stream n) (goodFin last n) c.rcvNxt ⟨w.th.thSeq,BitVec.ofNat 32 w.tlen,th.flags.fin,w.data⟩) :
    Tail stream last n env c th (dropTail w todrop) := by
  have length := head.length
  have length' : (w.data.take (w.data.length - todrop)).length = w.tlen - todrop := by
    rw [length_take]
    omega
  refine ⟨fun urg some_ out_ => ?_,length',fun none some_ => ?_⟩
  · have room := head.urgent urg some_ out_
    have fewer : w.tlen - todrop < w.th.urp.toNat := by omega
    exact fewer
  have more : todrop < w.tlen := by
    rcases some_ with text | fin
    · exact Nat.lt_of_sub_ne_zero text
    · cases fin
  obtain ⟨clear,carries⟩ := cut_ none more
  obtain ⟨dropped,end_⟩ := @Carries.dropLast _ _ _ _ carries todrop (by rw [length]; omega)
  have whole := carries.fin
  have small : BitVec.ofNat 32 (w.tlen - todrop) = BitVec.ofNat 32 w.tlen - BitVec.ofNat 32 todrop := by
    have high := carries.high
    have low := carries.low
    have end' : ends c.rcvNxt ⟨w.th.thSeq,BitVec.ofNat 32 w.tlen,th.flags.fin,w.data⟩ = begins c.rcvNxt ⟨w.th.thSeq,BitVec.ofNat 32 w.tlen,th.flags.fin,w.data⟩ + w.data.length := rfl
    unfold half at high
    exact (BitVec.ofNat_sub_ofNat_of_le _ _ (by omega) (by omega)).symm
  have same : (⟨w.th.thSeq,BitVec.ofNat 32 (w.tlen - todrop),th.flags.fin,w.data.take (w.data.length - todrop)⟩ : Pkt) =
      ⟨w.th.thSeq,BitVec.ofNat 32 w.tlen - BitVec.ofNat 32 todrop,th.flags.fin,w.data.take (w.data.length - todrop)⟩ := by rw [small]
  refine same ▸ ⟨dropped.low,dropped.high,dropped.len,dropped.bytes,?_⟩
  rw [end_]
  refine ⟨?_,fun set_ => ?_⟩
  · have inside := whole.1
    omega
  rw [clear] at set_
  cases set_

theorem trimWindow_tail (uncut : Uncut env c th) (conn : w.c.rcvNxt = c.rcvNxt) (head : Head stream last n env c th w) :
    Exits (fun _ => True) (Tail stream last n env c th) (trimWindow w) := by
  unfold trimWindow
  dsimp only
  split
  · next beyond =>
    split
    · next all =>
      split
      · trivial
      split
      · have head' : Head stream last n env c th {w with c := {w.c with ackNow := true}} := ⟨head.wnd,head.urgent,head.length,head.piece⟩
        refine dropTail_tail head' fun _ some_ => ?_
        exfalso
        dsimp only at some_
        omega
      · trivial
    next some_ =>
    refine dropTail_tail head fun none more => ?_
    obtain ⟨carries,stop,new⟩ := head.piece none (.inl (by omega))
    refine ⟨?_,carries⟩
    by_contra set_
    have cut_ := uncut.fin (by simpa using set_)
    unfold excess at cut_
    rw [← stop,← new,← head.wnd,← conn] at cut_
    omega
  · exact head.tail

theorem afterClose_same (env : Env) (w : Work) : Exits (fun _ => True) (fun w' => w' = w) (afterClose env w) := by
  unfold afterClose
  split
  · trivial
  · rfl

theorem control_tail (tail : Tail stream last n env c th w) : Exits (fun _ => True) (fun w => Tail stream last n env c th w ∧ w.ti.syn = false) (control env w) := by
  unfold control
  split
  · split
    · trivial
    · trivial
  split
  · split
    · trivial
    · trivial
  next noSyn =>
  split
  · split
    · trivial
    · trivial
  · exact ⟨tail,Bool.eq_false_iff.mpr noSyn⟩

theorem stamp_tail (tail : Tail stream last n env c th w) : Tail stream last n env c th (stamp env w) := by
  unfold stamp
  split
  · exact tail
  split
  · exact ⟨tail.urgent,tail.length,tail.piece⟩
  · exact tail

theorem toAck_tail (k : Config) (carried : Carried stream last n c th) (uncut : Uncut env c th) :
    Exits (fun _ => True) (fun w => Tail stream last n env c th w ∧ w.ti.syn = false) (toAck k env c th) := by
  have start : Arrived c th ⟨window env c,th,th.flags,th.data.length,th.data,false,false⟩ :=
    ⟨⟨_,_,_,_,rfl⟩,rfl,rfl,rfl,rfl,le_refl _,fun _ => ⟨rfl,rfl⟩⟩
  have next_ : ∀ {w},Arrived c th w → w.c.rcvNxt = c.rcvNxt := fun arrived => congrArg Reass.rcvNxt arrived.conn.kept.1.reass
  have weak : ∀ {on : Work → Prop} {x : Except Verdict Work},Exits (fun e => Gone c e ∧ True) on x → Exits (fun _ => True) on x :=
    fun exits => exits.mono (fun _ _ => trivial) fun _ on => on
  refine (weak ((paws_exits start).and (paws_untouched k env c th))).bind fun w ⟨arrived,untouched⟩ => ?_
  refine (weak ((trimHead_exits arrived).and (trimHead_head carried uncut untouched))).bind fun w ⟨arrived,head⟩ => ?_
  refine (afterClose_same env w).bind fun w' same => ?_
  subst same
  refine (trimWindow_tail uncut (next_ arrived) head).bind fun w tail => ?_
  exact control_tail (stamp_tail tail)

-- The segments that the connection gets, each at its place of the stream. The user may stop receiving, and
-- the connection may leave ESTABLISHED, but it does not come back.
inductive Stream (k : Config) (out : Conn → Conn) (stream : Nat → UInt8) (last : Nat) (meets : Env → Conn → Segment → Prop) (start : Conn) : Nat → Conn → Prop where
  | start : Stream k out stream last meets start 0 start
  | segment {n : Nat} {c c' : Conn} {env : Env} {th : Segment} {output : Bool} : Stream k out stream last meets start n c → c.tState = .established →
      Carried stream last n c th → (∀ q ∈ c.reass.segq,env.got ≠ some q.addr) → meets env c th → tcpInput k env out c th = .ok (.ret c' output) →
      Stream k out stream last meets start (n + (c'.rcvNxt - c.rcvNxt).toNat) c'
  | other {n : Nat} {c c' : Conn} {cantRcvMore : Bool} : Stream k out stream last meets start n c → (c'.tState = .established → c.tState = .established) →
      c'.reass = {c.reass with cantRcvMore := cantRcvMore} → Stream k out stream last meets start n c'

structure Stands (stream : Nat → UInt8) (last : Nat) (start : Reass) (n : Nat) (r : Reass) : Prop where
  next : r.rcvNxt = start.rcvNxt + BitVec.ofNat 32 n
  queue : Queue (seen stream n) (goodFin last n) r
  soRcv : r.soRcv = start.soRcv ++ slice stream 0 n
  le : n ≤ last

structure Ended (stream : Nat → UInt8) (last : Nat) (start r : Reass) : Prop where
  next : r.rcvNxt = start.rcvNxt + BitVec.ofNat 32 last + 1
  soRcv : r.soRcv = start.soRcv ++ slice stream 0 last

variable {start c₁ : Conn} {r r' r₀ : Reass}

structure Forward (stream : Nat → UInt8) (last : Nat) (start : Reass) (n : Nat) (r r' : Reass) (m : Nat) : Prop where
  small : (m : Int) < half
  moved : r'.rcvNxt = r.rcvNxt + BitVec.ofNat 32 m
  stands : Stands stream last start (n + m) r'

section
variable (stands : Stands stream last r₀ n r)
include stands

theorem delivered_forward {fin : Bool} (receives : r.cantRcvMore = false) (delivered : Delivered (seen stream n) (goodFin last n) r m fin r') :
    Forward stream last r₀ n r r' m ∧ (fin = true → n + m = last) := by
  obtain ⟨next_,queue,soRcv,le⟩ := stands
  obtain ⟨small,moved,appended,_,queue',ok⟩ := delivered
  rw [seen_shift,goodFin_shift] at queue'
  rw [receives,cut_seen (by omega)] at appended
  have bytes : r'.soRcv = r₀.soRcv ++ slice stream 0 (n + m) := by
    rw [← slice_append,← append_assoc,← soRcv]
    exact appended
  have next' : r'.rcvNxt = r₀.rcvNxt + BitVec.ofNat 32 (n + m) := by rw [moved,next_,BitVec.ofNat_add,BitVec.add_assoc]
  rcases ok with ⟨rfl,rfl⟩ | ⟨inside,exact_⟩
  · exact ⟨⟨small,moved,next',queue',bytes,le⟩,by simp⟩
  · exact ⟨⟨small,moved,next',queue',bytes,by omega⟩,fun set_ => by have := exact_ set_; omega⟩

theorem inline_forward {b : Pkt} (receives : r.cantRcvMore = false) (empty : r.segq = [])
    (carries : Carries (seen stream n) (goodFin last n) r.rcvNxt b) (here : b.seq = r.rcvNxt) :
    Forward stream last r₀ n r (sbappendstream {r with rcvNxt := r.rcvNxt + b.len} b.data) b.data.length ∧ (b.fin = true → n + b.data.length = last) := by
  obtain ⟨next_,⟨_,counted,_⟩,soRcv,le⟩ := stands
  obtain ⟨low,high,len,bytes,inside,exact_⟩ := carries
  have zero : begins r.rcvNxt b = 0 := by
    unfold begins
    rw [here,diff_self]
  have end_ : ends r.rcvNxt b = b.data.length := by
    have same : ends r.rcvNxt b = begins r.rcvNxt b + b.data.length := rfl
    omega
  rw [end_] at high inside exact_
  rw [zero,cut_seen (by omega)] at bytes
  rw [empty] at counted
  unfold sbappendstream
  rw [if_neg (by simp [receives])]
  refine ⟨⟨high,?_,?_,?_,?_,by omega⟩,fun set_ => by have := exact_ set_; omega⟩
  · rw [len]
  · rw [len,next_,BitVec.ofNat_add,BitVec.add_assoc]
  · refine ⟨⟨by simp [empty],by simp [empty]⟩,?_,by simp [empty]⟩
    rw [empty]
    exact ⟨counted.count,counted.times,counted.distinct,counted.asserts⟩
  rw [← slice_append,← append_assoc,← soRcv]
  exact congrArg (r.soRcv ++ ·) bytes

theorem Stands.still : Forward stream last r₀ n r r 0 := ⟨by decide,by simp,stands⟩
end

structure Ready (stream : Nat → UInt8) (last n : Nat) (c : Conn) (th : Segment) (w : Work) : Prop where
  tState : w.c.tState = .established
  reass : w.c.reass = c.reass
  flags : w.th.flags = th.flags
  length : w.data.length = w.tlen
  piece : (w.tlen ≠ 0 ∨ w.ti.fin) → Carries (seen stream n) (goodFin last n) c.rcvNxt ⟨w.th.thSeq,BitVec.ofNat 32 w.tlen,th.flags.fin,w.data⟩

theorem updateWindow_ready (ready : Ready stream last n c th w) : Ready stream last n c th (updateWindow w) := by
  unfold updateWindow
  split
  · exact ⟨ready.tState,ready.reass,ready.flags,ready.length,ready.piece⟩
  · exact ready

theorem advanceUp_ready (env : Env) (ready : Ready stream last n c th w) : Ready stream last n c th (advanceUp env w) ∧ (advanceUp env w).data = w.data := by
  unfold advanceUp
  dsimp only
  split
  · exact ⟨⟨ready.tState,ready.reass,ready.flags,ready.length,ready.piece⟩,rfl⟩
  · exact ⟨ready,rfl⟩

theorem urgent_ready (ready : Ready stream last n c th w) (late : w.ti.urg → w.th.urp ≠ 0 → env.oobInline = false → w.tlen < w.th.urp.toNat) :
    Ready stream last n c th (urgent k env w) := by
  unfold urgent
  split
  · next some_ =>
    simp only [Bool.and_eq_true,decide_eq_true_eq] at some_
    split
    · exact ⟨ready.tState,ready.reass,ready.flags,ready.length,ready.piece⟩
    split
    · next inside =>
      simp only [Bool.and_eq_true,decide_eq_true_eq,Bool.not_eq_true'] at inside
      have beyond := late some_.1.1 some_.1.2 inside.2
      omega
    · exact (advanceUp_ready env ready).1
  split
  · exact ⟨ready.tState,ready.reass,ready.flags,ready.length,ready.piece⟩
  · exact ready

theorem dodata_forward (ready : Ready stream last n c th w) (stands : Stands stream last r₀ n c.reass) (receives : c.reass.cantRcvMore = false)
    (unused : ∀ q ∈ c.reass.segq,env.got ≠ some q.addr) : ∃ m,Forward stream last r₀ n c.reass (dodata k env w).c.reass m ∧
      ((dodata k env w).ti.fin = true → n + m = last) ∧ (dodata k env w).c.tState = .established := by
  obtain ⟨tState,reass,flags,length,piece⟩ := ready
  have open_ : w.c.tState.haveRcvdFin = false := by
    rw [tState]
    rfl
  have setup := setupAck_kept k w.c w.th
  unfold dodata
  rw [open_]
  split
  · next some_ =>
    have carries := piece (by simpa using some_)
    split
    · next inline =>
      simp only [Bool.and_eq_true,decide_eq_true_eq,List.isEmpty_iff] at inline
      obtain ⟨⟨here,empty⟩,_⟩ := inline
      rw [Conn.rcvNxt,reass] at here
      rw [reass] at empty
      obtain ⟨forward,fin⟩ := inline_forward stands receives empty carries here
      rw [length] at forward fin
      refine ⟨w.tlen,?_,fun set_ => fin ?_,setup.tState.trans tState⟩
      · dsimp only [Conn.rcvNxt]
        rw [setup.reass,reass]
        exact forward
      rw [← flags]
      exact set_
    obtain ⟨m,delivered⟩ := tcpReass_spec (goodFin_joins last n) stands.queue carries unused
    obtain ⟨forward,fin⟩ := delivered_forward stands receives delivered
    refine ⟨m,?_,fun set_ => fin ?_,tState⟩
    · rw [reass,flags]
      exact forward
    rw [reass,flags] at set_
    exact set_
  refine ⟨0,?_,by simp,tState⟩
  rw [reass]
  exact stands.still

def Result (stream : Nat → UInt8) (last n : Nat) (start c c' : Conn) : Prop :=
  (c'.tState = .established ∧ ∃ m,Forward stream last start.reass n c.reass c'.reass m) ∨ (c'.tState ≠ .established ∧ Ended stream last start.reass c'.reass)

theorem acceptFin_result (tState : w.c.tState = .established) (forward : Forward stream last start.reass n c.reass w.c.reass m) (fin : w.ti.fin = true → n + m = last) :
    Result stream last n start c (acceptFin w).c := by
  unfold acceptFin
  split
  · next set_ =>
    rw [takeFin_established tState]
    have whole := fin set_
    obtain ⟨_,_,next_,_,soRcv,_⟩ := forward
    rw [whole] at next_ soRcv
    refine .inr ⟨by simp,?_,soRcv⟩
    dsimp only [Conn.rcvNxt]
    rw [next_]
  · exact .inl ⟨tState,m,forward⟩

theorem step6_result {output : Bool} (ready : Ready stream last n c th w) (late : w.ti.urg → w.th.urp ≠ 0 → env.oobInline = false → w.tlen < w.th.urp.toNat)
    (stands : Stands stream last start.reass n c.reass) (receives : c.reass.cantRcvMore = false) (unused : ∀ q ∈ c.reass.segq,env.got ≠ some q.addr)
    (done : step6 k env w = .ret c' output) : Result stream last n start c c' := by
  obtain ⟨same,flags,_⟩ := updateWindow_others w
  have ready := updateWindow_ready ready
  have late : (updateWindow w).ti.urg → (updateWindow w).th.urp ≠ 0 → env.oobInline = false → (updateWindow w).tlen < (updateWindow w).th.urp.toNat := by
    have tlen : (updateWindow w).tlen = w.tlen := by
      unfold updateWindow
      split
      · rfl
      · rfl
    rw [flags,same,tlen]
    exact late
  have ready := @urgent_ready _ _ _ k env _ _ _ ready late
  obtain ⟨m,forward,fin,tState⟩ := @dodata_forward _ _ _ k env _ _ _ _ ready stands receives unused
  cases done
  exact acceptFin_result tState forward fin

structure Alike (c c₁ : Conn) : Prop where
  tState : c₁.tState = c.tState
  reass : c₁.reass = c.reass
  rcvAdv : c₁.rcvAdv = c.rcvAdv

theorem front_alike (ran : front k c th = .ok c₁) : Alike c c₁ := by
  obtain ⟨sack,_,same⟩ := front_cases ran
  subst same
  obtain ⟨ece,⟨_,marked⟩ | ⟨_,congested⟩⟩ := ecn_cases {c with sack := sack} th
  · rw [marked]
    exact ⟨rfl,rfl,rfl⟩
  rw [congested]
  exact ⟨rfl,rfl,rfl⟩

theorem predict_alike (k : Config) (env : Env) (c : Conn) (th : Segment) : Alike c (predict k env c th).1 := by
  obtain ⟨_,_,_,_,same⟩ := predict_received k env c th
  rw [same]
  exact ⟨rfl,rfl,rfl⟩

theorem Alike.trans {c₂ : Conn} (one : Alike c c₁) (two : Alike c₁ c₂) : Alike c c₂ :=
  ⟨two.tState.trans one.tState,two.reass.trans one.reass,two.rcvAdv.trans one.rcvAdv⟩

theorem Alike.carried (alike : Alike c c₁) (carried : Carried stream last n c th) : Carried stream last n c₁ th := by
  have next_ : c₁.rcvNxt = c.rcvNxt := congrArg Reass.rcvNxt alike.reass
  have place_ : place c₁ th = place c th := by
    unfold place
    rw [next_]
  obtain ⟨behind,ahead,bytes,inside,fin⟩ := carried
  rw [← next_] at behind
  rw [← place_] at ahead inside fin
  refine ⟨behind,ahead,?_,inside,fin⟩
  rw [place_]
  exact bytes

theorem Alike.uncut (alike : Alike c c₁) (uncut : Uncut env c th) : Uncut env c₁ th := by
  have next_ : c₁.rcvNxt = c.rcvNxt := congrArg Reass.rcvNxt alike.reass
  have over_ : excess env c₁ th = excess env c th := by
    unfold excess window
    rw [next_,alike.rcvAdv]
  have fresh_ : fresh c₁ th = fresh c th := by
    unfold fresh place
    rw [next_]
  obtain ⟨fin,urgent,receives⟩ := uncut
  refine ⟨?_,urgent,?_⟩
  · rw [over_,fresh_]
    exact fin
  rw [alike.reass]
  exact receives

theorem Result.still (established : c'.tState = .established) (same : c'.reass = c.reass) (stands : Stands stream last start.reass n c.reass) :
    Result stream last n start c c' := by
  refine .inl ⟨established,0,?_⟩
  rw [same]
  exact stands.still

theorem general_result {output : Bool} (frame : ∀ c,Kept c (out c)) (established : c.tState = .established) (carried : Carried stream last n c th) (uncut : Uncut env c th)
    (unused : ∀ q ∈ c.reass.segq,env.got ≠ some q.addr) (stands : Stands stream last start.reass n c.reass) (done : general k env out c th = .ret c' output) :
    Result stream last n start c c' := by
  have way := @toStep6_exits k env out c th frame established
  have tests := toAck_tail k carried uncut
  unfold general at done
  split at done
  · next v left =>
    subst done
    have kept : Kept c c' := way.error left
    exact .still (kept.tState.trans established) kept.reass stands
  next w on =>
  obtain ⟨before,reached,arrived,_,acked⟩ := way.ok on
  obtain ⟨tail,noSyn⟩ := tests.ok reached
  have ready : Ready stream last n c th w := by
    refine ⟨acked.tState.trans established,acked.reass,?_,?_,?_⟩
    · rw [acked.th]
      exact arrived.flags
    · rw [acked.data,acked.tlen]
      exact tail.length
    rw [acked.tlen,acked.ti,acked.th,acked.data]
    exact tail.piece noSyn
  refine step6_result ready ?_ stands uncut.receives unused done
  rw [acked.tlen,acked.ti,acked.th]
  exact tail.urgent

theorem Carried.here (carried : Carried stream last n c th) (next_ : th.thSeq = c.rcvNxt) (noSyn : th.flags.syn = false) :
    Carries (seen stream n) (goodFin last n) c.rcvNxt ⟨th.thSeq,BitVec.ofNat 32 th.data.length,th.flags.fin,th.data⟩ := by
  have zero : place c th = 0 := by
    unfold place synLen
    rw [next_,diff_self,noSyn]
    rfl
  have begin_ : diff th.thSeq c.rcvNxt = 0 := by rw [next_,diff_self]
  have bytes := @Carried.drop _ _ _ _ _ carried 0 (by omega)
  obtain ⟨_,ahead,_,inside,fin⟩ := carried
  rw [zero] at ahead inside fin bytes
  refine ⟨Int.le_of_eq begin_.symm,?_,rfl,?_,?_⟩
  · unfold ends
    dsimp only
    rw [begin_]
    exact ahead
  · dsimp only [begins]
    rw [begin_]
    simpa using bytes
  unfold ends
  dsimp only
  rw [begin_]
  exact ⟨by omega,fun set_ => by have := fin set_; omega⟩

theorem predict_result {output : Bool} (established : c.tState = .established) (carried : Carried stream last n c th) (receives : c.reass.cantRcvMore = false)
    (stands : Stands stream last start.reass n c.reass) (taken : (predict k env c th).2 = some (.ret c' output)) : Result stream last n start c c' := by
  unfold predict at taken
  split at taken
  · next flags =>
    simp only [predicted,Bool.and_eq_true,decide_eq_true_eq,Bool.not_eq_true'] at flags
    have next_ : th.thSeq = c.rcvNxt := flags.1.1.1.2
    have noSyn : th.flags.syn = false := flags.1.1.1.1.1.2.1.1.1.1.1.1
    obtain ⟨_,_,_,_,same⟩ := predictedTs_received env c th
    dsimp only at taken
    rw [same] at taken
    split at taken
    · unfold predictAck at taken
      split at taken
      · cases taken
        exact .still established rfl stands
      · cases taken
    unfold predictData at taken
    split at taken
    · next data =>
      simp only [Bool.and_eq_true,decide_eq_true_eq,List.isEmpty_iff] at data
      cases taken
      obtain ⟨forward,_⟩ := inline_forward stands receives data.1.2 (carried.here next_ noSyn) next_
      refine .inl ⟨(setupAck_kept ..).tState.trans established,th.data.length,?_⟩
      rw [(setupAck_kept ..).reass]
      exact forward
    · cases taken
  · cases taken

theorem segment_result {output : Bool} (frame : ∀ c,Kept c (out c)) (established : c.tState = .established) (carried : Carried stream last n c th) (uncut : Uncut env c th)
    (unused : ∀ q ∈ c.reass.segq,env.got ≠ some q.addr) (stands : Stands stream last start.reass n c.reass)
    (ran : tcpInput k env out c th = .ok (.ret c' output)) : Result stream last n start c c' := by
  obtain ⟨c₁,first⟩ := front_of_ok ran
  have alike := front_alike first
  have further := alike.trans (predict_alike k env c₁ th)
  have back : ∀ {d},Alike c d → Result stream last n start d c' → Result stream last n start c c' := by
    intro d same result
    unfold Result at result ⊢
    rw [same.reass] at result
    exact result
  cases predicted : predict k env c₁ th with
  | mk c₂ v =>
    rw [predicted] at further
    cases v with
    | some v =>
      rw [tcpInput_predicted first predicted] at ran
      cases ran
      have taken : (predict k env c₁ th).2 = some (.ret c' output) := by rw [predicted]
      refine back alike (predict_result (alike.tState.trans established) (alike.carried carried) ?_ ?_ taken)
      · rw [alike.reass]
        exact uncut.receives
      rw [alike.reass]
      exact stands
    | none =>
      rw [tcpInput_general first predicted] at ran
      injection ran with ran
      refine back further (general_result frame (further.tState.trans established) (further.carried carried) (further.uncut uncut) ?_ ?_ ran)
      · rw [further.reass]
        exact unused
      rw [further.reass]
      exact stands

theorem stream_stands (frame : ∀ c,Kept c (out c)) (nothing : Fresh start.reass) (run : Stream k out stream last Uncut start n c) :
    c.tState = .established → Stands stream last start.reass n c.reass := by
  induction run with
  | start =>
    intro _
    obtain ⟨segq,timeq,segqlen,asserts⟩ := nothing
    exact ⟨by simp,⟨⟨by simp [segq],by simp [segq]⟩,⟨by simp [segq,segqlen],by simp [segq,timeq],by simp [segq],asserts⟩,by simp [segq]⟩,by simp [slice],zero_le _⟩
  | segment prior established carried unused uncut ran ih =>
    intro still
    rcases segment_result frame established carried uncut unused (ih established) ran with ⟨_,m,small,moved,stands⟩ | ⟨left,_⟩
    · have places : ∀ {a b : Seq},a = b + BitVec.ofNat 32 m → (a - b).toNat = m := by
        intro a b same
        rw [same,BitVec.add_comm,BitVec.add_sub_cancel,BitVec.toNat_ofNat]
        unfold half at small
        exact mod_eq_of_lt (by omega)
      rw [places moved]
      exact stands
    · exact absurd still left
  | other prior stays same ih =>
    intro still
    obtain ⟨next_,⟨entries,counted,first⟩,soRcv,le⟩ := ih (stays still)
    rw [same]
    exact ⟨next_,⟨entries,⟨counted.count,counted.times,counted.distinct,counted.asserts⟩,first⟩,soRcv,le⟩

-- A segment on which the connection leaves ESTABLISHED finds the whole stream delivered, and rcv_nxt at the FIN.
theorem fin_exact (k : Config) (out : Conn → Conn) (stream : Nat → UInt8) (last n : Nat) (env : Env) (start c c' : Conn) (th : Segment) (output : Bool)
    (frame : ∀ c,Kept c (out c)) (nothing : Fresh start.reass) (run : Stream k out stream last Uncut start n c) (established : c.tState = .established)
    (carried : Carried stream last n c th) (unused : ∀ q ∈ c.reass.segq,env.got ≠ some q.addr) (uncut : Uncut env c th)
    (ran : tcpInput k env out c th = .ok (.ret c' output)) (accepted : c'.tState ≠ .established) : Ended stream last start.reass c'.reass := by
  rcases segment_result frame established carried uncut unused (stream_stands frame nothing run established) ran with ⟨still,_⟩ | ⟨_,ended⟩
  · exact absurd still accepted
  · exact ended

def lastSegment : Segment := ⟨0,0,⟨true,false,false,false,true,false,false,false⟩,65535,0,[7,8],none,[],false⟩
def twoBytes (i : Nat) : UInt8 := if i = 0 then 7 else 8

theorem lastSegment_carried : Carried twoBytes 2 0 (received 0) lastSegment := by
  refine ⟨by decide +kernel,by decide +kernel,?_,by decide +kernel,fun _ => by decide +kernel⟩
  have at_ : place (received 0) lastSegment = 0 := by decide +kernel
  intro i lt _
  rw [at_]
  match i with
  | 0 => rfl
  | 1 => rfl

def left : Except Halt Verdict → Option Conn
  | .ok (.ret c _) => some c
  | _ => none

theorem left_some {r : Except Halt Verdict} (some_ : left r = some c) : ∃ output,r = .ok (.ret c output) := by
  unfold left at some_
  split at some_
  · next c' output =>
    cases some_
    exact ⟨output,rfl⟩
  · cases some_

-- With room for one byte only, the FIN is taken behind it.
theorem fin_early : ¬∀ (k : Config) (out : Conn → Conn) (stream : Nat → UInt8) (last n : Nat) (env : Env) (start c c' : Conn) (th : Segment) (output : Bool),
    (∀ c,Kept c (out c)) → Fresh start.reass → Stream k out stream last (fun _ _ _ => True) start n c → c.tState = .established → Carried stream last n c th →
      (∀ q ∈ c.reass.segq,env.got ≠ some q.addr) → tcpInput k env out c th = .ok (.ret c' output) → c'.tState ≠ .established → Ended stream last start.reass c'.reass := by
  intro claim
  have early : (left (tcpInput sysctls {idle with rcvSpace := 1} id (received 0) lastSegment)).map (fun c => (c.tState,c.rcvNxt)) = some (.closeWait,2) := by decide +kernel
  cases ran : left (tcpInput sysctls {idle with rcvSpace := 1} id (received 0) lastSegment) with
  | none =>
    rw [ran] at early
    cases early
  | some c' =>
    rw [ran] at early
    simp only [Option.map_some,Option.some.injEq,Prod.mk.injEq] at early
    obtain ⟨output,ran⟩ := left_some ran
    have ended := claim sysctls id twoBytes 2 0 _ (received 0) (received 0) c' lastSegment output Kept.refl ⟨rfl,rfl,rfl,rfl⟩ .start rfl lastSegment_carried
      (by simp [received]) ran (by simp [early.1])
    have next_ := ended.next
    rw [Conn.rcvNxt] at early
    rw [early.2] at next_
    revert next_
    decide +kernel

theorem fin_exact_closes : ∃ c' output,tcpInput sysctls idle id (received 0) lastSegment = .ok (.ret c' output) ∧ Ended twoBytes 2 (received 0).reass c'.reass := by
  have whole : (left (tcpInput sysctls idle id (received 0) lastSegment)).map (fun c => c.tState) = some .closeWait := by decide +kernel
  have uncut : Uncut idle (received 0) lastSegment := by
    refine ⟨fun _ => by decide +kernel,fun urg => ?_,rfl⟩
    cases urg
  cases ran : left (tcpInput sysctls idle id (received 0) lastSegment) with
  | none =>
    rw [ran] at whole
    cases whole
  | some c' =>
    rw [ran] at whole
    simp only [Option.map_some,Option.some.injEq] at whole
    obtain ⟨output,ran⟩ := left_some ran
    exact ⟨c',output,ran,fin_exact sysctls id twoBytes 2 0 idle (received 0) (received 0) c' lastSegment output Kept.refl ⟨rfl,rfl,rfl,rfl⟩ .start rfl lastSegment_carried
      (by simp [received]) uncut ran (by simp [whole])⟩
end NetbsdAvr32.TcpInput
