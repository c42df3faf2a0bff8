import NetbsdAvr32.TcpSack

-- sys/netinet/tcp_output.c: one turn of tcp_output from `again` on, where it retransmits from a hole.
namespace NetbsdAvr32.TcpOutput
open Serial TcpSack

abbrev Word := BitVec 32

def enobufs : Nat := 55
def enetdown : Nat := 50
def ehostunreach : Nat := 65
def ipMaxpacket : Word := 65535

-- What tcp_output reads of the connection and its send buffer. haveRcvdSyn is TCPS_HAVERCVDSYN(t_state).
structure Conn where
  tp : Tcpcb
  sndWnd : Word
  sndCwnd : Word
  sbCc : Word
  sndRecover : Seq
  partialacks : Int
  segsz : Word
  haveRcvdSyn : Bool
  softerror : Nat
  deriving DecidableEq, Repr

-- The sizes of the segment, whether TSO may be used, and whether the checks behind "if (len)" find a
-- reason to send. mgethdr, mclget and mcopym tell what the allocations give, ipOutput what ip_output returns.
structure Env where
  txsegsize : Word
  hasTso : Bool
  owed : Bool
  headers : Nat
  mhlen : Nat
  mclbytes : Nat
  mgethdr : Bool
  mclget : Bool
  mcopym : Bool
  ipOutput : Nat

-- min and ulmin
def umin (a b : Word) : Word := if a.ult b then a else b

-- len of a retransmission from the hole p, 0 where there is none.
def sackLen (c : Conn) (p : Sackhole) (sackBytesRxmt : Word) : Except Halt Word :=
  let cwin := umin c.sndWnd c.sndCwnd - sackBytesRxmt
  let cwin := if cwin.slt 0 then 0 else cwin
  -- Do not retransmit SACK segments beyond snd_recover
  if seqGt p.stop c.sndRecover && seqGeq p.rxmit c.sndRecover then .ok 0
  else
    let len := umin cwin ((if seqGt p.stop c.sndRecover then c.sndRecover else p.stop) - p.rxmit)
    let off := p.rxmit - c.tp.sndUna
    if c.sbCc.ult (off + len) then
      -- 1 for TH_FIN
      if off + len ≠ c.sbCc + 1 ∨ p.rxmit + len ≠ c.tp.sndMax then .error (.panic "tcp_output") else .ok (c.sbCc - off)
    else .ok len

-- The hole and len, where sack_rxmit becomes 1.
def sackRxmit (c : Conn) : Except Halt (Option (Nat × Word)) :=
  if !c.tp.sackEnabled || c.partialacks < 0 then .ok none
  else
    match tcpSackOutput c.tp 0 with
    | (none,_) => .ok none
    | (some i,sackBytesRxmt) =>
      match c.tp.sndHoles[i]? with
      | none => .error (.fault "tcp_sack_output")
      | some p =>
        match sackLen c p sackBytesRxmt with
        | .error halt => .error halt
        | .ok len => .ok (if (0 : Word).slt len then some (i,len) else none)

def cutLen (env : Env) (len : Word) : Except Halt Word :=
  if env.txsegsize.slt len then
    if env.hasTso then
      if env.txsegsize = 0 then .error (.fault "division by zero") else .ok (umin len ipMaxpacket / env.txsegsize * env.txsegsize)
    else .ok env.txsegsize
  else .ok len

-- The mbuf for the headers, of which a cluster may be needed. headers is max_linkhdr + hdrlen.
def headerMbuf (env : Env) : Bool := env.mgethdr && (env.headers ≤ env.mhlen || env.mclget)
def trailingSpace (env : Env) : Int := (if env.headers ≤ env.mhlen then env.mhlen else env.mclbytes : Int) - env.headers

-- Gives the error. The data that is copied is not looked at.
def tcpBuildDatapkt (env : Env) (len : Word) : Nat :=
  if !headerMbuf env then enobufs
  else if len.toInt ≤ trailingSpace env then 0
  else if env.mcopym then 0
  else enobufs

-- The packet, or a bare header where nothing is left to send.
def buildPacket (env : Env) (len : Word) : Nat :=
  if len ≠ 0 then tcpBuildDatapkt env len else if headerMbuf env then 0 else enobufs

def setRxmit (c : Conn) (i : Nat) (f : Seq → Seq) : Conn :=
  {c with tp := {c.tp with sndHoles := c.tp.sndHoles.modify i fun h => {h with rxmit := f h.rxmit}}}

def tcpQuench (c : Conn) : Conn := {c with sndCwnd := c.segsz}

-- The label out, with sack_rxmit. The connection, and what tcp_output returns.
def out (c : Conn) (i : Nat) (len : Word) (error : Nat) : Conn × Nat :=
  let (c,error) :=
    if error = enobufs then (tcpQuench c,0)
    else if (error = ehostunreach ∨ error = enetdown) ∧ c.haveRcvdSyn then ({c with softerror := error},0)
    else (c,error)
  -- Back out the sequence number advance.
  (setRxmit c i (· - len),error)

inductive Result where
  | other
  | justReturn
  | sent (c : Conn)
  | returned (c : Conn) (error : Nat)
  deriving DecidableEq

def tcpOutput (env : Env) (c : Conn) : Except Halt Result :=
  match sackRxmit c with
  | .error halt => .error halt
  | .ok none => .ok .other
  | .ok (some (i,len)) =>
    match cutLen env len with
    | .error halt => .error halt
    | .ok len =>
      if len = 0 ∧ !env.owed then .ok .justReturn
      else if buildPacket env len ≠ 0 then .ok (.returned (out c i len (buildPacket env len)).1 (out c i len (buildPacket env len)).2)
      else
        let c := setRxmit c i (· + len)
        if env.ipOutput ≠ 0 then .ok (.returned (out c i len env.ipOutput).1 (out c i len env.ipOutput).2) else .ok (.sent c)

def Built (env : Env) (len : Word) : Prop := headerMbuf env = true ∧ (len.toInt ≤ trailingSpace env ∨ env.mcopym = true)

-- rxmit of the hole is what it was, and so it is still within the hole if it was.
def Restored (i : Nat) (c c' : Conn) : Prop := ∃ p p',c.tp.sndHoles[i]? = some p ∧ c'.tp.sndHoles[i]? = some p' ∧ p'.rxmit = p.rxmit ∧
  (seqLeq p.start p.rxmit ∧ seqLeq p.rxmit p.stop → seqLeq p'.start p'.rxmit ∧ seqLeq p'.rxmit p'.stop)

variable {env : Env} {c c' : Conn} {i : Nat} {len len' : Word} {p : Sackhole} {f g : Seq → Seq} {error error' : Nat}

theorem sackRxmit_hole (chosen : sackRxmit c = .ok (some (i,len))) : ∃ p,c.tp.sndHoles[i]? = some p := by
  unfold sackRxmit at chosen
  split at chosen
  · cases chosen
  split at chosen
  · cases chosen
  split at chosen
  · cases chosen
  next p hole =>
  split at chosen
  · cases chosen
  split at chosen
  · cases chosen
    exact ⟨p,hole⟩
  · cases chosen

section
variable (hole : c.tp.sndHoles[i]? = some p)
include hole

theorem setRxmit_hole : (setRxmit c i f).tp.sndHoles[i]? = some {p with rxmit := f p.rxmit} := by
  unfold setRxmit
  rw [List.getElem?_modify_eq,hole]
  rfl

theorem out_hole : (out c i len error).1.tp.sndHoles[i]? = some {p with rxmit := p.rxmit - len} := by
  unfold out
  split
  next c₁ _ changed =>
  have same : c₁.tp = c.tp := by
    split at changed
    · cases changed
      rfl
    split at changed
    · cases changed
      rfl
    cases changed
    rfl
  refine setRxmit_hole ?_
  rw [same]
  exact hole

theorem restored_iff {x : Seq} (hole' : c'.tp.sndHoles[i]? = some {p with rxmit := x}) : Restored i c c' ↔ x = p.rxmit := by
  constructor
  · rintro ⟨q,q',here,there,same,_⟩
    rw [hole] at here
    rw [hole'] at there
    cases here
    cases there
    exact same
  rintro rfl
  exact ⟨p,_,hole,hole',rfl,id⟩
end

theorem sub_self_iff {x : Seq} : x - len = x ↔ len = 0 := by
  constructor
  · intro same
    bv_omega
  rintro rfl
  exact BitVec.sub_zero x

theorem build_iff (some_ : len ≠ 0) : buildPacket env len = 0 ↔ Built env len := by
  unfold buildPacket tcpBuildDatapkt Built
  rw [if_pos some_]
  cases headerMbuf env with
  | false => simp [enobufs]
  | true =>
    cases env.mcopym with
    | false => simp [enobufs]
    | true => simp

-- A turn that comes back without having sent the segment leaves rxmit as it was exactly where the packet
-- could be built, so that what failed is ip_output.
theorem rxmit_restored_exact (env : Env) (c c' : Conn) (i : Nat) (len len' : Word) (error : Nat) (chosen : sackRxmit c = .ok (some (i,len)))
    (cut : cutLen env len = .ok len') (returned : tcpOutput env c = .ok (.returned c' error)) : Restored i c c' ↔ Built env len' ∨ len' = 0 := by
  obtain ⟨p,hole⟩ := sackRxmit_hole chosen
  unfold tcpOutput at returned
  rw [chosen] at returned
  dsimp only at returned
  rw [cut] at returned
  dsimp only at returned
  split at returned
  · cases returned
  split at returned
  · next failed =>
    cases returned
    rw [restored_iff hole (out_hole hole),sub_self_iff]
    refine ⟨.inr,fun either => either.elim (fun built => ?_) id⟩
    by_cases none : len' = 0
    · exact none
    · exact absurd ((build_iff none).mpr built) failed
  · next ready =>
    have ready := Decidable.not_not.mp ready
    split at returned
    · cases returned
      have advanced := setRxmit_hole (f := (· + len')) hole
      have backed : (out (setRxmit c i (· + len')) i len' env.ipOutput).1.tp.sndHoles[i]? = some {p with rxmit := p.rxmit + len' - len'} := out_hole advanced
      rw [restored_iff hole backed]
      refine ⟨fun _ => ?_,fun _ => BitVec.add_sub_cancel _ _⟩
      by_cases none : len' = 0
      · exact .inr none
      · exact .inl ((build_iff none).mp ready)
    · cases returned

-- 1000 bytes in flight of which the first 500 are missing.
def recovering : Conn := ⟨⟨true,100,1100,1100,1100,[⟨100,600,100⟩],1,1,[]⟩,4000,4000,1000,1100,0,500,true,0⟩

def plenty (ipOutput : Nat) : Env := ⟨500,false,false,56,200,2048,true,true,true,ipOutput⟩
def noMbufs : Env := ⟨500,false,false,56,200,2048,false,false,false,0⟩

theorem rxmit_restored_unreachable : ∃ c',Restored 0 recovering c' ↔ Built (plenty ehostunreach) 500 ∨ (500 : Word) = 0 :=
  ⟨_,rxmit_restored_exact (plenty ehostunreach) recovering (out (setRxmit recovering 0 (· + 500)) 0 500 ehostunreach).1 0 500 500 0
    (by decide +kernel) rfl (by decide +kernel)⟩

-- Without an mbuf for the headers rxmit goes back by a segment that it had not been advanced by.
theorem rxmit_lost : ¬∀ (env : Env) (c c' : Conn) (i : Nat) (len : Word) (error : Nat),sackRxmit c = .ok (some (i,len)) →
    tcpOutput env c = .ok (.returned c' error) → Restored i c c' := by
  intro claim
  have kept := claim noMbufs recovering (out recovering 0 500 enobufs).1 0 500 0 (by decide +kernel) (by decide +kernel)
  have back := (restored_iff rfl (out_hole rfl)).mp kept
  revert back
  decide +kernel
end NetbsdAvr32.TcpOutput
