import Mathlib.Algebra.Group.Prod
import Mathlib.Algebra.BigOperators.Group.List.Basic
import Mathlib.Tactic.Abel
import NetbsdAvr32.Outcome

-- sys/kern/uipc_socket2.c: the records of a socket buffer.
namespace NetbsdAvr32.Sockbuf

inductive MType where
  | mtData
  | mtHeader
  | mtSoname
  | mtSoopts
  | mtFtable
  | mtControl
  | mtOobdata
  deriving DecidableEq, Repr

-- struct mbuf, by its address. `ext` is ext_size where M_EXT is set, `pkthdr` is
-- m_pkthdr.len where M_PKTHDR is set, and `trailing` is M_TRAILINGSPACE.
structure Mbuf where
  addr : Nat
  data : List UInt8
  mType : MType
  eor : Bool
  ext : Option Nat
  pkthdr : Option Nat
  trailing : Nat
  deriving DecidableEq, Repr

abbrev Chain := List Mbuf

-- struct sockbuf. The records are linked through m_nextpkt.
structure Sockbuf where
  sbCc : Int
  sbMbcnt : Int
  sbHiwat : Int
  sbMbmax : Int
  sbMb : List Chain
  sbLastrecord : Option Nat
  sbMbtail : Option Nat
  deriving DecidableEq, Repr

-- The sizes of an mbuf: MSIZE, MLEN, MHLEN and MCLBYTES.
structure Sizes where
  msize : Nat
  positive : 0 < msize
  mlen : Nat
  mhlen : Nat
  mclbytes : Nat

def Mbuf.mLen (m : Mbuf) : Int := m.data.length
def Mbuf.space (z : Sizes) (m : Mbuf) : Int := z.msize + m.ext.getD 0

def sballoc (z : Sizes) (sb : Sockbuf) (m : Mbuf) : Sockbuf := {sb with sbCc := sb.sbCc + m.mLen,sbMbcnt := sb.sbMbcnt + m.space z}
def sbfree (z : Sizes) (sb : Sockbuf) (m : Mbuf) : Sockbuf := {sb with sbCc := sb.sbCc - m.mLen,sbMbcnt := sb.sbMbcnt - m.space z}
def sbspace (sb : Sockbuf) : Int := min (sb.sbHiwat - sb.sbCc) (sb.sbMbmax - sb.sbMbcnt)

-- An empty mbuf goes, unless it is the one to carry M_EOR.
def discarded (m : Mbuf) (rest : Chain) (n : Option Mbuf) (eor : Bool) : Bool :=
  m.data.isEmpty && (!eor || ((rest.head?.or n).any fun o => o.mType = m.mType))

def compacts (z : Sizes) (m n : Mbuf) : Bool :=
  !n.eor && m.data.length ≤ z.mclbytes / 4 && m.data.length ≤ n.trailing && n.mType = m.mType

def Mbuf.append (n m : Mbuf) : Mbuf := {n with data := n.data ++ m.data,trailing := n.trailing - m.data.length}

-- sbcompress: `done` is the record before n.
def compress (z : Sizes) (sb : Sockbuf) (done : Chain) (n : Option Mbuf) (eor : Bool) : Chain → Sockbuf × Chain × Option Mbuf × Bool
  | [] => (sb,done,n,eor)
  | m :: rest =>
    let eor := eor || m.eor
    if discarded m rest n eor then
      compress z {sb with sbLastrecord := if sb.sbLastrecord = some m.addr then rest.head?.map (·.addr) else sb.sbLastrecord} done n eor rest
    else
      match n with
      | some n =>
        if compacts z m n then compress z {sb with sbCc := sb.sbCc + m.mLen} done (some (n.append m)) eor rest
        else compress z (sballoc z {sb with sbMbtail := some m.addr} m) (done ++ [n]) (some {m with eor := false}) eor rest
      | none => compress z (sballoc z {sb with sbMbtail := some m.addr} m) done (some {m with eor := false}) eor rest

def sbcompress (z : Sizes) (sb : Sockbuf) (m : Chain) (done : Chain) (n : Option Mbuf) : Sockbuf × Chain :=
  let (sb,done,n,eor) := compress z sb done n false m
  (sb,done ++ (n.map fun n => {n with eor := n.eor || eor}).toList)

-- The record that starts at an address, with the records before and after it.
def recordAt (addr : Nat) : List Chain → Option (List Chain × Chain × List Chain)
  | [] => none
  | r :: rest =>
    if r.head?.map (·.addr) = some addr then some ([],r,rest)
    else (recordAt addr rest).map fun (before,found,after) => (r :: before,found,after)

-- SBLINKRECORDCHAIN, where sb_lastrecord becomes the first mbuf of the last record.
def sblinkrecordchain (sb : Sockbuf) (new : List Chain) : Except Halt Sockbuf :=
  let last := new.getLast?.bind fun r => r.head?.map (·.addr)
  match sb.sbLastrecord with
  | none => .ok {sb with sbMb := new,sbLastrecord := last}
  | some addr =>
    match recordAt addr sb.sbMb with
    | none => .error (.fault "sb_lastrecord")
    | some (before,found,_) => .ok {sb with sbMb := before ++ found :: new,sbLastrecord := last}

-- The chain behind the first mbuf takes its M_EOR over.
def handEor (m₀ : Mbuf) : Chain → Mbuf × Chain
  | [] => (m₀,[])
  | m :: rest => if m₀.eor then ({m₀ with eor := false},{m with eor := true} :: rest) else (m₀,m :: rest)

def sbappendrecord (z : Sizes) (sb : Sockbuf) : Chain → Except Halt Sockbuf
  | [] => .ok sb
  | m₀ :: rest => do
    let sb ← sblinkrecordchain (sballoc z sb m₀) [[m₀]]
    let (m₀,rest) := handEor m₀ rest
    let (sb,record) := sbcompress z sb rest [] (some m₀)
    .ok {sb with sbMb := sb.sbMb.dropLast ++ [record]}

def sbappend (z : Sizes) (sb : Sockbuf) : Chain → Except Halt Sockbuf
  | [] => .ok sb
  | m :: rest =>
    match sb.sbLastrecord with
    | none =>
      let (sb,record) := sbcompress z {sb with sbLastrecord := some m.addr} (m :: rest) [] none
      .ok (if record = [] then sb else {sb with sbMb := [record]})
    | some addr =>
      match recordAt addr sb.sbMb with
      | none => .error (.fault "sb_lastrecord")
      | some (before,found,after) =>
        if found.any (·.eor) then sbappendrecord z sb (m :: rest)
        else
          let (sb,record) := sbcompress z sb (m :: rest) found.dropLast found.getLast?
          .ok {sb with sbMb := before ++ record :: after}

-- The chain is linked behind sb_mbtail. If that is not the end of the record, what lies
-- behind it is lost as soon as an mbuf is linked there.
def sbappendstream (z : Sizes) (sb : Sockbuf) (m : Chain) : Except Halt Sockbuf :=
  if (sb.sbMb.head?.bind fun r => r.head?.map (·.addr)) ≠ sb.sbLastrecord then .error (.panic "sb->sb_mb == sb->sb_lastrecord")
  else
    match sb.sbMbtail, sb.sbMb with
    | none, records =>
      let (sb,record) := sbcompress z sb m [] none
      let records := if record = [] then records else [record]
      .ok {sb with sbMb := records,sbLastrecord := records.head?.bind fun r => r.head?.map (·.addr)}
    | some addr, record :: after =>
      let done := record.takeWhile (·.addr ≠ addr)
      match record.dropWhile (·.addr ≠ addr) with
      | [] => .error (.fault "sb_mbtail")
      | n :: lost =>
        let (sb,new) := sbcompress z sb m done (some n)
        let new := if new.length = done.length + 1 then new ++ lost else new
        .ok {sb with sbMb := new :: after,sbLastrecord := new.head?.map (·.addr)}
    | some _, [] => .error (.fault "sb_mbtail")

-- The trains that out-of-band data goes behind.
def oobTrain (r : Chain) : Bool := (r.dropWhile (·.mType = .mtControl)).head?.any fun m => m.mType = .mtOobdata

def sbinsertoob (z : Sizes) (sb : Sockbuf) : Chain → Except Halt Sockbuf
  | [] => .ok sb
  | m₀ :: rest =>
    let before := sb.sbMb.takeWhile oobTrain
    let after := sb.sbMb.dropWhile oobTrain
    let sb := sballoc z sb m₀
    let sb := if after = [] then {sb with sbLastrecord := some m₀.addr} else sb
    let (m₀,rest) := handEor m₀ rest
    let (sb,record) := sbcompress z sb rest [] (some m₀)
    .ok {sb with sbMb := before ++ record :: after}

def sballocChain (z : Sizes) (sb : Sockbuf) (r : Chain) : Sockbuf := r.foldl (sballoc z) sb
def sbfreeChain (z : Sizes) (sb : Sockbuf) (r : Chain) : Sockbuf := r.foldl (sbfree z) sb

-- SBLINKRECORD of a record that is not compressed.
def linkRecord (z : Sizes) (sb : Sockbuf) (r : Chain) : Except Halt Sockbuf := do
  let sb ← sblinkrecordchain (sballocChain z sb r) [r]
  .ok {sb with sbMbtail := r.getLast?.map (·.addr)}

-- How MGET and MEXTMALLOC answer.
structure Mget where
  addr : Option Nat
  ext : Bool

def pktLen (r : Chain) : Nat := (r.head?.bind (·.pkthdr)).getD 0

def sbappendaddr (z : Sizes) (sb : Sockbuf) (asa : List UInt8) (m₀ control : Chain) (got : Mget) : Except Halt (Sockbuf × Bool) :=
  if m₀.head?.any (·.pkthdr.isNone) then .error (.panic "sbappendaddr")
  else if asa.length + pktLen m₀ + (control.map (·.mLen)).sum > sbspace sb then .ok (sb,false)
  else
    match got.addr with
    | none => .ok (sb,false)
    | some addr =>
      if asa.length > z.mlen && !got.ext then .ok (sb,false)
      else do
        let big := asa.length > z.mlen
        let m : Mbuf := ⟨addr,asa,.mtSoname,false,if big then some asa.length else none,none,if big then 0 else z.mlen - asa.length⟩
        let sb ← linkRecord z sb (m :: (control ++ m₀))
        .ok (sb,true)

-- Prepends the address to the records of a chain as far as mbufs last, and counts them.
def prependSockaddrs (z : Sizes) (asa : List UInt8) (sb : Sockbuf) : List Chain → List (Option Nat) → Sockbuf × List Chain × Bool
  | [], _ => (sb,[],true)
  | r :: rest, got =>
    match got.head?.join with
    | none => (sb,[],false)
    | some addr =>
      let m : Mbuf := ⟨addr,asa,.mtSoname,false,none,some (asa.length + pktLen r),z.mhlen - asa.length⟩
      let (sb,new,all) := prependSockaddrs z asa (sballocChain z sb (m :: r)) rest got.tail
      (sb,(m :: r) :: new,all)

def sbappendaddrchain (z : Sizes) (sb : Sockbuf) (asa : List UInt8) (m₀ : List Chain) (got : List (Option Nat)) : Except Halt (Sockbuf × Bool) :=
  if (m₀.head?.bind (·.head?)).any (·.pkthdr.isNone) then .error (.panic "sbappendaddrchain")
  else if m₀ ≠ [] ∧ got.head?.join.isSome ∧ asa.length > z.mhlen then .error (.panic "salen <= MHLEN")
  else
    let (sb,new,all) := prependSockaddrs z asa sb m₀ got
    if !all then .ok (new.foldl (sbfreeChain z) sb,false)
    else do
      let sb ← sblinkrecordchain sb new
      match new.getLast? with
      | none => .error (.fault "nlast")
      | some r => .ok ({sb with sbMbtail := r.getLast?.map (·.addr)},true)

def sbappendcontrol (z : Sizes) (sb : Sockbuf) (m₀ control : Chain) : Except Halt (Sockbuf × Bool) :=
  if control = [] then .error (.panic "sbappendcontrol")
  else if ((control ++ m₀).map (·.mLen)).sum > sbspace sb then .ok (sb,false)
  else do
    let sb ← linkRecord z sb (control ++ m₀)
    .ok (sb,true)

def emptyFixup (sb : Sockbuf) : Sockbuf := if sb.sbMb = [] then {sb with sbMbtail := none,sbLastrecord := none} else sb

-- The loop of sbdrop that takes len bytes from the record m and those that follow.
def dropBytes (z : Sizes) : Sockbuf → Nat → Chain → List Chain → Except Halt (Sockbuf × Chain × List Chain)
  | sb, 0, m, next => .ok (sb,m,next)
  | _, _ + 1, [], [] => .error (.panic "sbdrop")
  | sb, len + 1, [], m :: next => dropBytes z sb (len + 1) m next
  | sb, len + 1, m :: rest, next =>
    if m.data.length > len + 1 then .ok ({sb with sbCc := sb.sbCc - (len + 1)},{m with data := m.data.drop (len + 1)} :: rest,next)
    else dropBytes z (sbfree z sb m) (len + 1 - m.data.length) rest next
  termination_by _ _ m next => m.length + (next.map fun r => r.length + 1).sum

-- Empty mbufs go with the bytes before them.
def dropEmpty (z : Sizes) (sb : Sockbuf) : Chain → Sockbuf × Chain
  | [] => (sb,[])
  | m :: rest => if m.data.isEmpty then dropEmpty z (sbfree z sb m) rest else (sb,m :: rest)

-- SB_EMPTY_FIXUP, and sb_lastrecord where part of the last record was dropped.
def settle (sb : Sockbuf) : Sockbuf :=
  match sb.sbMb with
  | [] => {sb with sbMbtail := none,sbLastrecord := none}
  | [r] => {sb with sbLastrecord := r.head?.map (·.addr)}
  | _ => sb

def sbdrop (z : Sizes) (sb : Sockbuf) (len : Nat) : Except Halt Sockbuf := do
  let (sb,m,next) ← dropBytes z sb len (sb.sbMb.headD []) sb.sbMb.tail
  let (sb,m) := dropEmpty z sb m
  .ok (settle {sb with sbMb := if m = [] then next else m :: next})

def sbdroprecord (z : Sizes) (sb : Sockbuf) : Sockbuf :=
  match sb.sbMb with
  | [] => emptyFixup sb
  | r :: rest => emptyFixup {sbfreeChain z sb r with sbMb := rest}

def flushed (sb : Sockbuf) : Except Halt Sockbuf :=
  if sb.sbCc = 0 ∧ sb.sbMb = [] ∧ sb.sbMbtail = none ∧ sb.sbLastrecord = none then .ok sb else .error (.panic "sbflush")

-- At most `rounds` rounds of the loop.
def sbflush (z : Sizes) : Nat → Sockbuf → Except Halt Sockbuf
  | 0, sb => if sb.sbMbcnt = 0 then flushed sb else .error .fuel
  | rounds + 1, sb =>
    if sb.sbMbcnt = 0 then flushed sb
    else do
      let sb ← sbdrop z sb sb.sbCc.toNat
      sbflush z rounds sb

-- What an mbuf adds to sb_cc and to sb_mbcnt, and what the two are.
def weight (z : Sizes) (m : Mbuf) : Int × Int := (m.mLen,m.space z)
def weigh (z : Sizes) (l : Chain) : Int × Int := (l.map (weight z)).sum
def counters (sb : Sockbuf) : Int × Int := (sb.sbCc,sb.sbMbcnt)
def addrs (l : Chain) : List Nat := l.map (·.addr)

-- None of the mbufs of a chain is linked behind n.
def absorbed (z : Sizes) (n : Mbuf) (eor : Bool) : Chain → Bool
  | [] => true
  | m :: rest =>
    let eor := eor || m.eor
    if discarded m rest (some n) eor then absorbed z n eor rest
    else if compacts z m n then absorbed z (n.append m) eor rest
    else false

variable {z : Sizes} {sb sb' : Sockbuf} {m n n' : Mbuf} {l rest done done' record : Chain} {eor eor' : Bool} {new : List Nat}

@[simp] theorem weigh_nil : weigh z [] = 0 := rfl
@[simp] theorem weigh_cons : weigh z (m :: l) = weight z m + weigh z l := by simp [weigh]
@[simp] theorem weigh_append : weigh z (l ++ rest) = weigh z l + weigh z rest := by simp [weigh]

@[simp] theorem addrs_nil : addrs [] = [] := rfl
@[simp] theorem addrs_cons : addrs (m :: l) = m.addr :: addrs l := rfl
@[simp] theorem addrs_append : addrs (l ++ rest) = addrs l ++ addrs rest := List.map_append

@[simp] theorem counters_sballoc : counters (sballoc z sb m) = counters sb + weight z m := rfl
@[simp] theorem counters_sbfree : counters (sbfree z sb m) = counters sb - weight z m := rfl

@[simp] theorem weight_append : weight z (n.append m) = weight z n + (m.mLen,0) := by
  simp [weight,Mbuf.append,Mbuf.mLen,Mbuf.space]

@[simp] theorem weight_eor : weight z {m with eor := eor} = weight z m := rfl
@[simp] theorem addr_append : (n.append m).addr = n.addr := rfl

structure Compressed (z : Sizes) (sb : Sockbuf) (done : Chain) (n : Mbuf) (eor : Bool) (m : Chain) (sb' : Sockbuf) (record : Chain) (new : List Nat) : Prop where
  counters : counters sb' + weigh z (done ++ [n]) = counters sb + weigh z record
  mb : sb'.sbMb = sb.sbMb
  addrs : addrs record = addrs (done ++ [n]) ++ new
  linked : new.Sublist (Sockbuf.addrs m)
  tail : sb'.sbMbtail = new.getLast?.or sb.sbMbtail
  none : new = [] ↔ absorbed z n eor m = true
  last : (∀ a ∈ sb.sbLastrecord,a ∉ Sockbuf.addrs m) → sb'.sbLastrecord = sb.sbLastrecord

theorem compress_spec (z : Sizes) (sb : Sockbuf) (done : Chain) (n : Mbuf) (eor : Bool) (m : Chain) : ∃ sb' done' n' eor' new,
    compress z sb done (some n) eor m = (sb',done',some n',eor') ∧ Compressed z sb done n eor m sb' (done' ++ [n']) new := by
  induction m generalizing sb done n eor with
  | nil => exact ⟨_,_,_,_,[],rfl,rfl,rfl,by simp,.slnil,rfl,by simp [absorbed],fun _ => rfl⟩
  | cons m rest ih =>
    by_cases drop : discarded m rest (some n) (eor || m.eor) = true
    · obtain ⟨sb',done',n',eor',new,ran,spec⟩ :=
        ih {sb with sbLastrecord := if sb.sbLastrecord = some m.addr then rest.head?.map (·.addr) else sb.sbLastrecord} done n (eor || m.eor)
      refine ⟨sb',done',n',eor',new,?_,spec.counters,spec.mb,spec.addrs,spec.linked.cons _,spec.tail,?_,fun other => ?_⟩
      · simp only [compress,drop,if_true]
        exact ran
      · rw [spec.none,absorbed]
        simp [drop]
      have differs : sb.sbLastrecord ≠ some m.addr := fun same => other _ same (by simp)
      have := spec.last fun a mem => by
        rw [if_neg differs] at mem
        exact fun inside => other a mem (by simp [inside])
      rw [this,if_neg differs]
    by_cases fits : compacts z m n = true
    · obtain ⟨sb',done',n',eor',new,ran,spec⟩ := ih {sb with sbCc := sb.sbCc + m.mLen} done (n.append m) (eor || m.eor)
      refine ⟨sb',done',n',eor',new,?_,?_,spec.mb,?_,spec.linked.cons _,spec.tail,?_,fun other => ?_⟩
      · simp only [compress,drop,fits,if_true,Bool.false_eq_true,if_false]
        exact ran
      · have count := spec.counters
        have more : counters {sb with sbCc := sb.sbCc + m.mLen} = counters sb + (m.mLen,0) := by simp [Sockbuf.counters]
        rw [more] at count
        simp only [weigh_append,weigh_cons,weigh_nil,weight_append] at count ⊢
        have cancel : counters sb' + (weigh z done + (weight z n + 0)) + (m.mLen,0) =
            counters sb + (weigh z done' + (weight z n' + 0)) + (m.mLen,0) := by
          calc _ = counters sb' + (weigh z done + (weight z n + (m.mLen,0) + 0)) := by abel
            _ = _ := by rw [count]; abel
        exact add_right_cancel cancel
      · simpa using spec.addrs
      · rw [spec.none,absorbed]
        simp [drop,fits]
      · exact spec.last fun a mem inside => other a mem (by simp [inside])
    obtain ⟨sb',done',n',eor',new,ran,spec⟩ := ih (sballoc z {sb with sbMbtail := some m.addr} m) (done ++ [n]) {m with eor := false} (eor || m.eor)
    refine ⟨sb',done',n',eor',m.addr :: new,?_,?_,spec.mb,?_,spec.linked.cons₂ _,?_,?_,fun other => ?_⟩
    · simp only [compress,drop,fits,Bool.false_eq_true,if_false]
      exact ran
    · have count := spec.counters
      have more : counters (sballoc z {sb with sbMbtail := some m.addr} m) = counters sb + weight z m := rfl
      rw [more] at count
      simp only [weigh_append,weigh_cons,weigh_nil,weight_eor] at count ⊢
      have cancel : counters sb' + (weigh z done + (weight z n + 0)) + weight z m =
          counters sb + (weigh z done' + (weight z n' + 0)) + weight z m := by
        calc _ = counters sb' + (weigh z done + (weight z n + 0) + (weight z m + 0)) := by abel
          _ = _ := by rw [count]; abel
      exact add_right_cancel cancel
    · rw [spec.addrs]
      simp
    · rw [spec.tail,List.getLast?_cons]
      cases new.getLast? with
      | none => rfl
      | some a => rfl
    · simp [absorbed,drop,fits]
    · exact spec.last fun a mem inside => other a mem (by simp [inside])

theorem sbcompress_spec (z : Sizes) (sb : Sockbuf) (m done : Chain) (n : Mbuf) : ∃ sb' record new,
    sbcompress z sb m done (some n) = (sb',record) ∧ Compressed z sb done n false m sb' record new := by
  obtain ⟨sb',done',n',eor',new,ran,spec⟩ := compress_spec z sb done n false m
  refine ⟨sb',done' ++ [{n' with eor := n'.eor || eor'}],new,?_,?_,spec.mb,?_,spec.linked,spec.tail,spec.none,spec.last⟩
  · simp [sbcompress,ran]
  · simpa using spec.counters
  · simpa using spec.addrs

structure Filled (z : Sizes) (sb : Sockbuf) (m : Chain) (sb' : Sockbuf) (record : Chain) : Prop where
  counters : counters sb' = counters sb + weigh z record
  mb : sb'.sbMb = sb.sbMb
  linked : (addrs record).Sublist (addrs m)
  tail : sb'.sbMbtail = (addrs record).getLast?.or sb.sbMbtail
  last : (addrs m).Nodup → sb.sbLastrecord = (addrs m).head? → sb'.sbLastrecord = (addrs record).head?

theorem compress_empty (z : Sizes) (sb : Sockbuf) (eor : Bool) (m : Chain) : ∃ sb' done' n' eor',
    compress z sb [] none eor m = (sb',done',n',eor') ∧ Filled z sb m sb' (done' ++ n'.toList) := by
  induction m generalizing sb eor with
  | nil => exact ⟨_,_,_,_,rfl,by simp,rfl,by simp,rfl,fun _ same => same⟩
  | cons m rest ih =>
    by_cases drop : discarded m rest none (eor || m.eor) = true
    · obtain ⟨sb',done',n',eor',ran,spec⟩ :=
        ih {sb with sbLastrecord := if sb.sbLastrecord = some m.addr then rest.head?.map (·.addr) else sb.sbLastrecord} (eor || m.eor)
      refine ⟨sb',done',n',eor',?_,spec.counters,spec.mb,spec.linked.cons _,spec.tail,fun nodup same => spec.last (List.nodup_cons.mp nodup).2 ?_⟩
      · simp only [compress,drop,if_true]
        exact ran
      have first : sb.sbLastrecord = some m.addr := same
      simp [first,addrs]
    obtain ⟨sb',done',n',eor',new,ran,spec⟩ := compress_spec z (sballoc z {sb with sbMbtail := some m.addr} m) [] {m with eor := false} (eor || m.eor) rest
    have listed : addrs (done' ++ [n']) = m.addr :: new := by simpa using spec.addrs
    refine ⟨sb',done',some n',eor',?_,?_,spec.mb,?_,?_,fun nodup same => ?_⟩
    · simp only [compress,drop,Bool.false_eq_true,if_false]
      exact ran
    · have count := spec.counters
      have more : counters (sballoc z {sb with sbMbtail := some m.addr} m) = counters sb + weight z m := rfl
      rw [more] at count
      simp only [List.nil_append,weigh_cons,weigh_nil,weight_eor,Option.toList_some] at count ⊢
      have cancel : counters sb' + weight z m = counters sb + weigh z (done' ++ [n']) + weight z m := by
        calc _ = counters sb' + (weight z m + 0) := by abel
          _ = _ := by rw [count]; abel
      exact add_right_cancel cancel
    · rw [Option.toList_some,listed]
      exact spec.linked.cons₂ _
    · rw [Option.toList_some,listed,spec.tail,List.getLast?_cons]
      cases new.getLast? with
      | none => rfl
      | some a => rfl
    rw [Option.toList_some,listed]
    have first : sb.sbLastrecord = some m.addr := same
    have kept := spec.last fun a mem inside => by
      have here : a = m.addr := by
        have : (sballoc z {sb with sbMbtail := some m.addr} m).sbLastrecord = some m.addr := first
        rw [this] at mem
        exact (Option.some.inj mem).symm
      subst here
      exact (List.nodup_cons.mp nodup).1 inside
    rw [kept]
    exact first

theorem sbcompress_empty (z : Sizes) (sb : Sockbuf) (m : Chain) : ∃ sb' record,sbcompress z sb m [] none = (sb',record) ∧ Filled z sb m sb' record := by
  obtain ⟨sb',done',n',eor',ran,spec⟩ := compress_empty z sb false m
  refine ⟨sb',done' ++ (n'.map fun n => {n with eor := n.eor || eor'}).toList,by simp [sbcompress,ran],?_⟩
  cases n' with
  | none => exact spec
  | some n' =>
    refine ⟨?_,spec.mb,?_,?_,fun nodup same => ?_⟩
    · simpa using spec.counters
    · simpa using spec.linked
    · simpa using spec.tail
    · simpa using spec.last nodup same
end NetbsdAvr32.Sockbuf
