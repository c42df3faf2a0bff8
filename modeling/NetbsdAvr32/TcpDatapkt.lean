import NetbsdAvr32.SockbufExact
import NetbsdAvr32.TcpOutput

-- The copy of the send buffer by tcp_build_datapkt, and the mbuf it remembers for the next one.
namespace NetbsdAvr32.TcpDatapkt
open Sockbuf TcpOutput List Outcome Option Nat Bool

-- The send buffer of a connection, with t_lastm by its address.
structure Snd where
  sb : Sockbuf
  tLastm : Option Nat
  tInoff : Nat
  tLastoff : Int
  tLastlen : Nat
  deriving DecidableEq, Repr

-- so_snd.sb_mb: a stream has one record.
def chain (w : Snd) : Chain := w.sb.sbMb.headD []
def content (m : Chain) : List UInt8 := (m.map (·.data)).flatten

-- The mbuf at an address, with those behind it. It is an error to follow an mbuf that was freed.
def mbufAt (m : Chain) (addr : Nat) : Except Halt Chain :=
  match m.dropWhile (·.addr ≠ addr) with
  | [] => .error (.fault "t_lastm")
  | found => .ok found

-- The loop that goes to the mbuf with the byte at an offset.
def seek (why : String) : Nat → Chain → Except Halt (Nat × Chain)
  | 0, m => .ok (0,m)
  | _ + 1, [] => .error (.panic why)
  | off + 1, m :: rest => if off + 1 < m.data.length then .ok (off + 1,m :: rest) else seek why (off + 1 - m.data.length) rest

def copyBytes (why : String) : Nat → Nat → Chain → Except Halt (List UInt8)
  | _, 0, _ => .ok []
  | _, _ + 1, [] => .error (.panic why)
  | off, len + 1, m :: rest => do
    let count := min (m.data.length - off) (len + 1)
    let more ← copyBytes why 0 (len + 1 - count) rest
    .ok ((m.data.drop off).take count ++ more)

def mCopydata (m : Chain) (off len : Nat) : Except Halt (List UInt8) := do
  let (off,m) ← seek "m_copydata" off m
  copyBytes "m_copydata" off len m

-- NULL where an mbuf cannot be had, or nothing is to be copied.
def mCopym (got : Bool) (m : Chain) (off len : Nat) : Except Halt (Option (List UInt8)) :=
  if off = 0 ∧ m = [] then .error (.fault "m_copym")
  else do
    let (off,m) ← seek "m_copym" off m
    let data ← copyBytes "m_copym" off len m
    .ok (if got && len ≠ 0 then some data else none)

-- Where the search for off begins: at t_lastm where the data follows the previous transfer.
def predict (w : Snd) (off : Nat) : Except Halt (Nat × Chain) :=
  match w.tLastm with
  | none => .ok (off,chain w)
  | some a => if off = 0 ∨ w.tLastoff + w.tLastlen ≠ off then .ok (off,chain w) else (mbufAt (chain w) a).map (w.tInoff + w.tLastlen,·)

-- The data of the packet, or none for ENOBUFS.
def tcpBuildDatapkt (w : Snd) (off len : Nat) (env : Env) : Except Halt (Snd × Option (List UInt8)) :=
  if !headerMbuf env then .ok (w,none)
  else do
    let (inoff,m) ← predict w off
    let (inoff,m) ← seek "tp->t_lastm == NULL" inoff m
    let w := {w with tLastm := m.head?.map (·.addr),tInoff := inoff,tLastoff := off,tLastlen := len}
    if (len : Int) ≤ trailingSpace env then
      let data ← mCopydata m inoff len
      .ok (w,some data)
    else
      let data ← mCopym env.mcopym m inoff len
      .ok (w,data)

-- The pure acknowledgement of tcp_input that was predicted.
def predictedAck (z : Sizes) (w : Snd) (acked : Nat) : Except Halt Snd := do
  let sb ← sbdrop z w.sb acked
  .ok {w with sb := sb,tLastm := if acked > w.tLastoff - w.tInoff then none else w.tLastm,tLastoff := w.tLastoff - acked}

-- Any other acknowledgement of new data. Only the second branch looks at t_lastm.
def newAck (z : Sizes) (w : Snd) (acked : Nat) : Except Halt Snd :=
  if acked > w.sb.sbCc then do
    let sb ← sbdrop z w.sb w.sb.sbCc.toNat
    .ok {w with sb := sb}
  else do
    let sb ← sbdrop z w.sb acked
    .ok {w with sb := sb,tLastm := if acked > w.tLastoff - w.tInoff then none else w.tLastm,tLastoff := w.tLastoff - acked}

inductive Op where
  | append (m : Chain)
  | predictedAck (acked : Nat)
  | newAck (acked : Nat)
  | build (off len : Nat) (env : Env)

def step (z : Sizes) (w : Snd) : Op → Except Halt Snd
  | .append m => (sbappendstream z w.sb m).map fun sb => {w with sb := sb}
  | .predictedAck acked => predictedAck z w acked
  | .newAck acked => newAck z w acked
  | .build off len env => (tcpBuildDatapkt w off len env).map Prod.fst

-- The bytes that are in the send buffer after a call.
def Op.stream (stream : List UInt8) : Op → List UInt8
  | .append m => stream ++ content m
  | .predictedAck acked => stream.drop acked
  | .newAck acked => stream.drop acked
  | .build .. => stream

-- tcp_output calls tcp_build_datapkt only with a len.
def Within (w : Snd) (off len : Nat) : Prop := len ≠ 0 ∧ off + len ≤ w.sb.sbCc

def Allowed (w : Snd) : Op → Prop
  | .append m => Fresh w.sb (addrs m)
  | .build off len _ => Within w off len
  | _ => True

inductive Run (z : Sizes) (meets : Snd → Op → Prop) : List UInt8 → Snd → Prop where
  | start {w : Snd} (empty : w.sb.sbMb = []) (zero : counters w.sb = 0) (none : w.sb.sbLastrecord = none ∧ w.sb.sbMbtail = none)
      (unset : w.tLastm = .none) : Run z meets [] w
  | step {stream : List UInt8} {w w' : Snd} {op : Op} (run : Run z meets stream w) (allowed : Allowed w op) (met : meets w op)
      (ran : step z w op = .ok w') : Run z meets (op.stream stream) w'

-- Where the mbuf at an address begins, and how many bytes it has.
def place (a : Nat) : Chain → Option (Nat × Nat)
  | [] => none
  | m :: rest => if m.addr = a then some (0,m.data.length) else (place a rest).map fun (k,n) => (m.data.length + k,n)

-- t_lastm is not an empty mbuf that begins where the acknowledged bytes end.
def Stays (w : Snd) (acked : Nat) : Prop := ∀ a,w.tLastm = some a → place a (chain w) ≠ some (acked,0)

-- The condition: while t_lastm is set, no more is acknowledged than the buffer holds.
def Meets (w : Snd) : Op → Prop
  | .predictedAck acked => Stays w acked
  | .newAck acked => (w.tLastm = none ∨ acked ≤ w.sb.sbCc) ∧ Stays w acked
  | _ => True

-- The mbufs that tcp_build_datapkt needs can be had.
def Supplied (env : Env) (len : Nat) : Prop := headerMbuf env = true ∧ (len ≤ trailingSpace env ∨ env.mcopym = true)

structure Holds (stream : List UInt8) (w : Snd) : Prop where
  bytes : content (chain w) = stream
  live : ∀ a,w.tLastm = some a → a ∈ addrs (chain w)
  copies : ∀ off len env,Within w off len → ∃ w' data,tcpBuildDatapkt w off len env = .ok (w',data) ∧
    (data = some ((stream.drop off).take len) ∧ Supplied env len ∨ data = none ∧ ¬Supplied env len)

-- What every call keeps: the distance of t_lastoff to t_inoff is where t_lastm begins.
structure Kept (z : Sizes) (stream : List UInt8) (w : Snd) : Prop where
  buffer : Inv z w.sb
  one : w.sb.sbMb.length ≤ 1
  filled : content (chain w) = stream
  cached : ∀ a,w.tLastm = some a → ∃ k n,place a (chain w) = some (k,n) ∧ k + w.tInoff = w.tLastoff

variable {z : Sizes} {sb sb' : Sockbuf} {w w' : Snd} {m m' rest done done' : Chain} {x n : Mbuf} {next next' : List Chain} {a k l off len acked : Nat}
  {why : String} {stream : List UInt8} {env : Env} {op : Op} {eor eor' : Bool}

@[simp] theorem content_nil : content [] = [] := rfl
@[simp] theorem content_cons : content (x :: rest) = x.data ++ content rest := rfl
@[simp] theorem content_append : content (m ++ rest) = content m ++ content rest := by simp [content]

@[simp] theorem bytes_cons : bytes (x :: rest) = x.data.length + bytes rest := rfl
@[simp] theorem bytes_append : bytes (m ++ rest) = bytes m + bytes rest := by simp [bytes]
theorem content_length (m : Chain) : (content m).length = bytes m := by simp [content,bytes,Function.comp_def]

theorem place_append (a : Nat) (m rest : Chain) :
    place a (m ++ rest) = (place a m).or ((place a rest).map fun (k,n) => (bytes m + k,n)) := by
  induction m with
  | nil => simp [place,bytes]
  | cons x m ih =>
    rw [cons_append,place,place]
    split
    · rfl
    rw [ih]
    cases place a m with
    | some => rfl
    | none => simp [Function.comp_def,add_assoc]

theorem place_cons (found : place a (x :: rest) = some (k,l)) : x.addr = a ∧ k = 0 ∧ l = x.data.length ∨
    x.addr ≠ a ∧ ∃ k',place a rest = some (k',l) ∧ k = x.data.length + k' := by
  rw [place] at found
  split at found
  · next same =>
    cases found
    exact .inl ⟨same,rfl,rfl⟩
  next other =>
  obtain ⟨⟨k',l⟩,later,same⟩ := map_eq_some_iff.mp found
  cases same
  exact .inr ⟨other,k',later,rfl⟩

theorem place_mem (found : place a m = some (k,l)) : a ∈ addrs m := by
  induction m generalizing k with
  | nil => cases found
  | cons x rest ih =>
    rcases place_cons found with ⟨rfl,_⟩ | ⟨_,k',later,_⟩
    · exact mem_cons_self ..
    · exact mem_cons_of_mem _ (ih later)

theorem place_absent (absent : a ∉ addrs m) : place a m = none := by
  cases found : place a m with
  | none => rfl
  | some p => exact absurd (place_mem found) absent

theorem place_of (distinct : (addrs (done ++ x :: rest)).Nodup) : place x.addr (done ++ x :: rest) = some (bytes done,x.data.length) := by
  have apart : x.addr ∉ addrs done := fun mem => by
    rw [addrs_append] at distinct
    exact (nodup_append.mp distinct).2.2 x.addr mem x.addr (by simp) rfl
  rw [place_append,place_absent apart]
  simp [place]

theorem mbufAt_place (found : place a m = some (k,l)) : ∃ done rest,mbufAt m a = .ok rest ∧ m = done ++ rest ∧ bytes done = k := by
  induction m generalizing k with
  | nil => cases found
  | cons x m ih =>
    rcases place_cons found with ⟨same,rfl,rfl⟩ | ⟨other,k',later,rfl⟩
    · exact ⟨[],x :: m,by simp [mbufAt,same],rfl,rfl⟩
    obtain ⟨done,rest,ran,split,size⟩ := ih later
    refine ⟨x :: done,rest,?_,by rw [split]; rfl,by simp [size]⟩
    simpa [mbufAt,other] using ran

def Inside (off : Nat) (m : Chain) : Prop := off = 0 ∨ ∃ x rest,m = x :: rest ∧ off < x.data.length

theorem seek_spec (why : String) (enough : off ≤ bytes m) : ∃ off' done rest,seek why off m = .ok (off',rest) ∧ m = done ++ rest ∧
    bytes done + off' = off ∧ Inside off' rest := by
  fun_induction seek why off m with
  | case1 m => exact ⟨0,[],m,rfl,rfl,rfl,.inl rfl⟩
  | case2 off => simp [bytes] at enough
  | case3 off x rest less => exact ⟨off + 1,[],x :: rest,rfl,rfl,by simp [bytes],.inr ⟨x,rest,rfl,less⟩⟩
  | case4 off x rest less ih =>
    rw [bytes_cons] at enough
    obtain ⟨off',done,m,ran,split,size,inside⟩ := ih (by omega)
    refine ⟨off',x :: done,m,ran,by rw [split]; rfl,?_,inside⟩
    rw [bytes_cons]
    omega

theorem copyBytes_spec (why : String) (enough : off + len ≤ bytes m) (inside : Inside off m) :
    copyBytes why off len m = .ok (((content m).drop off).take len) := by
  induction m generalizing off len with
  | nil =>
    obtain rfl : len = 0 := by
      simp [bytes] at enough
      omega
    rfl
  | cons x rest ih =>
    cases len with
    | zero => rfl
    | succ len =>
      have within : off ≤ x.data.length := by
        rcases inside with rfl | ⟨_,_,same,less⟩
        · exact zero_le _
        cases same
        exact le_of_lt less
      rw [bytes_cons] at enough
      rw [copyBytes,ih (by omega) (.inl rfl),content_cons,drop_append_of_le_length within,take_append,length_drop]
      have here : (x.data.drop off).take (min (x.data.length - off) (len + 1)) = (x.data.drop off).take (len + 1) := by
        rw [← length_drop,min_comm,← take_eq_take_min]
      have left : len + 1 - min (x.data.length - off) (len + 1) = len + 1 - (x.data.length - off) := by omega
      simp only [ok_bind,here,left,drop_zero]
theorem seek_copy (why : String) (enough : off + len ≤ bytes m) : ∃ off' rest,seek why off m = .ok (off',rest) ∧
    copyBytes why off' len rest = .ok (((content m).drop off).take len) := by
  obtain ⟨off',done,rest,ran,rfl,size,inside⟩ := seek_spec why (le_of_add_right_le enough)
  rw [bytes_append] at enough
  refine ⟨off',rest,ran,?_⟩
  rw [copyBytes_spec why (by omega) inside,content_append,← size,← content_length,drop_length_add_append]

theorem mCopydata_spec (enough : off + len ≤ bytes m) : mCopydata m off len = .ok (((content m).drop off).take len) := by
  obtain ⟨off',rest,ran,copied⟩ := seek_copy "m_copydata" enough
  simp [mCopydata,ran,copied]

theorem mCopym_spec (got : Bool) (enough : off + len ≤ bytes m) (some_ : len ≠ 0) :
    mCopym got m off len = .ok (if got then some (((content m).drop off).take len) else none) := by
  obtain ⟨off',rest,ran,copied⟩ := seek_copy "m_copym" enough
  have filled : ¬(off = 0 ∧ m = []) := by
    rintro ⟨rfl,rfl⟩
    exact some_ (by simpa [bytes] using enough)
  simp [mCopym,filled,ran,copied,some_]

theorem chain_flatten (one : w.sb.sbMb.length ≤ 1) : w.sb.sbMb.flatten = chain w := by
  unfold chain
  match w.sb.sbMb, one with
  | [], _ => rfl
  | [r], _ => simp

variable (kept : Kept z stream w)
include kept

theorem Kept.cc : w.sb.sbCc = bytes (chain w) := by rw [kept.buffer.cc,chain_flatten kept.one]
theorem Kept.distinct : (addrs (chain w)).Nodup := chain_flatten kept.one ▸ kept.buffer.distinct

theorem Kept.search (off : Nat) : ∃ off' done rest,predict w off = .ok (off',rest) ∧ chain w = done ++ rest ∧ bytes done + off' = off := by
  unfold predict
  cases set : w.tLastm with
  | none => exact ⟨off,[],chain w,rfl,rfl,by simp [bytes]⟩
  | some a =>
    dsimp only
    split
    · exact ⟨off,[],chain w,rfl,rfl,by simp [bytes]⟩
    next follows =>
    obtain ⟨k,l,found,apart⟩ := kept.cached a set
    obtain ⟨done,rest,ran,split,size⟩ := mbufAt_place found
    refine ⟨_,done,rest,by rw [ran]; rfl,split,?_⟩
    push_neg at follows
    omega

theorem Kept.build (within : Within w off len) (env : Env) : ∃ w' data,tcpBuildDatapkt w off len env = .ok (w',data) ∧ Kept z stream w' ∧
    (data = some ((stream.drop off).take len) ∧ Supplied env len ∨ data = none ∧ ¬Supplied env len) := by
  obtain ⟨some_,fits⟩ := within
  have cc := kept.cc
  unfold tcpBuildDatapkt
  by_cases header : headerMbuf env = true
  · obtain ⟨off₁,done₁,rest₁,began,split₁,size₁⟩ := kept.search off
    have total := congrArg bytes split₁
    rw [bytes_append] at total
    obtain ⟨off₂,done₂,rest₂,ran,split₂,size₂,_⟩ := seek_spec "tp->t_lastm == NULL" (show off₁ ≤ bytes rest₁ by omega)
    have total₂ := congrArg bytes split₂
    rw [bytes_append] at total₂
    have data : ((content rest₂).drop off₂).take len = (stream.drop off).take len := by
      rw [← kept.filled,split₁,split₂,content_append,content_append,← size₁,← size₂]
      simp only [← content_length,drop_length_add_append,add_assoc]
    have kept' : Kept z stream {w with tLastm := rest₂.head?.map (·.addr),tInoff := off₂,tLastoff := off,tLastlen := len} := by
      refine ⟨kept.buffer,kept.one,kept.filled,fun a set => ?_⟩
      obtain ⟨x,first,rfl⟩ := map_eq_some_iff.mp set
      obtain ⟨rest,rfl⟩ := head?_eq_some_iff.mp first
      have whole : chain w = (done₁ ++ done₂) ++ x :: rest := by rw [split₁,split₂,append_assoc]
      have distinct := kept.distinct
      rw [whole] at distinct
      refine ⟨bytes (done₁ ++ done₂),x.data.length,?_,?_⟩
      · exact (congrArg (place x.addr) whole).trans (place_of distinct)
      rw [bytes_append]
      dsimp only
      omega
    simp only [header,began,ran,ok_bind,Bool.not_true,Bool.false_eq_true,if_false]
    by_cases small : (len : Int) ≤ trailingSpace env
    · simp only [small,if_true,mCopydata_spec (show off₂ + len ≤ bytes rest₂ by omega),ok_bind]
      exact ⟨_,_,rfl,kept',.inl ⟨by rw [data],header,.inl small⟩⟩
    simp only [small,if_false,mCopym_spec env.mcopym (show off₂ + len ≤ bytes rest₂ by omega) some_,ok_bind]
    refine ⟨_,_,rfl,kept',?_⟩
    cases got : env.mcopym with
    | true => exact .inl ⟨by simp [data],header,.inr got⟩
    | false => exact .inr ⟨rfl,fun supplied => by simp [small,got,Supplied] at supplied⟩
  · simp only [header,Bool.not_false,if_true]
    exact ⟨_,_,rfl,kept,.inr ⟨rfl,fun supplied => header supplied.1⟩⟩

omit kept

theorem compress_keeps (z : Sizes) (sb : Sockbuf) (done : Chain) (n : Mbuf) (eor : Bool) (m : Chain) : ∃ sb' done' n' eor' x rest,
    compress z sb done (some n) eor m = (sb',done',some n',eor') ∧ done' ++ [n'] = done ++ x :: rest ∧ x.addr = n.addr ∧
      content (x :: rest) = n.data ++ content m := by
  induction m generalizing sb done n eor with
  | nil => exact ⟨sb,done,n,eor,n,[],rfl,rfl,rfl,rfl⟩
  | cons m l ih =>
    by_cases drop : discarded m l (some n) (eor || m.eor) = true
    · have empty : m.data = [] := by
        simp only [discarded,and_eq_true,List.isEmpty_iff] at drop
        exact drop.1
      simp only [compress,drop,if_true,content_cons,empty,nil_append]
      exact ih ..
    by_cases fits : compacts z m n = true
    · simp only [compress,drop,fits,if_true,false_eq_true,if_false]
      obtain ⟨sb',done',n',eor',x,rest,ran,split,same,bytes⟩ := ih {sb with sbCc := sb.sbCc + m.mLen} done (n.append m) (eor || m.eor)
      exact ⟨sb',done',n',eor',x,rest,ran,split,same,bytes.trans (append_assoc ..)⟩
    simp only [compress,drop,fits,false_eq_true,if_false]
    obtain ⟨sb',done',n',eor',x,rest,ran,split,_,bytes⟩ :=
      ih (sballoc z {sb with sbMbtail := some m.addr} m) (done ++ [n]) {m with eor := false} (eor || m.eor)
    refine ⟨sb',done',n',eor',n,x :: rest,ran,split.trans (append_assoc ..),rfl,?_⟩
    rw [content_cons,bytes]
    rfl

theorem eor_keeps (done : Chain) (n : Mbuf) (eor : Bool) :
    place a (done ++ [{n with eor := eor}]) = place a (done ++ [n]) ∧ content (done ++ [{n with eor := eor}]) = content (done ++ [n]) := by
  constructor
  · rw [place_append,place_append]
    rfl
  rw [content_append,content_append]
  rfl

theorem sbcompress_keeps (z : Sizes) (sb : Sockbuf) (m done : Chain) (n : Option Mbuf) (empty : n = none → done = []) :
    content (sbcompress z sb m done n).2 = content (done ++ n.toList) ++ content m ∧
      ∀ a k l,place a (done ++ n.toList) = some (k,l) → ∃ l',place a (sbcompress z sb m done n).2 = some (k,l') := by
  cases n with
  | some n =>
    obtain ⟨sb',done',n',eor',x,rest,ran,split,same,bytes⟩ := compress_keeps z sb done n false m
    simp only [sbcompress,ran,map_some,toList_some]
    refine ⟨?_,fun a k l found => ?_⟩
    · rw [(eor_keeps (a := 0) done' n' _).2,split,content_append,bytes,content_append,append_assoc]
      simp [content]
    rw [(eor_keeps done' n' _).1,split,place_append,place,same]
    rw [place_append,place] at found
    cases before : place a done with
    | some p =>
      rw [before] at found
      exact ⟨l,found⟩
    | none =>
      rw [before] at found
      split at found
      · next here =>
        simp only [here,if_true]
        cases found
        exact ⟨_,rfl⟩
      · cases found
  | none =>
    obtain rfl := empty rfl
    refine ⟨?_,fun _ _ _ found => by cases found⟩
    have fill : ∀ sb eor,∃ sb' done' n' eor',compress z sb [] none eor m = (sb',done',n',eor') ∧ content (done' ++ n'.toList) = content m := by
      induction m with
      | nil => exact fun sb eor => ⟨sb,[],none,eor,rfl,rfl⟩
      | cons m l ih =>
        intro sb eor
        by_cases drop : discarded m l none (eor || m.eor) = true
        · have none_ : m.data = [] := by
            simp only [discarded,and_eq_true,List.isEmpty_iff] at drop
            exact drop.1
          simp only [compress,drop,if_true,content_cons,none_,nil_append]
          exact ih ..
        simp only [compress,drop,false_eq_true,if_false]
        obtain ⟨sb',done',n',eor',x,rest,ran,split,_,bytes⟩ :=
          compress_keeps z (sballoc z {sb with sbMbtail := some m.addr} m) [] {m with eor := false} (eor || m.eor) l
        exact ⟨sb',done',some n',eor',ran,(congrArg content split).trans bytes⟩
    obtain ⟨sb',done',n',eor',ran,same⟩ := fill sb false
    cases n' with
    | none => simpa [sbcompress,ran] using same
    | some n' =>
      simp only [sbcompress,ran,map_some,toList_some]
      rw [(eor_keeps (a := 0) done' n' _).2]
      exact same

theorem Kept.append (kept : Kept z stream w) (fresh : Fresh w.sb (addrs m)) (ran : sbappendstream z w.sb m = .ok sb) :
    Kept z (stream ++ content m) {w with sb := sb} := by
  obtain ⟨_,ran',inv,one,done,n,before,after,empty⟩ := sbappendstream_inv kept.buffer fresh kept.one
  cases ran.symm.trans ran'
  have keeps := sbcompress_keeps z w.sb m done n empty
  rw [← before,← after] at keeps
  refine ⟨inv,one,?_,fun a set => ?_⟩
  · rw [← kept.filled]
    exact keeps.1
  obtain ⟨k,l,found,apart⟩ := kept.cached a set
  obtain ⟨l',found'⟩ := keeps.2 a k l found
  exact ⟨k,l',found',apart⟩

theorem dropBytes_keeps (ran : dropBytes z sb len m [] = .ok (sb',m',next')) : len ≤ bytes m ∧ next' = [] ∧ content m' = (content m).drop len ∧
    ∀ a k l,place a m = some (k,l) → len ≤ k → place a m' = some (k - len,l) := by
  induction m generalizing sb len with
  | nil =>
    cases len with
    | zero =>
      rw [dropBytes] at ran
      cases ran
      exact ⟨le_refl _,rfl,rfl,fun _ _ _ found => by cases found⟩
    | succ len =>
      rw [dropBytes] at ran
      cases ran
  | cons x rest ih =>
    cases len with
    | zero =>
      rw [dropBytes] at ran
      cases ran
      exact ⟨zero_le _,rfl,rfl,fun a k l found _ => found⟩
    | succ len =>
      rw [dropBytes] at ran
      split at ran
      · next more =>
        cases ran
        refine ⟨?_,rfl,?_,fun a k l found le => ?_⟩
        · rw [bytes_cons]
          omega
        · rw [content_cons,content_cons,drop_append_of_le_length (by omega)]
        rcases place_cons found with ⟨_,rfl,_⟩ | ⟨other,k',later,rfl⟩
        · omega
        have moved : x.data.length - (len + 1) + k' = x.data.length + k' - (len + 1) := by omega
        simp only [place,other,if_false,later,map_some,length_drop,moved]
      next less =>
      obtain ⟨enough,none_,same,places⟩ := ih ran
      refine ⟨?_,none_,?_,fun a k l found le => ?_⟩
      · rw [bytes_cons]
        omega
      · have all : x.data.length ≤ len + 1 := by omega
        rw [same,content_cons,drop_append,drop_eq_nil_of_le all,nil_append]
      rcases place_cons found with ⟨_,rfl,_⟩ | ⟨_,k',later,rfl⟩
      · omega
      have moved : k' - (len + 1 - x.data.length) = x.data.length + k' - (len + 1) := by omega
      rw [places a k' l later (by omega),moved]

theorem dropEmpty_keeps (z : Sizes) (sb : Sockbuf) (m : Chain) : content (dropEmpty z sb m).2 = content m ∧
    ∀ a k l,place a m = some (k,l) → (k,l) ≠ (0,0) → place a (dropEmpty z sb m).2 = some (k,l) := by
  induction m generalizing sb with
  | nil => exact ⟨rfl,nofun⟩
  | cons x rest ih =>
    rw [dropEmpty]
    split
    · next empty =>
      rw [List.isEmpty_iff] at empty
      refine ⟨by rw [(ih _).1,content_cons,empty,nil_append],fun a k l found filled => ?_⟩
      rcases place_cons found with ⟨_,rfl,rfl⟩ | ⟨_,k',later,rfl⟩
      · simp [empty] at filled
      simp only [empty,length_nil,zero_add] at filled ⊢
      exact (ih _).2 a k' l later filled
    · exact ⟨rfl,fun a k l found _ => found⟩

theorem Kept.drop (kept : Kept z stream w) (ran : sbdrop z w.sb len = .ok sb) : len ≤ w.sb.sbCc ∧ Inv z sb ∧ sb.sbMb.length ≤ 1 ∧
    content (sb.sbMb.headD []) = stream.drop len ∧
      ∀ a k l,place a (chain w) = some (k,l) → len ≤ k → (k,l) ≠ (len,0) → place a (sb.sbMb.headD []) = some (k - len,l) := by
  have only : w.sb.sbMb.tail = [] := length_eq_zero_iff.mp (by rw [length_tail]; have := kept.one; omega)
  have bytes := ran
  unfold sbdrop at ran
  rw [only] at ran
  obtain ⟨⟨sb₁,m₁,next₁⟩,took,ran⟩ := bind_ok ran
  obtain ⟨enough,rfl,same,places⟩ := dropBytes_keeps took
  obtain ⟨same',places'⟩ := dropEmpty_keeps z sb₁ m₁
  have fits : len ≤ w.sb.sbCc := by
    rw [kept.cc]
    exact Int.ofNat_le.mpr enough
  obtain ⟨_,ran',inv,_⟩ := sbdrop_spec kept.buffer fits
  cases bytes.symm.trans ran'
  have left : sb.sbMb = if (dropEmpty z sb₁ m₁).2 = [] then [] else [(dropEmpty z sb₁ m₁).2] := by
    cases ran
    rw [settle_mb]
  have first : sb.sbMb.headD [] = (dropEmpty z sb₁ m₁).2 := by
    rw [left]
    split
    · next nothing => exact nothing.symm
    · rfl
  refine ⟨fits,inv,?_,?_,fun a k l found le stays => ?_⟩
  · rw [left]
    split
    · exact zero_le _
    · exact le_refl _
  · rw [first,same',same,← kept.filled]
    rfl
  rw [first]
  refine places' a _ l (places a k l found le) fun front => ?_
  obtain ⟨none_,empty⟩ := Prod.mk.inj front
  exact stays (Prod.ext (by dsimp only; omega) empty)

theorem Kept.shorten (kept : Kept z stream w) (stays : Stays w acked) (ran : sbdrop z w.sb acked = .ok sb) : Kept z (stream.drop acked)
    {w with sb := sb,tLastm := if acked > w.tLastoff - w.tInoff then none else w.tLastm,tLastoff := w.tLastoff - acked} := by
  obtain ⟨_,inv,one,same,places⟩ := kept.drop ran
  refine ⟨inv,one,same,fun a set => ?_⟩
  dsimp only at set ⊢
  split at set
  · cases set
  next behind =>
  obtain ⟨k,l,found,apart⟩ := kept.cached a set
  have here : (k,l) ≠ (acked,0) := fun front => stays a set (front ▸ found)
  exact ⟨k - acked,l,places a k l found (by omega) here,by omega⟩

theorem Kept.step (kept : Kept z stream w) (allowed : Allowed w op) (met : Meets w op) (ran : step z w op = .ok w') : Kept z (op.stream stream) w' := by
  cases op with
  | append m =>
    obtain ⟨sb,took,rfl⟩ := map_ok ran
    exact kept.append allowed took
  | predictedAck acked =>
    obtain ⟨sb,took,same⟩ := bind_ok ran
    cases same
    exact kept.shorten met took
  | newAck acked =>
    obtain ⟨set,stays⟩ := met
    simp only [TcpDatapkt.step,newAck] at ran
    split at ran
    · next beyond =>
      obtain ⟨sb,took,same⟩ := bind_ok ran
      cases same
      have unset := set.resolve_right (by omega)
      obtain ⟨_,inv,one,same,_⟩ := kept.drop took
      refine ⟨inv,one,same.trans ?_,fun a set => ?_⟩
      · have cc := kept.cc
        have size := content_length (chain w)
        rw [kept.filled] at size
        have all : stream.length ≤ w.sb.sbCc.toNat := by omega
        have more : stream.length ≤ acked := by omega
        exact (drop_eq_nil_of_le all).trans (drop_eq_nil_of_le more).symm
      rw [unset] at set
      cases set
    obtain ⟨sb,took,same⟩ := bind_ok ran
    cases same
    exact kept.shorten stays took
  | build off len env =>
    obtain ⟨⟨_,_⟩,took,rfl⟩ := map_ok ran
    obtain ⟨_,_,took',kept',_⟩ := kept.build allowed env
    cases took.symm.trans took'
    exact kept'

theorem run_kept (run : Run z Meets stream w) : Kept z stream w := by
  induction run with
  | @start w empty zero none_ unset =>
    refine ⟨⟨⟨?_,?_,?_⟩,?_,?_⟩,?_,?_,?_⟩
    · rw [empty,zero]
      rfl
    · rw [empty,none_.1]
      rfl
    · rw [empty,none_.2]
      rfl
    · simp [empty]
    · simp [empty]
    · simp [empty]
    · simp [chain,empty]
    · simp [unset]
  | step _ allowed met ran ih => exact ih.step allowed met ran

-- As long as no acknowledgement covers more than the buffer holds while t_lastm is set, the
-- cached position is that of a live mbuf, and the copies are the bytes asked for.
theorem datapkt_exact (z : Sizes) (stream : List UInt8) (w : Snd) (run : Run z Meets stream w) : Holds stream w := by
  have kept := run_kept run
  refine ⟨kept.filled,fun a set => ?_,fun off len env within => ?_⟩
  · obtain ⟨k,l,found,_⟩ := kept.cached a set
    exact place_mem found
  · obtain ⟨w',data,ran,_,copied⟩ := kept.build within env
    exact ⟨w',data,ran,copied⟩

def emptySnd : Snd := ⟨emptyBuffer,none,0,0,0⟩
def oneSnd : Snd := ⟨⟨3,256,8192,16384,[[mbuf 1 [1,2,3]]],some 1,some 1⟩,none,0,0,0⟩
def sentSnd : Snd := {oneSnd with tLastm := some 1,tLastlen := 3}
def plenty : Env := ⟨1460,false,false,64,200,2048,true,true,true,0⟩

theorem started (meets : Snd → Op → Prop) (met : meets emptySnd (.append [mbuf 1 [1,2,3]])) (met' : meets oneSnd (.build 0 3 plenty)) :
    Run sizes meets [1,2,3] sentSnd := by
  have allowed : Allowed emptySnd (.append [mbuf 1 [1,2,3]]) := ⟨by decide,fun _ _ => not_mem_nil⟩
  have filled := Run.step (.start rfl rfl ⟨rfl,rfl⟩ rfl) allowed met (show step sizes emptySnd _ = .ok oneSnd by decide)
  have within : Allowed oneSnd (.build 0 3 plenty) := ⟨by decide,by decide⟩
  exact .step filled within met' (show step sizes oneSnd _ = .ok sentSnd by decide)

theorem datapkt_exact_sent : Holds [1,2,3] sentSnd := datapkt_exact sizes [1,2,3] sentSnd (started Meets trivial trivial)

-- The acknowledgement of the data and a FIN: all the mbufs are freed, and t_lastm is still set.
theorem datapkt_stale : ¬∀ z stream w,Run z (fun _ _ => True) stream w → Holds stream w := by
  intro claim
  have acked : step sizes sentSnd (.newAck 4) = .ok {sentSnd with sb := emptyBuffer} := by
    simp [step,newAck,sentSnd,oneSnd,sbdrop,dropBytes,dropEmpty,settle,mbuf,sbfree,Mbuf.mLen,Mbuf.space,sizes,emptyBuffer]
  have holds := claim _ _ _ (@Run.step sizes _ _ _ _ (.newAck 4) (started _ trivial trivial) trivial trivial acked)
  exact not_mem_nil (holds.live 1 rfl)
end NetbsdAvr32.TcpDatapkt
