import NetbsdAvr32.SockbufAppend

-- The operations that take from a socket buffer, and the buffer over whole runs.
namespace NetbsdAvr32.Sockbuf
open List Except

structure Taken (z : Sizes) (sb : Sockbuf) (m : Chain) (next : List Chain) (sb' : Sockbuf) (m' : Chain) (next' : List Chain) : Prop where
  total : counters sb' + weigh z (m ++ next.flatten) = counters sb + weigh z (m' ++ next'.flatten)
  fields : sb'.sbLastrecord = sb.sbLastrecord ∧ sb'.sbMbtail = sb.sbMbtail
  rest : ∃ r,(r :: next').IsSuffix (m :: next) ∧ (addrs m').IsSuffix (addrs r)

variable {z : Sizes} {sb sb' sb'' : Sockbuf} {m m' m'' r : Chain} {next next' : List Chain} {len : Nat}

def bytes (l : Chain) : Nat := (l.map (·.data.length)).sum

theorem weigh_bytes (z : Sizes) (l : Chain) : (weigh z l).1 = bytes l := by
  induction l with
  | nil => rfl
  | cons m l ih =>
    rw [weigh_cons]
    simp only [Prod.fst_add,ih,bytes,map_cons,sum_cons,weight,Mbuf.mLen]
    omega

theorem Taken.refl (z : Sizes) (sb : Sockbuf) (m : Chain) (next : List Chain) : Taken z sb m next sb m next :=
  ⟨rfl,⟨rfl,rfl⟩,m,suffix_refl _,suffix_refl _⟩

theorem dropBytes_spec (z : Sizes) (sb : Sockbuf) (len : Nat) (m : Chain) (next : List Chain) (enough : len ≤ bytes (m ++ next.flatten)) :
    ∃ sb' m' next',dropBytes z sb len m next = .ok (sb',m',next') ∧ Taken z sb m next sb' m' next' := by
  fun_induction dropBytes z sb len m next with
  | case1 sb m next => exact ⟨_,_,_,rfl,.refl ..⟩
  | case2 sb len => simp [bytes] at enough
  | case3 sb len m next ih =>
    obtain ⟨sb',m',next',ran,taken⟩ := ih (by simpa using enough)
    obtain ⟨r,suffix,inside⟩ := taken.rest
    exact ⟨sb',m',next',ran,by simpa using taken.total,taken.fields,r,suffix.trans (suffix_cons _ _),inside⟩
  | case4 sb len m rest next more =>
    refine ⟨_,_,_,rfl,?_,⟨rfl,rfl⟩,m :: rest,suffix_refl _,suffix_refl _⟩
    simp only [cons_append,weigh_cons]
    rw [← add_assoc,← add_assoc]
    refine congrArg (· + _) (Prod.ext ?_ ?_)
    · simp only [counters,weight,Mbuf.mLen,length_drop,Prod.fst_add]
      omega
    · simp only [counters,weight,Mbuf.space,Prod.snd_add]
  | case5 sb len m rest next less ih =>
    obtain ⟨sb',m',next',ran,taken⟩ := ih (by
      simp only [cons_append,bytes,map_cons,sum_cons] at enough ⊢
      omega)
    obtain ⟨r,suffix,inside⟩ := taken.rest
    refine ⟨sb',m',next',ran,?_,taken.fields,?_⟩
    · have count := taken.total
      rw [counters_sbfree] at count
      rw [cons_append,weigh_cons]
      have cancel : counters sb' + (weight z m + weigh z (rest ++ next.flatten)) = counters sb' + weigh z (rest ++ next.flatten) + weight z m := by abel
      rw [cancel,count]
      abel
    rcases suffix_cons_iff.mp suffix with same | later
    · obtain ⟨rfl,rfl⟩ := cons.inj same
      exact ⟨m :: r,suffix_refl _,inside.trans (suffix_cons _ _)⟩
    · exact ⟨r,later.trans (suffix_cons _ _),inside⟩

theorem dropEmpty_spec (z : Sizes) (sb : Sockbuf) (m : Chain) (next : List Chain) : ∃ sb' m',dropEmpty z sb m = (sb',m') ∧ Taken z sb m next sb' m' next := by
  induction m generalizing sb with
  | nil => exact ⟨_,_,rfl,.refl ..⟩
  | cons m rest ih =>
    rw [dropEmpty]
    split
    · obtain ⟨sb',m',ran,taken⟩ := ih (sbfree z sb m)
      obtain ⟨r,suffix,inside⟩ := taken.rest
      refine ⟨sb',m',ran,?_,taken.fields,?_⟩
      · have count := taken.total
        rw [counters_sbfree] at count
        rw [cons_append,weigh_cons]
        have cancel : counters sb' + (weight z m + weigh z (rest ++ next.flatten)) = counters sb' + weigh z (rest ++ next.flatten) + weight z m := by abel
        rw [cancel,count]
        abel
      rcases suffix_cons_iff.mp suffix with same | later
      · obtain ⟨rfl,_⟩ := cons.inj same
        exact ⟨m :: r,suffix_refl _,inside.trans (suffix_cons _ _)⟩
      · exact ⟨r,later.trans (suffix_cons _ _),inside⟩
    · exact ⟨_,_,rfl,.refl ..⟩

theorem Taken.trans (first : Taken z sb m next sb' m' next') (second : Taken z sb' m' next' sb'' m'' next') : Taken z sb m next sb'' m'' next' := by
  obtain ⟨r,suffix,inside⟩ := first.rest
  obtain ⟨r',suffix',inside'⟩ := second.rest
  obtain rfl : r' = m' := by
    have := suffix'.eq_of_length (by simp)
    exact (cons.inj this).1
  refine ⟨?_,⟨second.fields.1.trans first.fields.1,second.fields.2.trans first.fields.2⟩,r,suffix,inside'.trans inside⟩
  have one := first.total
  have two := second.total
  have cancel : counters sb'' + weigh z (m ++ next.flatten) + (counters sb' + weigh z (r' ++ next'.flatten)) =
      counters sb + weigh z (m'' ++ next'.flatten) + (counters sb' + weigh z (r' ++ next'.flatten)) := by
    calc _ = (counters sb'' + weigh z (r' ++ next'.flatten)) + (counters sb' + weigh z (m ++ next.flatten)) := by abel
      _ = _ := by rw [two,one]; abel
  exact add_right_cancel cancel

theorem settle_inv (count : counters sb = weigh z sb.sbMb.flatten) (tail : sb.sbMb ≠ [] → sb.sbMbtail = sb.sbMb.getLast?.bind lastAddr)
    (last : 2 ≤ sb.sbMb.length → sb.sbLastrecord = sb.sbMb.getLast?.bind firstAddr) (chains : ∀ r ∈ sb.sbMb,r ≠ [])
    (distinct : (addrs sb.sbMb.flatten).Nodup) : Inv z (settle sb) := by
  have same : (settle sb).sbMb = sb.sbMb ∧ counters (settle sb) = counters sb := by
    unfold settle
    split
    · exact ⟨rfl,rfl⟩
    · exact ⟨rfl,rfl⟩
    · exact ⟨rfl,rfl⟩
  refine ⟨⟨by rw [same.1,same.2,count],?_,?_⟩,by rw [same.1]; exact chains,by rw [same.1]; exact distinct⟩
  · unfold settle
    split
    · next empty => rw [empty]; rfl
    · next one => rw [one]; rfl
    next none single =>
    refine last ?_
    match sb.sbMb, none, single with
    | [], none, _ => exact absurd rfl none
    | [r], _, single => exact absurd rfl (single r)
    | _ :: _ :: _, _, _ => simp
  unfold settle
  split
  · next empty => rw [empty]; rfl
  · next one => exact tail (by simp [one])
  · next none _ => exact tail none

theorem suffix_last {α : Type} {l k : List α} (suffix : l.IsSuffix k) (some_ : l ≠ []) : k.getLast? = l.getLast? := by
  obtain ⟨pre,rfl⟩ := suffix
  rw [getLast?_append]
  cases same : l.getLast? with
  | none => exact absurd (getLast?_eq_none_iff.mp same) some_
  | some x => rfl

theorem Taken.inv (inv : Inv z sb) (mb : sb.sbMb = m :: next) (taken : Taken z sb m next sb' m' next') :
    Inv z (settle {sb' with sbMb := if m' = [] then next' else m' :: next'}) := by
  obtain ⟨r,suffix,inside⟩ := taken.rest
  have flat : (if m' = [] then next' else m' :: next').flatten = m' ++ next'.flatten := by
    split
    · next nothing => rw [nothing,nil_append]
    · rfl
  have later : next' ≠ [] → (if m' = [] then next' else m' :: next').getLast? = sb.sbMb.getLast? := by
    intro some_
    rw [mb,suffix_last suffix (by simp)]
    split
    · exact (suffix_last (suffix_cons r next') some_).symm
    · rw [suffix_last (suffix_cons m' next') some_,suffix_last (suffix_cons r next') some_]
  refine settle_inv ?_ (fun some_ => ?_) (fun two => ?_) ?_ ?_
  · rw [flat]
    have count := taken.total
    have before := inv.count
    rw [mb,flatten_cons] at before
    rw [before] at count
    exact add_right_cancel (count.trans (add_comm _ _))
  · rw [taken.fields.2,inv.mbtail]
    by_cases none : next' = []
    · subst none
      have filled : m' ≠ [] := fun nothing => by simp [nothing] at some_
      rw [if_neg filled,mb,suffix_last suffix (by simp)]
      simp only [getLast?_singleton,Option.bind_some,lastAddr_eq]
      exact suffix_last inside (by simpa [addrs] using filled)
    · rw [later none]
  · have some_ : next' ≠ [] := by
      rintro rfl
      split at two
      · simp at two
      · simp at two
    rw [taken.fields.1,inv.lastrecord,later some_]
  · intro x mem
    have old : ∀ x ∈ next',x ∈ sb.sbMb := fun x mem => by
      rw [mb]
      exact suffix.subset (mem_cons_of_mem _ mem)
    split at mem
    · exact inv.chains x (old x mem)
    next filled =>
    rcases mem_cons.mp mem with rfl | mem
    · exact filled
    · exact inv.chains x (old x mem)
  rw [flat]
  have distinct := inv.distinct
  rw [mb] at distinct
  obtain ⟨pre,same⟩ := suffix
  rw [← same,flatten_append,flatten_cons,addrs_append,addrs_append] at distinct
  rw [addrs_append]
  exact ((inside.sublist.append_right _).trans (sublist_append_right _ _)).nodup distinct

theorem Taken.fewer (taken : Taken z sb m next sb' m' next') : (m' ++ next'.flatten).length ≤ (m ++ next.flatten).length ∧ next'.length ≤ next.length := by
  obtain ⟨r,⟨pre,same⟩,inside⟩ := taken.rest
  have size := inside.length_le
  simp only [addrs,length_map] at size
  have total := congrArg (fun l => l.flatten.length) same
  have records := congrArg length same
  simp only [flatten_append,flatten_cons,length_append,length_cons] at total records ⊢
  omega

theorem dropBytes_all (first : Mbuf) (ran : dropBytes z sb len (first :: m) next = .ok (sb',m',next')) (some_ : 0 < len)
    (enough : len ≤ bytes (first :: m ++ next.flatten)) (all : first.data.length ≤ len) :
    (m' ++ next'.flatten).length ≤ (m ++ next.flatten).length := by
  cases len with
  | zero => omega
  | succ len =>
    rw [dropBytes,if_neg (by omega)] at ran
    obtain ⟨_,_,_,ran',taken⟩ := dropBytes_spec z (sbfree z sb first) (len + 1 - first.data.length) m next (by
      simp only [cons_append,bytes,map_cons,sum_cons] at enough ⊢
      omega)
    rw [ran] at ran'
    cases ran'
    exact taken.fewer.1

@[simp] theorem settle_mb (sb : Sockbuf) : (settle sb).sbMb = sb.sbMb := by
  unfold settle
  split
  · rfl
  · rfl
  · rfl

theorem Inv.cc (inv : Inv z sb) : sb.sbCc = bytes sb.sbMb.flatten := (congrArg Prod.fst inv.count).trans (weigh_bytes z _)

theorem sbdrop_spec (inv : Inv z sb) (enough : (len : Int) ≤ sb.sbCc) : ∃ sb',sbdrop z sb len = .ok sb' ∧ Inv z sb' ∧
    ((len : Int) = sb.sbCc → sb.sbMb ≠ [] → sb'.sbMb.flatten.length < sb.sbMb.flatten.length) := by
  have cc := inv.cc
  cases mb : sb.sbMb with
  | nil =>
    rw [mb] at cc
    obtain rfl : len = 0 := by
      simp [bytes] at cc
      omega
    have ran : sbdrop z sb 0 = .ok (settle {sb with sbMb := []}) := by simp [sbdrop,mb,dropBytes,dropEmpty]
    refine ⟨_,ran,settle_inv ?_ ?_ ?_ ?_ ?_,fun _ some_ => absurd rfl some_⟩
    · exact (inv.of_empty mb).1
    · simp
    · simp
    · simp
    · simp
  | cons m next =>
    rw [mb,flatten_cons] at cc
    obtain ⟨sb₁,m₁,next₁,ran,taken⟩ := dropBytes_spec z sb len m next (by omega)
    obtain ⟨sb₂,m₂,ran',taken'⟩ := dropEmpty_spec z sb₁ m₁ next₁
    refine ⟨settle {sb₂ with sbMb := if m₂ = [] then next₁ else m₂ :: next₁},?_,(taken.trans taken').inv inv mb,fun all _ => ?_⟩
    · simp only [sbdrop,mb,headD_cons,tail_cons,ran,Outcome.ok_bind,ran']
    have flat : (if m₂ = [] then next₁ else m₂ :: next₁).flatten = m₂ ++ next₁.flatten := by
      split
      · next nothing => rw [nothing,nil_append]
      · rfl
    rw [settle_mb,flat,flatten_cons]
    cases m with
    | nil => exact absurd rfl (inv.chains [] (by simp [mb]))
    | cons first rest =>
      have size : first.data.length ≤ len := by
        simp only [cons_append,bytes,map_cons,sum_cons] at cc
        omega
      have fewer := taken'.fewer.1
      simp only [cons_append,length_cons]
      by_cases some_ : 0 < len
      · have := dropBytes_all first ran some_ (by omega) size
        omega
      obtain rfl : len = 0 := by omega
      rw [dropBytes] at ran
      cases ran
      have empty : first.data.isEmpty = true := by
        rw [List.isEmpty_iff]
        exact length_eq_zero_iff.mp (by omega)
      rw [dropEmpty,if_pos empty] at ran'
      obtain ⟨_,_,ran'',taken''⟩ := dropEmpty_spec z (sbfree z sb first) rest next
      rw [ran'] at ran''
      cases ran''
      have := taken''.fewer.1
      omega

theorem weigh_space (z : Sizes) (l : Chain) : 0 ≤ (weigh z l).2 ∧ (l ≠ [] → 0 < (weigh z l).2) := by
  induction l with
  | nil => exact ⟨Int.le_refl _,fun some_ => absurd rfl some_⟩
  | cons m l ih =>
    have positive := z.positive
    have more : (weigh z (m :: l)).2 = m.space z + (weigh z l).2 := by rw [weigh_cons]; rfl
    have space : m.space z = z.msize + (m.ext.getD 0 : Nat) := rfl
    exact ⟨by omega,fun _ => by omega⟩

theorem Inv.mbcnt (inv : Inv z sb) : sb.sbMbcnt = 0 ↔ sb.sbMb = [] := by
  have count : sb.sbMbcnt = (weigh z sb.sbMb.flatten).2 := congrArg Prod.snd inv.count
  constructor
  · intro zero
    cases mb : sb.sbMb with
    | nil => rfl
    | cons r next =>
      have some_ := inv.chains r (by simp [mb])
      have := (weigh_space z sb.sbMb.flatten).2 (by simp [mb,some_])
      omega
  intro empty
  rw [count,empty]
  rfl

theorem flushed_spec (inv : Inv z sb) (empty : sb.sbMb = []) : flushed sb = .ok sb := by
  obtain ⟨zero,none⟩ := inv.of_empty empty
  have cc : sb.sbCc = 0 := congrArg Prod.fst zero
  have last := inv.lastrecord
  rw [empty] at last
  exact if_pos ⟨cc,empty,none,last⟩

theorem sbflush_spec (rounds : Nat) (inv : Inv z sb) (enough : sb.sbMb.flatten.length ≤ rounds) :
    ∃ sb',sbflush z rounds sb = .ok sb' ∧ Inv z sb' ∧ sb'.sbMb = [] := by
  induction rounds generalizing sb with
  | zero =>
    have empty : sb.sbMb = [] := by
      cases mb : sb.sbMb with
      | nil => rfl
      | cons r next =>
        have some_ := inv.chains r (by simp [mb])
        rw [mb,flatten_cons,length_append] at enough
        exact absurd (length_eq_zero_iff.mp (by omega)) some_
    rw [sbflush,if_pos (inv.mbcnt.mpr empty)]
    exact ⟨sb,flushed_spec inv empty,inv,empty⟩
  | succ rounds ih =>
    rw [sbflush]
    split
    · next zero =>
      have empty := inv.mbcnt.mp zero
      exact ⟨sb,flushed_spec inv empty,inv,empty⟩
    next some_ =>
    have cc := inv.cc
    obtain ⟨sb₁,ran,inv₁,fewer⟩ := @sbdrop_spec z sb sb.sbCc.toNat inv (by omega)
    have := fewer (by omega) fun empty => some_ (inv.mbcnt.mpr empty)
    rw [ran]
    exact ih inv₁ (by omega)

theorem sbdroprecord_inv (inv : Inv z sb) : Inv z (sbdroprecord z sb) := by
  unfold sbdroprecord
  split
  · next empty =>
    have last : sb.sbLastrecord = none := by
      rw [inv.lastrecord,empty]
      rfl
    have tail := (inv.of_empty empty).2
    have same : emptyFixup sb = sb := by
      obtain ⟨_,_,_,_,_,_,_⟩ := sb
      cases last
      cases tail
      unfold emptyFixup
      split
      · rfl
      · rfl
    rw [same]
    exact inv
  next r rest mb =>
  have count := inv.count
  have distinct := inv.distinct
  rw [mb,flatten_cons] at count distinct
  have left : counters (sbfreeChain z sb r) = weigh z rest.flatten := by
    rw [sbfreeChain_eq,counters_plus,count,weigh_append]
    abel
  have nodup : (addrs rest.flatten).Nodup := by
    rw [addrs_append] at distinct
    exact (nodup_append.mp distinct).2.1
  unfold emptyFixup
  split
  · next empty =>
    subst empty
    exact ⟨⟨left,rfl,rfl⟩,by simp,nodup⟩
  next some_ =>
  have same : sb.sbMb.getLast? = rest.getLast? := by
    rw [mb]
    exact suffix_last (suffix_cons r rest) some_
  have last := inv.lastrecord
  have tail := inv.mbtail
  rw [same] at last tail
  have fields : (sbfreeChain z sb r).sbLastrecord = sb.sbLastrecord ∧ (sbfreeChain z sb r).sbMbtail = sb.sbMbtail := by
    rw [sbfreeChain_eq]
    exact ⟨rfl,rfl⟩
  exact ⟨⟨left,fields.1.trans last,fields.2.trans tail⟩,fun x mem => inv.chains x (by rw [mb]; exact mem_cons_of_mem _ mem),nodup⟩

inductive Op where
  | sbappend (m : Chain)
  | sbappendrecord (m₀ : Chain)
  | sbinsertoob (m₀ : Chain)
  | sbappendaddr (asa : List UInt8) (m₀ control : Chain) (got : Mget)
  | sbappendaddrchain (asa : List UInt8) (m₀ : List Chain) (got : List (Option Nat))
  | sbappendcontrol (m₀ control : Chain)
  | sbappendstream (m : Chain)
  | sbdrop (len : Nat)
  | sbdroprecord
  | sbflush

def call (z : Sizes) (sb : Sockbuf) : Op → Except Halt (Sockbuf × Bool)
  | .sbappend m => (sbappend z sb m).map (·,true)
  | .sbappendrecord m₀ => (sbappendrecord z sb m₀).map (·,true)
  | .sbinsertoob m₀ => (sbinsertoob z sb m₀).map (·,true)
  | .sbappendaddr asa m₀ control got => sbappendaddr z sb asa m₀ control got
  | .sbappendaddrchain asa m₀ got => sbappendaddrchain z sb asa m₀ got
  | .sbappendcontrol m₀ control => sbappendcontrol z sb m₀ control
  | .sbappendstream m => (sbappendstream z sb m).map (·,true)
  | .sbdrop len => (sbdrop z sb len).map (·,true)
  | .sbdroprecord => .ok (sbdroprecord z sb,true)
  | .sbflush => (sbflush z sb.sbMb.flatten.length sb).map (·,true)

def Op.brings : Op → List Nat
  | .sbappend m => addrs m
  | .sbappendrecord m₀ => addrs m₀
  | .sbinsertoob m₀ => addrs m₀
  | .sbappendaddr _ m₀ control got => got.addr.toList ++ addrs (control ++ m₀)
  | .sbappendaddrchain _ m₀ got => addrs m₀.flatten ++ got.reduceOption
  | .sbappendcontrol m₀ control => addrs (control ++ m₀)
  | .sbappendstream m => addrs m
  | _ => []

structure Allowed (sb : Sockbuf) (op : Op) : Prop where
  fresh : Fresh sb op.brings
  drop : ∀ len,op = .sbdrop len → (len : Int) ≤ sb.sbCc

-- The condition: sbcompress links an mbuf where, and only where, the new record comes last.
def Meets (z : Sizes) (sb : Sockbuf) : Op → Prop
  | .sbappend m => m ≠ [] → (sb.sbMb.getLast?).any (·.any (·.eor)) = true → keeps z m = true
  | .sbappendrecord m₀ => m₀ ≠ [] → keeps z m₀ = true
  | .sbinsertoob m₀ => m₀ ≠ [] → (keeps z m₀ = true ↔ sb.sbMb.dropWhile oobTrain = [])
  | _ => True

inductive Run (z : Sizes) (meets : Sockbuf → Op → Prop) : Sockbuf → Prop where
  | start {sb : Sockbuf} (empty : sb.sbMb = []) (zero : counters sb = 0) (none : sb.sbLastrecord = none ∧ sb.sbMbtail = none) : Run z meets sb
  | step {sb sb' : Sockbuf} {op : Op} {done : Bool} (run : Run z meets sb) (allowed : Allowed sb op) (met : meets sb op)
      (ran : call z sb op = .ok (sb',done)) : Run z meets sb'

theorem Inv.one (inv : Inv z sb) (same : (sb.sbMb.head?.bind fun r => r.head?.map (·.addr)) = sb.sbLastrecord) : sb.sbMb.length ≤ 1 := by
  have chains := inv.chains
  have distinct := inv.distinct
  have last := inv.lastrecord
  match mb : sb.sbMb with
  | [] => simp
  | [_] => simp
  | x :: y :: rest =>
    rw [mb] at same last chains distinct
    have some_ : ∃ r ∈ y :: rest,(x :: y :: rest).getLast? = some r := by
      obtain ⟨r,mem⟩ := getLast?_isSome.mpr (cons_ne_nil y rest) |> Option.isSome_iff_exists.mp
      exact ⟨r,mem_of_getLast? mem,by rw [getLast?_cons_cons]; exact mem⟩
    obtain ⟨r,mem,end_⟩ := some_
    rw [end_] at last
    cases x with
    | nil => exact absurd rfl (chains [] (by simp))
    | cons m x =>
      have first : firstAddr r = some m.addr := last.symm.trans same.symm
      rw [flatten_cons,addrs_append] at distinct
      exact absurd rfl ((nodup_append.mp distinct).2.2 m.addr (by simp) m.addr (addrs_flatten_mem mem (firstAddr_mem first)))

theorem map_ok {α β ε : Type} {f : α → β} {x : Except ε α} {b : β} (ran : x.map f = .ok b) : ∃ a,x = .ok a ∧ f a = b := by
  cases x with
  | error e => cases ran
  | ok a => exact ⟨a,rfl,ok.inj ran⟩

theorem call_inv {op : Op} {done : Bool} (inv : Inv z sb) (allowed : Allowed sb op) (met : Meets z sb op) (ran : call z sb op = .ok (sb',done)) : Inv z sb' := by
  obtain ⟨fresh,drop⟩ := allowed
  cases op with
  | sbappend m =>
    obtain ⟨_,ran',inv'⟩ := sbappend_inv inv fresh met
    obtain ⟨_,once,same⟩ := map_ok ran
    cases same
    exact ok.inj (ran'.symm.trans once) ▸ inv'
  | sbappendrecord m₀ =>
    obtain ⟨_,ran',inv'⟩ := sbappendrecord_inv inv fresh met
    obtain ⟨_,once,same⟩ := map_ok ran
    cases same
    exact ok.inj (ran'.symm.trans once) ▸ inv'
  | sbinsertoob m₀ =>
    obtain ⟨_,ran',inv'⟩ := sbinsertoob_inv inv fresh met
    obtain ⟨_,once,same⟩ := map_ok ran
    cases same
    exact ok.inj (ran'.symm.trans once) ▸ inv'
  | sbappendaddr asa m₀ control got => exact sbappendaddr_inv inv fresh ran
  | sbappendaddrchain asa m₀ got =>
    cases done with
    | false => exact sbappendaddrchain_false ran ▸ inv
    | true => exact sbappendaddrchain_inv inv fresh ran
  | sbappendcontrol m₀ control => exact sbappendcontrol_inv inv fresh ran
  | sbappendstream m =>
    obtain ⟨_,once,same⟩ := map_ok ran
    cases same
    have guard : (sb.sbMb.head?.bind fun r => r.head?.map (·.addr)) = sb.sbLastrecord := by
      by_contra other
      unfold sbappendstream at once
      rw [if_pos other] at once
      cases once
    obtain ⟨_,ran',inv',_⟩ := sbappendstream_inv inv fresh (inv.one guard)
    exact ok.inj (ran'.symm.trans once) ▸ inv'
  | sbdrop len =>
    obtain ⟨_,ran',inv',_⟩ := sbdrop_spec inv (drop len rfl)
    obtain ⟨_,once,same⟩ := map_ok ran
    cases same
    exact ok.inj (ran'.symm.trans once) ▸ inv'
  | sbdroprecord =>
    cases ran
    exact sbdroprecord_inv inv
  | sbflush =>
    obtain ⟨_,ran',inv',_⟩ := sbflush_spec _ inv (Nat.le_refl _)
    obtain ⟨_,once,same⟩ := map_ok ran
    cases same
    exact ok.inj (ran'.symm.trans once) ▸ inv'

theorem run_inv (run : Run z (Meets z) sb) : Inv z sb := by
  induction run with
  | @start sb empty zero none =>
    refine ⟨⟨?_,?_,?_⟩,?_,?_⟩
    · rw [zero,empty]
      rfl
    · rw [none.1,empty]
      rfl
    · rw [none.2,empty]
      rfl
    · simp [empty]
    · simp [empty]
  | step _ allowed met ran ih => exact call_inv ih allowed met ran

theorem call_false {op : Op} (ran : call z sb op = .ok (sb',false)) : sb' = sb := by
  cases op with
  | sbappendaddr asa m₀ control got =>
    have ran : sbappendaddr z sb asa m₀ control got = .ok (sb',false) := ran
    unfold sbappendaddr at ran
    split at ran
    · cases ran
    split at ran
    · cases ran
      rfl
    split at ran
    · cases ran
      rfl
    split at ran
    · cases ran
      rfl
    obtain ⟨_,_,ok⟩ := Outcome.bind_ok ran
    cases ok
  | sbappendaddrchain asa m₀ got => exact sbappendaddrchain_false ran
  | sbappendcontrol m₀ control =>
    have ran : sbappendcontrol z sb m₀ control = .ok (sb',false) := ran
    unfold sbappendcontrol at ran
    split at ran
    · cases ran
    split at ran
    · cases ran
      rfl
    obtain ⟨_,_,ok⟩ := Outcome.bind_ok ran
    cases ok
  | sbdroprecord => cases ran
  | _ =>
    obtain ⟨_,_,same⟩ := map_ok ran
    cases same

-- The counters and pointers are right as long as a record that is compressed ends in an
-- mbuf that sbcompress linked, or does not come last.
theorem sockbuf_exact (z : Sizes) (sb : Sockbuf) (run : Run z (Meets z) sb) : Checked z sb ∧
    (sb.sbLastrecord = none ↔ sb.sbMb = []) ∧ (sb.sbMbtail = none ↔ sb.sbMb = []) ∧ ∀ op sb',call z sb op = .ok (sb',false) → sb' = sb := by
  have inv := run_inv run
  refine ⟨inv.toChecked,?_,?_,fun op sb' => call_false⟩
  · constructor
    · intro none
      rcases inv.empty_or_last with ⟨empty,_⟩ | ⟨_,_,a,_,_,some_,_⟩
      · exact empty
      · rw [some_] at none
        cases none
    · intro empty
      rw [inv.lastrecord,empty]
      rfl
  · constructor
    · intro none
      rcases inv.empty_or_last with ⟨empty,_⟩ | ⟨records,r,a,mb,first,_,_⟩
      · exact empty
      obtain ⟨done,n,rfl⟩ := exists_last (inv.chains r (by simp [mb]))
      have tail := inv.mbtail
      rw [none,mb] at tail
      simp [lastAddr] at tail
    · intro empty
      exact (inv.of_empty empty).2

def sizes : Sizes := ⟨256,by decide,224,200,2048⟩
def emptyBuffer : Sockbuf := ⟨0,0,8192,16384,[],none,none⟩
def mbuf (addr : Nat) (data : List UInt8) : Mbuf := ⟨addr,data,.mtData,false,none,none,0⟩
def twoMbufs : Sockbuf := ⟨3,512,8192,16384,[[mbuf 1 [1,2],mbuf 2 [3]]],some 1,some 2⟩

theorem sockbuf_exact_record : Checked sizes twoMbufs := by
  have allowed : Allowed emptyBuffer (.sbappendrecord [mbuf 1 [1,2],mbuf 2 [3]]) := by
    refine ⟨⟨by decide,fun a _ => ?_⟩,fun len same => by cases same⟩
    exact not_mem_nil
  have ran : call sizes emptyBuffer (.sbappendrecord [mbuf 1 [1,2],mbuf 2 [3]]) = .ok (twoMbufs,true) := by decide
  exact (sockbuf_exact sizes twoMbufs (.step (.start rfl rfl ⟨rfl,rfl⟩) allowed (fun _ => rfl) ran)).1

-- A record of one mbuf: sbcompress has nothing to link, and sb_mbtail stays NULL.
def oneMbuf : Sockbuf := ⟨1,256,8192,16384,[[mbuf 1 [1]]],some 1,none⟩

theorem sockbuf_tail_lost : ¬∀ z sb,Run z (fun _ _ => True) sb → Checked z sb := by
  intro claim
  have allowed : Allowed emptyBuffer (.sbappendrecord [mbuf 1 [1]]) := by
    refine ⟨⟨by decide,fun a _ => ?_⟩,fun len same => by cases same⟩
    exact not_mem_nil
  have ran : call sizes emptyBuffer (.sbappendrecord [mbuf 1 [1]]) = .ok (oneMbuf,true) := by decide
  have checked := claim sizes oneMbuf (.step (.start rfl rfl ⟨rfl,rfl⟩) allowed trivial ran)
  cases checked.mbtail
end NetbsdAvr32.Sockbuf
