import Mathlib.Data.List.Perm.Subperm
import Mathlib.Data.List.ReduceOption
import NetbsdAvr32.Sockbuf

-- The operations that append to a socket buffer.
namespace NetbsdAvr32.Sockbuf
open List Option

def firstAddr (r : Chain) : Option Nat := r.head?.map (·.addr)
def lastAddr (r : Chain) : Option Nat := r.getLast?.map (·.addr)

-- The counters are the sums over the records, and the pointers those of the last record.
structure Checked (z : Sizes) (sb : Sockbuf) : Prop where
  count : counters sb = weigh z sb.sbMb.flatten
  lastrecord : sb.sbLastrecord = sb.sbMb.getLast?.bind firstAddr
  mbtail : sb.sbMbtail = sb.sbMb.getLast?.bind lastAddr

structure Inv (z : Sizes) (sb : Sockbuf) : Prop extends Checked z sb where
  chains : ∀ r ∈ sb.sbMb,r ≠ []
  distinct : (addrs sb.sbMb.flatten).Nodup

def Fresh (sb : Sockbuf) (l : List Nat) : Prop := l.Nodup ∧ ∀ a ∈ l,a ∉ addrs sb.sbMb.flatten

variable {z : Sizes} {sb sb' sb'' sb₁ : Sockbuf} {m m₀ n : Mbuf} {l rest record done r : Chain} {records new : List Chain} {a : Nat} {as as' : List Nat}

theorem exists_last (some_ : l ≠ []) : ∃ done n,l = done ++ [n] := ⟨l.dropLast,l.getLast some_,(dropLast_append_getLast some_).symm⟩

theorem addrs_flatten_mem (mem : r ∈ records) (inside : a ∈ addrs r) : a ∈ addrs records.flatten := by
  obtain ⟨m,mem',same⟩ := mem_map.mp inside
  exact mem_map.mpr ⟨m,mem_flatten.mpr ⟨r,mem,mem'⟩,same⟩

theorem firstAddr_mem (first : firstAddr r = some a) : a ∈ addrs r := by
  cases r with
  | nil => cases first
  | cons m rest =>
    obtain rfl := some.inj first
    simp

theorem recordAt_last (distinct : (addrs (records ++ [r]).flatten).Nodup) (first : firstAddr r = some a) : recordAt a (records ++ [r]) = some (records,r,[]) := by
  induction records with
  | nil =>
    have here : r.head?.map (·.addr) = some a := first
    rw [nil_append,recordAt,if_pos here]
  | cons x records ih =>
    simp only [cons_append,flatten_cons,addrs_append] at distinct
    obtain ⟨_,later,apart⟩ := nodup_append.mp distinct
    have other : ¬x.head?.map (·.addr) = some a := fun same =>
      apart a (firstAddr_mem same) a (addrs_flatten_mem (mem_append_right _ (mem_singleton.mpr rfl)) (firstAddr_mem first)) rfl
    rw [cons_append,recordAt,if_neg other,ih later]
    rfl

theorem Inv.empty_or_last (inv : Inv z sb) : (sb.sbMb = [] ∧ sb.sbLastrecord = none) ∨
    ∃ records r a,sb.sbMb = records ++ [r] ∧ firstAddr r = some a ∧ sb.sbLastrecord = some a ∧ recordAt a sb.sbMb = some (records,r,[]) := by
  have last := inv.lastrecord
  rcases eq_nil_or_concat sb.sbMb with empty | ⟨records,r,same⟩
  · rw [empty] at last
    exact .inl ⟨empty,last⟩
  rw [concat_eq_append] at same
  have some_ := inv.chains r (by simp [same])
  have distinct := inv.distinct
  cases r with
  | nil => exact absurd rfl some_
  | cons m rest =>
    rw [same] at distinct
    refine .inr ⟨records,m :: rest,m.addr,same,rfl,?_,?_⟩
    · rw [last,same]
      simp [firstAddr]
    rw [same]
    exact recordAt_last distinct rfl

theorem sblinkrecordchain_spec (inv : Inv z sb) (same : sb'.sbMb = sb.sbMb) (same' : sb'.sbLastrecord = sb.sbLastrecord) (new : List Chain) :
    sblinkrecordchain sb' new = .ok {sb' with sbMb := sb.sbMb ++ new,sbLastrecord := new.getLast?.bind firstAddr} := by
  unfold sblinkrecordchain
  rcases inv.empty_or_last with ⟨empty,none⟩ | ⟨records,r,a,split,_,some_,found⟩
  · rw [same',none,empty]
    rfl
  rw [same',some_,same]
  dsimp only
  rw [found,split]
  simp only [append_assoc,singleton_append]
  rfl

theorem handEor_addrs (m₀ : Mbuf) (rest : Chain) : (handEor m₀ rest).1.addr = m₀.addr ∧ addrs (handEor m₀ rest).2 = addrs rest := by
  cases rest with
  | nil => exact ⟨rfl,rfl⟩
  | cons m rest =>
    rw [handEor]
    split
    · exact ⟨rfl,rfl⟩
    · exact ⟨rfl,rfl⟩

theorem handEor_weight (m₀ : Mbuf) (rest : Chain) : weight z (handEor m₀ rest).1 = weight z m₀ := by
  cases rest with
  | nil => rfl
  | cons m rest =>
    rw [handEor]
    split
    · rfl
    · rfl

def keeps (z : Sizes) : Chain → Bool
  | [] => false
  | m₀ :: rest => !absorbed z (handEor m₀ rest).1 false (handEor m₀ rest).2

theorem lastAddr_eq (r : Chain) : lastAddr r = (addrs r).getLast? := by simp [lastAddr,addrs]
theorem firstAddr_eq (r : Chain) : firstAddr r = (addrs r).head? := by simp [firstAddr,addrs]

theorem Fresh.sublist (fresh : Fresh sb as) (fewer : as'.Sublist as) : Fresh sb as' :=
  ⟨fresh.1.sublist fewer,fun a mem => fresh.2 a (fewer.subset mem)⟩

theorem Inv.link (inv : Inv z sb) (some_ : new ≠ []) (count : counters sb' = counters sb + weigh z new.flatten) (mb : sb'.sbMb = sb.sbMb ++ new)
    (chains : ∀ r ∈ new,r ≠ []) (fresh : Fresh sb (addrs new.flatten)) (last : sb'.sbLastrecord = new.getLast?.bind firstAddr)
    (tail : sb'.sbMbtail = new.getLast?.bind lastAddr) : Inv z sb' := by
  have behind : (sb.sbMb ++ new).getLast? = new.getLast? := by
    rw [getLast?_append]
    cases same : new.getLast? with
    | none => exact absurd (getLast?_eq_none_iff.mp same) some_
    | some r => rfl
  refine ⟨⟨?_,?_,?_⟩,?_,?_⟩
  · rw [count,inv.count,mb]
    simp
  · rw [last,mb,behind]
  · rw [tail,mb,behind]
  · intro r mem
    rw [mb] at mem
    rcases mem_append.mp mem with old | here
    · exact inv.chains r old
    · exact chains r here
  rw [mb,flatten_append,addrs_append]
  exact nodup_append.mpr ⟨inv.distinct,fresh.1,fun a mem b mem' same => fresh.2 b mem' (same ▸ mem)⟩

structure Started (z : Sizes) (sb : Sockbuf) (m₀ : Mbuf) (rest : Chain) (sb' : Sockbuf) (record : Chain) : Prop where
  counters : counters sb' + weight z m₀ = counters sb + weigh z record
  mb : sb'.sbMb = sb.sbMb
  first : firstAddr record = some m₀.addr
  linked : (addrs record).Sublist (addrs (m₀ :: rest))
  kept : keeps z (m₀ :: rest) = true → sb'.sbMbtail = lastAddr record
  alone : keeps z (m₀ :: rest) = false → sb'.sbMbtail = sb.sbMbtail
  last : (∀ a ∈ sb.sbLastrecord,a ∉ addrs rest) → sb'.sbLastrecord = sb.sbLastrecord

theorem started (z : Sizes) (sb : Sockbuf) (m₀ : Mbuf) (rest : Chain) : ∃ sb' record,
    sbcompress z sb (handEor m₀ rest).2 [] (some (handEor m₀ rest).1) = (sb',record) ∧ Started z sb m₀ rest sb' record := by
  obtain ⟨same,same'⟩ := handEor_addrs m₀ rest
  obtain ⟨sb',record,new,ran,spec⟩ := sbcompress_spec z sb (handEor m₀ rest).2 [] (handEor m₀ rest).1
  have listed : addrs record = m₀.addr :: new := by simpa [same] using spec.addrs
  have count := spec.counters
  simp only [nil_append,weigh_cons,weigh_nil,handEor_weight,add_zero] at count
  refine ⟨sb',record,ran,count,spec.mb,?_,?_,fun kept => ?_,fun alone => ?_,fun other => ?_⟩
  · simp [firstAddr_eq,listed]
  · rw [listed,addrs_cons,← same']
    exact spec.linked.cons₂ _
  · have some_ : new ≠ [] := fun none => by
      have := spec.none.mp none
      simp [keeps,this] at kept
    rw [spec.tail,lastAddr_eq,listed,getLast?_cons]
    cases same : new.getLast? with
    | none => exact absurd (getLast?_eq_none_iff.mp same) some_
    | some x => rfl
  · have none : new = [] := spec.none.mpr (by simpa [keeps] using alone)
    rw [spec.tail,none]
    rfl
  · exact spec.last fun a mem inside => other a mem (same' ▸ inside)

theorem Started.some (start : Started z sb m₀ rest sb' record) : record ≠ [] := by
  rintro rfl
  cases start.first

theorem Inv.behind (inv : Inv z sb) : ∀ a ∈ sb.sbLastrecord,a ∈ addrs sb.sbMb.flatten := by
  intro a mem
  rw [inv.lastrecord] at mem
  obtain ⟨r,last,first⟩ := bind_eq_some_iff.mp mem
  exact addrs_flatten_mem (mem_of_getLast? last) (firstAddr_mem first)

theorem started_sums (start : Started z sb₁ m₀ rest sb' record) (same : counters sb₁ = counters sb + weight z m₀) :
    counters sb' = counters sb + weigh z record :=
  add_right_cancel ((same ▸ start.counters).trans (add_right_comm _ _ _))

section
variable (inv : Inv z sb)
include inv

theorem Inv.linkStarted (fresh : Fresh sb (addrs (m₀ :: rest))) (start : Started z sb₁ m₀ rest sb' record)
    (same : counters sb₁ = counters sb + weight z m₀) (first : sb₁.sbLastrecord = some m₀.addr) (met : keeps z (m₀ :: rest) = true) :
    Inv z {sb' with sbMb := sb.sbMb ++ [record]} := by
  have count : counters sb' = counters sb + weigh z record := started_sums start same
  refine @Inv.link z sb _ [record] inv (by simp) ?_ rfl ?_ ?_ ?_ (start.kept met)
  · rw [flatten_cons,flatten_nil,append_nil]
    exact count
  · intro r mem
    rcases mem_singleton.mp mem with rfl
    exact start.some
  · simpa using fresh.sublist start.linked
  have kept := start.last fun a mem inside => by
    obtain rfl : m₀.addr = a := some.inj (first.symm.trans mem)
    exact (nodup_cons.mp fresh.1).1 inside
  exact kept.trans (first.trans start.first.symm)

theorem sbappendrecord_inv (fresh : Fresh sb (addrs l)) (met : l ≠ [] → keeps z l = true) :
    ∃ sb',sbappendrecord z sb l = .ok sb' ∧ Inv z sb' := by
  cases l with
  | nil => exact ⟨sb,rfl,inv⟩
  | cons m₀ rest =>
    obtain ⟨sb',record,ran,start⟩ := started z {sballoc z sb m₀ with sbMb := sb.sbMb ++ [[m₀]],sbLastrecord := [[m₀]].getLast?.bind firstAddr} m₀ rest
    have link := @sblinkrecordchain_spec z sb (sballoc z sb m₀) inv rfl rfl [[m₀]]
    have mb : sb'.sbMb.dropLast = sb.sbMb := by
      rw [start.mb]
      simp
    refine ⟨{sb' with sbMb := sb.sbMb ++ [record]},?_,inv.linkStarted fresh start rfl rfl (met (by simp))⟩
    simp only [sbappendrecord,link,Outcome.ok_bind,ran,mb]

theorem sbinsertoob_inv (fresh : Fresh sb (addrs l)) (met : l ≠ [] → (keeps z l = true ↔ sb.sbMb.dropWhile oobTrain = [])) :
    ∃ sb',sbinsertoob z sb l = .ok sb' ∧ Inv z sb' := by
  cases l with
  | nil => exact ⟨sb,rfl,inv⟩
  | cons m₀ rest =>
    have met := met (by simp)
    have split := takeWhile_append_dropWhile (p := oobTrain) (l := sb.sbMb)
    by_cases end_ : sb.sbMb.dropWhile oobTrain = []
    · obtain ⟨sb',record,ran,start⟩ := started z {sballoc z sb m₀ with sbLastrecord := some m₀.addr} m₀ rest
      rw [end_,append_nil] at split
      refine ⟨{sb' with sbMb := sb.sbMb ++ [record]},?_,inv.linkStarted fresh start rfl rfl (met.mpr end_)⟩
      simp only [sbinsertoob,end_,if_true,ran,split]
    obtain ⟨sb',record,ran,start⟩ := started z (sballoc z sb m₀) m₀ rest
    have count : counters sb' = counters sb + weigh z record := started_sums start rfl
    have same : (sb.sbMb.takeWhile oobTrain ++ record :: sb.sbMb.dropWhile oobTrain).getLast? = sb.sbMb.getLast? := by
      conv => rhs; rw [← split]
      rw [getLast?_append,getLast?_append,getLast?_cons]
      cases last : (sb.sbMb.dropWhile oobTrain).getLast? with
      | none => exact absurd (getLast?_eq_none_iff.mp last) end_
      | some r => rfl
    have alone := start.alone (Bool.eq_false_iff.mpr fun kept => end_ (met.mp kept))
    have kept := start.last fun a mem inside => fresh.2 a (by simp [inside]) (inv.behind a mem)
    refine ⟨{sb' with sbMb := sb.sbMb.takeWhile oobTrain ++ record :: sb.sbMb.dropWhile oobTrain},?_,⟨⟨?_,?_,?_⟩,?_,?_⟩⟩
    · simp only [sbinsertoob,end_,if_false,ran]
    · show counters sb' = _
      rw [count,inv.count]
      conv => lhs; rw [← split]
      simp only [flatten_append,flatten_cons,weigh_append]
      abel
    · rw [same,kept]
      exact inv.lastrecord
    · rw [same,alone]
      exact inv.mbtail
    · intro r mem
      rcases mem_append.mp mem with before | mem
      · exact inv.chains r (takeWhile_subset _ before)
      rcases mem_cons.mp mem with rfl | after
      · exact start.some
      · exact inv.chains r (dropWhile_subset _ after)
    have distinct := inv.distinct
    rw [← split,flatten_append,addrs_append] at distinct
    have perm : (addrs record ++ (addrs (sb.sbMb.takeWhile oobTrain).flatten ++ addrs (sb.sbMb.dropWhile oobTrain).flatten)).Perm
        (addrs (sb.sbMb.takeWhile oobTrain ++ record :: sb.sbMb.dropWhile oobTrain).flatten) := by
      simp only [flatten_append,flatten_cons,addrs_append]
      exact perm_append_comm_assoc _ _ _
    refine perm.nodup_iff.mp (nodup_append.mpr ⟨(fresh.sublist start.linked).1,distinct,fun a mem b mem' same => ?_⟩)
    refine fresh.2 a (start.linked.subset mem) ?_
    rw [← split,flatten_append,addrs_append]
    exact same ▸ mem'

theorem Inv.of_empty (empty : sb.sbMb = []) : counters sb = 0 ∧ sb.sbMbtail = none := by
  have count := inv.count
  have tail := inv.mbtail
  rw [empty] at count tail
  exact ⟨count,tail⟩

theorem Inv.fill (empty : sb.sbMb = []) (fresh : Fresh sb (addrs l)) (spec : Filled z sb' l sb'' record)
    (same : counters sb' = counters sb) (same' : sb'.sbMbtail = sb.sbMbtail) (mb : sb₁.sbMb = if record = [] then [] else [record]) (count : counters sb₁ = counters sb'')
    (tail : sb₁.sbMbtail = sb''.sbMbtail) (last : sb₁.sbLastrecord = (addrs record).head?) : Inv z sb₁ := by
  obtain ⟨zero,none⟩ := inv.of_empty empty
  have total := spec.counters
  have end_ := spec.tail
  rw [same',none,or_none] at end_
  by_cases nothing : record = []
  · subst nothing
    refine ⟨⟨?_,?_,?_⟩,?_,?_⟩
    · rw [count,total,same,zero,mb]
      rfl
    · rw [last,mb]
      rfl
    · rw [tail,end_,mb]
      rfl
    · simp [mb]
    · simp [mb]
  rw [if_neg nothing] at mb
  refine @Inv.link z sb sb₁ [record] inv (by simp) ?_ (by rw [mb,empty]; rfl) ?_ ?_ ?_ ?_
  · rw [count,total,same]
    simp
  · intro r mem
    rcases mem_singleton.mp mem with rfl
    exact nothing
  · simpa using fresh.sublist spec.linked
  · rw [last]
    simp [firstAddr_eq]
  rw [tail,end_]
  simp [lastAddr_eq]

theorem Inv.grow (split : sb.sbMb = records ++ [done ++ [n]]) (fresh : Fresh sb (addrs l)) : ∃ sb' record,
    sbcompress z sb l done (some n) = (sb',record) ∧ Inv z {sb' with sbMb := records ++ [record]} ∧ sb'.sbMb = sb.sbMb ∧
      (addrs record).head? = (addrs (done ++ [n])).head? ∧ done.length + 1 ≤ record.length := by
  obtain ⟨sb',record,new,ran,spec⟩ := sbcompress_spec z sb l done n
  have listed := spec.addrs
  have some_ : addrs (done ++ [n]) ≠ [] := by simp
  have first : (addrs record).head? = (addrs (done ++ [n])).head? := by
    rw [listed,head?_append_of_ne_nil _ some_]
  have kept := spec.last fun a mem inside => fresh.2 a inside (inv.behind a mem)
  refine ⟨sb',record,ran,⟨⟨?_,?_,?_⟩,?_,?_⟩,spec.mb,first,?_⟩
  · have count := spec.counters
    have total := inv.count
    rw [split] at total
    simp only [flatten_append,flatten_cons,flatten_nil,append_nil] at total ⊢
    rw [weigh_append] at total ⊢
    rw [total] at count
    refine add_right_cancel (count.trans ?_)
    abel
  · have last := inv.lastrecord
    rw [kept,last,split]
    simp only [getLast?_append,getLast?_singleton,some_or,bind_some,firstAddr_eq]
    exact first.symm
  · have last := inv.mbtail
    rw [split] at last
    simp only [getLast?_append,getLast?_singleton,some_or,bind_some,lastAddr_eq] at last ⊢
    rw [spec.tail,last,listed,getLast?_append]
  · intro r mem
    rcases mem_append.mp mem with old | here
    · exact inv.chains r (by rw [split]; exact mem_append_left _ old)
    rcases mem_singleton.mp here with rfl
    rintro rfl
    simp at listed
  · have distinct := inv.distinct
    rw [split] at distinct
    simp only [flatten_append,flatten_cons,flatten_nil,append_nil] at distinct ⊢
    rw [addrs_append] at distinct ⊢
    rw [listed,← append_assoc]
    refine nodup_append.mpr ⟨distinct,(fresh.sublist spec.linked).1,fun a mem b mem' same => fresh.2 b (spec.linked.subset mem') ?_⟩
    rw [split,← same]
    simpa [flatten_append] using mem
  have size := congrArg length listed
  simp [addrs] at size
  omega

theorem sbappend_inv (fresh : Fresh sb (addrs l)) (met : l ≠ [] → (sb.sbMb.getLast?).any (·.any (·.eor)) = true → keeps z l = true) :
    ∃ sb',sbappend z sb l = .ok sb' ∧ Inv z sb' := by
  cases l with
  | nil => exact ⟨sb,rfl,inv⟩
  | cons m rest =>
    have met := met (by simp)
    rcases inv.empty_or_last with ⟨empty,none⟩ | ⟨records,r,a,split,first,some_,found⟩
    · obtain ⟨sb',record,ran,spec⟩ := sbcompress_empty z {sb with sbLastrecord := some m.addr} (m :: rest)
      have last := spec.last fresh.1 rfl
      refine ⟨if record = [] then sb' else {sb' with sbMb := [record]},by simp only [sbappend,none,ran],?_⟩
      split
      · next nothing =>
        refine inv.fill empty fresh spec rfl rfl ?_ rfl rfl last
        rw [if_pos nothing,spec.mb]
        exact empty
      next something =>
      refine inv.fill empty fresh spec rfl rfl ?_ rfl rfl last
      rw [if_neg something]
    by_cases eor : r.any (·.eor) = true
    · rw [split,getLast?_append] at met
      obtain ⟨sb',ran,inv'⟩ := sbappendrecord_inv inv fresh fun _ => met eor
      refine ⟨sb',?_,inv'⟩
      rw [← ran]
      simp only [sbappend,some_,found,eor,if_true]
    obtain ⟨done,n,rfl⟩ := exists_last (inv.chains r (by simp [split]))
    obtain ⟨sb',record,ran,inv',_,_⟩ := inv.grow split fresh
    refine ⟨{sb' with sbMb := records ++ [record]},?_,inv'⟩
    simp only [sbappend,some_,found,eor,Bool.false_eq_true,if_false,dropLast_concat,getLast?_concat,ran]

theorem sbappendstream_inv (fresh : Fresh sb (addrs l)) (one : sb.sbMb.length ≤ 1) :
    ∃ sb',sbappendstream z sb l = .ok sb' ∧ Inv z sb' ∧ sb'.sbMb.length ≤ 1 ∧ ∃ done n,sb.sbMb.headD [] = done ++ n.toList ∧
      sb'.sbMb.headD [] = (sbcompress z sb l done n).2 ∧ (n = none → done = []) := by
  unfold sbappendstream
  rcases inv.empty_or_last with ⟨empty,none⟩ | ⟨records,r,a,split,first,some_,found⟩
  · have tail := (inv.of_empty empty).2
    obtain ⟨sb',record,ran,spec⟩ := sbcompress_empty z sb l
    rw [empty,none,tail]
    simp only [head?_nil,bind_none,ne_eq,not_true,if_false,ran]
    refine ⟨_,rfl,inv.fill empty fresh spec rfl rfl rfl rfl rfl ?_,?_,[],.none,rfl,?_,fun _ => rfl⟩
    · split
      · next nothing =>
        rw [nothing]
        rfl
      · simp [addrs]
    · split
      · simp
      · simp
    rw [ran]
    split
    · next nothing => exact nothing.symm
    · rfl
  obtain rfl : records = [] := by
    rw [split,length_append,length_singleton] at one
    exact length_eq_zero_iff.mp (by omega)
  obtain ⟨done,n,rfl⟩ := exists_last (inv.chains r (by simp [split]))
  have tail := inv.mbtail
  have distinct := inv.distinct
  rw [split] at tail distinct
  simp only [nil_append,getLast?_singleton,bind_some,lastAddr,getLast?_concat,map_some] at tail
  simp only [nil_append,flatten_cons,flatten_nil,append_nil,addrs_append] at distinct
  have before : ∀ x ∈ done,decide (x.addr ≠ n.addr) = true := by
    intro x mem
    have := (nodup_append.mp distinct).2.2 x.addr (mem_map_of_mem mem) n.addr (by simp)
    simpa using this
  have taken : (done ++ [n]).takeWhile (fun x => decide (x.addr ≠ n.addr)) = done := by
    rw [takeWhile_append_of_pos before]
    simp
  have left : (done ++ [n]).dropWhile (fun x => decide (x.addr ≠ n.addr)) = [n] := by
    rw [dropWhile_append_of_pos before]
    simp
  obtain ⟨sb',record,ran,inv',_,head,_⟩ := inv.grow split fresh
  have same : (if record.length = done.length + 1 then record ++ [] else record) = record := by
    split
    · exact append_nil _
    · rfl
  have guard : ([done ++ [n]].head?.bind fun r => r.head?.map (·.addr)) = sb.sbLastrecord := by
    rw [some_]
    exact first
  rw [split,nil_append]
  simp only [guard,ne_eq,not_true,if_false,tail]
  simp only [taken,left,ran,same]
  refine ⟨_,rfl,?_,by simp,done,some n,rfl,?_,fun absent => by cases absent⟩
  · have last : sb'.sbLastrecord = record.head?.map (·.addr) := by
      have := inv'.lastrecord
      simpa [firstAddr] using this
    rw [← last]
    exact inv'
  rw [ran]
  rfl
end

def Sockbuf.plus (sb : Sockbuf) (w : Int × Int) : Sockbuf := {sb with sbCc := sb.sbCc + w.1,sbMbcnt := sb.sbMbcnt + w.2}

theorem plus_plus (sb : Sockbuf) (v w : Int × Int) : (sb.plus v).plus w = sb.plus (v + w) := by
  simp [Sockbuf.plus,Int.add_assoc]

theorem plus_zero (sb : Sockbuf) : sb.plus 0 = sb := by simp [Sockbuf.plus]

theorem sballocChain_eq (sb : Sockbuf) (r : Chain) : sballocChain z sb r = sb.plus (weigh z r) := by
  unfold sballocChain
  induction r generalizing sb with
  | nil => exact (plus_zero sb).symm
  | cons m r ih =>
    have first : sballoc z sb m = sb.plus (weight z m) := rfl
    rw [foldl_cons,ih,first,plus_plus,weigh_cons]

theorem sbfreeChain_eq (sb : Sockbuf) (r : Chain) : sbfreeChain z sb r = sb.plus (-weigh z r) := by
  unfold sbfreeChain
  induction r generalizing sb with
  | nil => exact (plus_zero sb).symm
  | cons m r ih =>
    have first : sbfree z sb m = sb.plus (-weight z m) := rfl
    rw [foldl_cons,ih,first,plus_plus,weigh_cons]
    congr 1
    abel

theorem counters_plus (sb : Sockbuf) (w : Int × Int) : counters (sb.plus w) = counters sb + w := rfl

theorem linkRecord_inv (inv : Inv z sb) (some_ : r ≠ []) (fresh : Fresh sb (addrs r)) : ∃ sb',linkRecord z sb r = .ok sb' ∧ Inv z sb' := by
  have link := @sblinkrecordchain_spec z sb (sballocChain z sb r) inv (by rw [sballocChain_eq]; rfl) (by rw [sballocChain_eq]; rfl) [r]
  refine ⟨_,by rw [linkRecord,link]; rfl,@Inv.link z sb _ [r] inv (by simp) ?_ rfl ?_ ?_ ?_ rfl⟩
  · show counters (sballocChain z sb r) = _
    rw [sballocChain_eq,counters_plus]
    simp
  · intro x mem
    rcases mem_singleton.mp mem with rfl
    exact some_
  · simpa using fresh
  · rfl

theorem sbappendaddr_inv {asa : List UInt8} {control : Chain} {got : Mget} {done : Bool} (inv : Inv z sb)
    (fresh : Fresh sb (got.addr.toList ++ addrs (control ++ l))) (ran : sbappendaddr z sb asa l control got = .ok (sb',done)) : Inv z sb' := by
  unfold sbappendaddr at ran
  split at ran
  · cases ran
  split at ran
  · cases ran
    exact inv
  split at ran
  · cases ran
    exact inv
  next addr same =>
  split at ran
  · cases ran
    exact inv
  rw [same] at fresh
  have linked : ∀ m : Mbuf,m.addr = addr → ∀ sb₁,linkRecord z sb (m :: (control ++ l)) = .ok sb₁ → Inv z sb₁ := by
    rintro m rfl sb₁ link
    obtain ⟨sb₂,link',inv'⟩ := @linkRecord_inv z sb (m :: (control ++ l)) inv (by simp) fresh
    rw [link] at link'
    exact Except.ok.inj link' ▸ inv'
  obtain ⟨sb₁,link,ok⟩ := Outcome.bind_ok ran
  cases ok
  exact linked _ rfl _ link

theorem sbappendcontrol_inv {control : Chain} {done : Bool} (inv : Inv z sb) (fresh : Fresh sb (addrs (control ++ l)))
    (ran : sbappendcontrol z sb l control = .ok (sb',done)) : Inv z sb' := by
  unfold sbappendcontrol at ran
  split at ran
  · cases ran
  next some_ =>
  split at ran
  · cases ran
    exact inv
  obtain ⟨sb₁,link,ok⟩ := Outcome.bind_ok ran
  cases ok
  obtain ⟨sb₂,link',inv'⟩ := linkRecord_inv inv (append_ne_nil_of_left_ne_nil some_ l) fresh
  rw [link] at link'
  exact Except.ok.inj link' ▸ inv'

structure Prepended (z : Sizes) (sb : Sockbuf) (m₀ : List Chain) (got : List (Option Nat)) (sb' : Sockbuf) (new : List Chain) (all : Bool) : Prop where
  counted : sb' = sb.plus (weigh z new.flatten)
  chains : ∀ r ∈ new,r ≠ []
  linked : (addrs new.flatten).Subperm (addrs m₀.flatten ++ got.reduceOption)
  all : all = true → new = [] → m₀ = []

theorem prependSockaddrs_spec (z : Sizes) (asa : List UInt8) (sb : Sockbuf) (m₀ : List Chain) (got : List (Option Nat)) : ∃ sb' new all,
    prependSockaddrs z asa sb m₀ got = (sb',new,all) ∧ Prepended z sb m₀ got sb' new all := by
  induction m₀ generalizing sb got with
  | nil => exact ⟨sb,[],true,rfl,(plus_zero sb).symm,by simp,nil_subperm,fun _ _ => rfl⟩
  | cons r rest ih =>
    cases got with
    | nil => exact ⟨sb,[],false,rfl,(plus_zero sb).symm,by simp,nil_subperm,by simp⟩
    | cons g got =>
      cases g with
      | none => exact ⟨sb,[],false,rfl,(plus_zero sb).symm,by simp,nil_subperm,by simp⟩
      | some addr =>
        have step : ∀ m : Mbuf,m.addr = addr → ∃ sb' new all,prependSockaddrs z asa (sballocChain z sb (m :: r)) rest got = (sb',new,all) ∧
            Prepended z sb (r :: rest) (some addr :: got) sb' ((m :: r) :: new) all := by
          rintro m rfl
          obtain ⟨sb',new,all,ran,spec⟩ := ih (sballocChain z sb (m :: r)) got
          refine ⟨sb',new,all,ran,?_,?_,?_,by simp⟩
          · rw [spec.counted,sballocChain_eq,plus_plus]
            simp [add_assoc]
          · intro x mem
            rcases mem_cons.mp mem with rfl | mem
            · simp
            · exact spec.chains x mem
          have perm : (addrs (r :: rest).flatten ++ (some m.addr :: got).reduceOption).Perm ((m.addr :: addrs r) ++ (addrs rest.flatten ++ got.reduceOption)) := by
            simp only [flatten_cons,addrs_append]
            rw [cons_append,← append_assoc]
            exact perm_middle
          rw [perm.subperm_left]
          simp only [flatten_cons,addrs_append]
          exact (subperm_append_left _).mpr spec.linked
        obtain ⟨sb',new,all,ran,spec⟩ := step ⟨addr,asa,.mtSoname,false,none,some (asa.length + pktLen r),z.mhlen - asa.length⟩ rfl
        refine ⟨sb',_,all,?_,spec⟩
        simp only [prependSockaddrs,head?_cons,join_some,tail_cons,ran]

theorem foldl_sbfreeChain (z : Sizes) (sb : Sockbuf) (new : List Chain) : new.foldl (sbfreeChain z) sb = sb.plus (-weigh z new.flatten) := by
  induction new generalizing sb with
  | nil => exact (plus_zero sb).symm
  | cons r new ih =>
    rw [foldl_cons,ih,sbfreeChain_eq,plus_plus,flatten_cons,weigh_append]
    congr 1
    abel

theorem sbappendaddrchain_false {asa : List UInt8} {m₀ : List Chain} {got : List (Option Nat)} (ran : sbappendaddrchain z sb asa m₀ got = .ok (sb',false)) :
    sb' = sb := by
  unfold sbappendaddrchain at ran
  split at ran
  · cases ran
  split at ran
  · cases ran
  obtain ⟨sb₁,new,all,pre,spec⟩ := prependSockaddrs_spec z asa sb m₀ got
  rw [pre] at ran
  dsimp only at ran
  split at ran
  · cases ran
    rw [foldl_sbfreeChain,spec.counted,plus_plus,add_neg_cancel,plus_zero]
  obtain ⟨sb₂,_,ok⟩ := Outcome.bind_ok ran
  split at ok
  · cases ok
  · cases ok

theorem sbappendaddrchain_inv {asa : List UInt8} {m₀ : List Chain} {got : List (Option Nat)} (inv : Inv z sb)
    (fresh : Fresh sb (addrs m₀.flatten ++ got.reduceOption)) (ran : sbappendaddrchain z sb asa m₀ got = .ok (sb',true)) : Inv z sb' := by
  unfold sbappendaddrchain at ran
  split at ran
  · cases ran
  split at ran
  · cases ran
  obtain ⟨sb₁,new,all,pre,spec⟩ := prependSockaddrs_spec z asa sb m₀ got
  rw [pre] at ran
  dsimp only at ran
  split at ran
  · cases ran
  obtain ⟨listed,perm,sub⟩ := spec.linked
  have fresh' : Fresh sb (addrs new.flatten) :=
    ⟨perm.nodup_iff.mp (fresh.1.sublist sub),fun a mem => fresh.2 a (sub.subset (perm.mem_iff.mpr mem))⟩
  have link := @sblinkrecordchain_spec z sb sb₁ inv (by rw [spec.counted]; rfl) (by rw [spec.counted]; rfl) new
  rw [link,Outcome.ok_bind] at ran
  split at ran
  · cases ran
  next r last =>
  cases ran
  refine @Inv.link z sb _ new inv (ne_nil_of_mem (mem_of_getLast? last)) ?_ rfl spec.chains fresh' rfl ?_
  · show counters sb₁ = _
    rw [spec.counted,counters_plus]
  rw [last]
  rfl
end NetbsdAvr32.Sockbuf
