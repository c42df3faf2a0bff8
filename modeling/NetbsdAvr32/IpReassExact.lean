import NetbsdAvr32.IpReass

-- The fragments of one datagram among those of others: its packet comes back when
-- they cover the payload.
namespace NetbsdAvr32.IpReass
open Function Spans List

def Whole (payload : List UInt8) (l : List Ipqent) : Prop := ∀ x, x < payload.length → x ∈ cover start stop l

variable {payload : List UInt8} {e e' q : Ipqent} {l : List Ipqent} {s s' : Reass} {h : Fin 64} {fp : Ipq} {k : Nat}

theorem walk_fits (l : List Ipqent) (a b : Nat) : walk a l = some b ↔ Fits start stop a l b := by
  induction l generalizing a with
  | nil => simp [walk,Fits]
  | cons q l ih =>
    rw [walk]
    split
    · next off =>
      refine ⟨nofun,fun fits => ?_⟩
      exact absurd fits.1 off
    next here =>
    have here : start q = a := Decidable.not_not.mp here
    have next : a + q.ip.ipLen = stop q := by
      rw [← here]
      rfl
    rw [next,ih]
    exact ⟨fun rest => ⟨here,rest⟩,fun fits => fits.2⟩

theorem fits_data (l : List Ipqent) (carries : ∀ e ∈ l, Carries payload e) (a b : Nat) (fits : Fits start stop a l b) :
    l.flatMap (·.m) = (payload.drop a).take (b - a) := by
  induction l generalizing a with
  | nil =>
    cases fits
    simp
  | cons q l ih =>
    obtain ⟨rfl,rest⟩ := fits
    have further := rest.le fun e _ => start_le e
    have stop_q : stop q = start q + q.ip.ipLen := rfl
    have more : b - start q = q.ip.ipLen + (b - stop q) := by omega
    rw [flatMap_cons,ih (fun e mem => carries e (mem_cons_of_mem _ mem)) _ rest,(carries q mem_cons_self).bytes,more,
      take_add,drop_drop,stop_q]

theorem Ordered.whole (ordered : Ordered payload l) (whole : Whole payload l) : Fits start stop 0 l payload.length :=
  ordered.apart.fits (Nat.zero_le _) (fun _ _ => Nat.zero_le _) (fun e mem => (ordered.carries e mem).1.inside) fun x _ inside => whole x inside

theorem complete_whole (ordered : Ordered payload fp.fragq) (first : fp.fragq.head? = some q) (whole : Whole payload fp.fragq) :
    complete s h k fp = if payload.length + q.ip.ipHl * 4 > ipMaxpacket then (ipFreef s h k fp,none)
      else (setIpq {s with ipNfrags := s.ipNfrags - fp.nfrags,ipNfragpackets := s.ipNfragpackets - 1} h ((s.ipq h).eraseIdx k),
        some ({q.ip with ipLen := short payload.length,ipSrc := fp.src,ipDst := fp.dst},payload)) := by
  have fits := ordered.whole whole
  have walked := (walk_fits _ _ _).mpr fits
  have nonempty : fp.fragq ≠ [] := by
    rintro none_
    rw [none_] at first
    cases first
  obtain ⟨p,last⟩ := Option.isSome_iff_exists.mp (getLast?_isSome.mpr nonempty)
  have end_ := fits.last last
  have mff : p.mff = false := by
    have := (ordered.carries p (mem_of_getLast? last)).1.mff
    simp [end_] at this
    exact this
  have data : fp.fragq.flatMap (·.m) = payload := by
    rw [fits_data fp.fragq (fun e mem => (ordered.carries e mem).1) _ _ fits]
    simp
  unfold complete
  rw [walked,last,first]
  dsimp only
  rw [if_neg (by simp [mff]),data]

theorem complete_part (ordered : Ordered payload fp.fragq) (part : ¬Whole payload fp.fragq) : complete s h k fp = (s,none) := by
  unfold complete
  split
  · next next p q walked last first =>
    have fits := (walk_fits _ _ _).mp walked
    have end_ := fits.last last
    have carries := (ordered.carries p (mem_of_getLast? last)).1
    have more : p.mff = true := carries.mff.mpr fun same => part fun x inside =>
      (fits.cover fun e _ => start_le e).mpr ⟨Nat.zero_le x,by omega⟩
    rw [if_pos more]
  · rfl

def place (ip : Ip) : Fin 64 := ipReassHash ip.ipSrc ip.ipId

structure Same (a b : Ip) : Prop where
  id : a.ipId = b.ipId
  src : a.ipSrc = b.ipSrc
  dst : a.ipDst = b.ipDst
  p : a.ipP = b.ipP

variable {a b : Ip} {got : List Ipqent}

theorem Same.place (same : Same a b) : place a = place b := by
  rw [IpReass.place,same.src,same.id]
  rfl

theorem Same.datagram (same : Same a b) : sameDatagram a = sameDatagram b := by
  funext fp
  rw [sameDatagram,same.id,same.src,same.dst,same.p]
  rfl

theorem same_of (one : sameDatagram a fp = true) (two : sameDatagram b fp = true) : Same a b := by
  simp only [sameDatagram,Bool.and_eq_true,beq_iff_eq] at one two
  obtain ⟨⟨⟨id,src⟩,dst⟩,p⟩ := one
  obtain ⟨⟨⟨id',src'⟩,dst'⟩,p'⟩ := two
  exact ⟨id.trans id'.symm,src.trans src'.symm,dst.trans dst'.symm,p.trans p'.symm⟩

def queuesOf (s : Reass) (d : Ip) : List Ipq := (s.ipq (place d)).filter (sameDatagram d)

structure At (s : Reass) (d : Ip) (fp : Ipq) (left right : List Ipq) : Prop where
  chain : s.ipq (place d) = left ++ fp :: right
  here : sameDatagram d fp = true
  left : left.filter (sameDatagram d) = []
  right : right.filter (sameDatagram d) = []

variable {d : Ip} {left right : List Ipq}

theorem at_of (one : queuesOf s d = [fp]) : ∃ left right, At s d fp left right := by
  obtain ⟨left,right,chain,before,here,after⟩ := filter_eq_cons_iff.mp one
  exact ⟨left,right,chain,here,filter_eq_nil_iff.mpr before,after⟩

theorem At.find (at_ : At s d fp left right) (same : Same e.ip d) : findIpq s (place d) e.ip = some left.length := by
  have away : left.findIdx? (sameDatagram d) = none := by
    rw [findIdx?_eq_none_iff]
    exact fun x mem => by simpa using filter_eq_nil_iff.mp at_.left x mem
  rw [findIpq,same.datagram,at_.chain,findIdx?_append,away]
  simp [at_.here,findIdx?_cons]

theorem find_none (none_ : queuesOf s d = []) (same : Same e.ip d) : findIpq s (place d) e.ip = none := by
  rw [findIpq,same.datagram,findIdx?_eq_none_iff]
  exact fun x mem => by simpa using filter_eq_nil_iff.mp none_ x mem

theorem At.get (at_ : At s d fp left right) : (s.ipq (place d))[left.length]? = some fp := by
  rw [at_.chain]
  simp

theorem At.set (at_ : At s d fp left right) (new : Ipq) : (s.ipq (place d)).set left.length new = left ++ new :: right := by
  rw [at_.chain]
  simp

theorem At.erase (at_ : At s d fp left right) : (s.ipq (place d)).eraseIdx left.length = left ++ right := by
  rw [at_.chain,eraseIdx_append_of_length_le (Nat.le_refl _)]
  simp

structure Kept (payload : List UInt8) (l got : List Ipqent) : Prop where
  ordered : Ordered payload l
  cover : ∀ x, x ∈ cover start stop l ↔ x ∈ cover start stop got
  from_ : ∀ q ∈ l, ∃ f ∈ got, q.ip.ipHl = f.ip.ipHl ∧ start f ≤ start q
  nonempty : l ≠ []

theorem Kept.whole (kept : Kept payload l got) : Whole payload l ↔ Whole payload got :=
  forall_congr' fun x => imp_congr_right fun _ => kept.cover x

-- What ip_reass returns once the fragments `got` are received: the packet, with the
-- header of a fragment at 0, unless the packet would be too long.
def Answer (payload : List UInt8) (got : List Ipqent) : Option (Ip × List UInt8) → Prop
  | some (ip,data) => Whole payload got ∧ data = payload ∧ ip.ipLen = payload.length ∧ payload.length + ip.ipHl * 4 ≤ 65535 ∧
    ∃ f ∈ got, start f = 0 ∧ f.ip.ipHl = ip.ipHl
  | none => Whole payload got → ∃ f ∈ got, start f = 0 ∧ payload.length + f.ip.ipHl * 4 > 65535

theorem setIpq_chain (s : Reass) (h : Fin 64) (l : List Ipq) : (setIpq s h l).ipq h = l := update_self _ _ _

theorem complete_answer (at_ : At s d fp left right) (kept : Kept payload fp.fragq got) :
    Answer payload got (complete s (place d) left.length fp).2 ∧
    (Whole payload got → queuesOf (complete s (place d) left.length fp).1 d = []) ∧
    (¬Whole payload got → (complete s (place d) left.length fp).1 = s) := by
  by_cases whole : Whole payload fp.fragq
  · have all := kept.whole.mp whole
    cases first : fp.fragq.head? with
    | none => exact absurd (head?_eq_none_iff.mp first) kept.nonempty
    | some q =>
      have begins : start q = 0 := by
        have fits := kept.ordered.whole whole
        obtain ⟨rest,list⟩ := head?_eq_some_iff.mp first
        rw [list] at fits
        exact fits.1
      obtain ⟨f,mem,hl,low⟩ := kept.from_ q (mem_of_head? first)
      have zero : start f = 0 := by omega
      have gone : (left ++ right).filter (sameDatagram d) = [] := by
        rw [filter_append,at_.left,at_.right]
        rfl
      rw [complete_whole kept.ordered first whole,at_.erase]
      split
      · next long =>
        refine ⟨fun _ => ⟨f,mem,zero,by rw [← hl]; exact long⟩,fun _ => ?_,fun part => absurd all part⟩
        rw [queuesOf,ipFreef,setIpq_chain,at_.erase]
        exact gone
      next fits_ =>
      have small : payload.length + q.ip.ipHl * 4 ≤ 65535 := by
        unfold ipMaxpacket at fits_
        omega
      refine ⟨⟨all,rfl,Nat.mod_eq_of_lt (by omega),small,f,mem,zero,hl.symm⟩,fun _ => ?_,fun part => absurd all part⟩
      rw [queuesOf,setIpq_chain]
      exact gone
  have part := fun all => whole (kept.whole.mpr all)
  rw [complete_part kept.ordered whole]
  exact ⟨fun all => absurd all part,fun all => absurd all part,fun _ => rfl⟩

structure Fragment (d : Ip) (payload : List UInt8) (e : Ipqent) : Prop where
  same : Same e.ip d
  carries : Carries payload e
  short : e.ip.ipLen < 65536

def Holds (s : Reass) (d : Ip) (payload : List UInt8) (got : List Ipqent) : Prop :=
  (got = [] ∧ queuesOf s d = []) ∨ ¬Whole payload got ∧ ∃ fp, queuesOf s d = [fp] ∧ Kept payload fp.fragq got

structure Room (s : Reass) (d : Ip) (e : Ipqent) (malloc : Bool) : Prop where
  first : queuesOf s d = [] → refused s = false ∧ malloc = true
  trimmable : ∀ fp ∈ queuesOf s d, ∀ q ∈ fp.fragq, Trimmable e q

def received (s : Reass) (e : Ipqent) (malloc : Bool) : Reass × Option (Ip × List UInt8) :=
  ipReass s (place e.ip) (findIpq s (place e.ip) e.ip) e malloc

structure Own (s' : Reass) (d : Ip) (payload : List UInt8) (got : List Ipqent) (r : Option (Ip × List UInt8)) : Prop where
  answer : Answer payload got r
  whole : Whole payload got → Holds s' d payload []
  part : ¬Whole payload got → Holds s' d payload got

theorem complete_own {got : List Ipqent} (at_ : At s d fp left right) (kept : Kept payload fp.fragq got) :
    Own (complete s (place d) left.length fp).1 d payload got (complete s (place d) left.length fp).2 := by
  obtain ⟨answer,whole,part⟩ := complete_answer at_ kept
  refine ⟨answer,fun all => .inl ⟨rfl,whole all⟩,fun more => .inr ⟨more,fp,?_,kept⟩⟩
  rw [part more,queuesOf,at_.chain,filter_append,at_.left,filter_cons_of_pos at_.here,at_.right]
  rfl

theorem ordered_one (carries : Carries payload e) (short_ : e.ip.ipLen < 65536) : Ordered payload [e] :=
  ordered_cons carries short_ (by simp) ⟨apart_nil,by simp⟩

theorem first_own (none_ : queuesOf s d = []) (fragment : Fragment d payload e) (room : Room s d e malloc) :
    Own (received s e malloc).1 d payload [e] (received s e malloc).2 := by
  obtain ⟨open_,memory⟩ := room.first none_
  have same : refused {s with ipNfrags := s.ipNfrags + 1} = refused s := rfl
  rw [received,fragment.same.place,find_none none_ fragment.same,ipReass,ipReassFirst]
  rw [same,open_,if_neg (by simp),memory,if_neg (by simp)]
  refine @complete_own _ _ _ _ [] (s.ipq (place d)) _ ⟨setIpq_chain _ _ _,?_,rfl,none_⟩ ⟨ordered_one fragment.carries fragment.short,
    fun x => Iff.rfl,fun q mem => ⟨q,mem,rfl,Nat.le_refl _⟩,by simp [newIpq]⟩
  have here : sameDatagram e.ip (newIpq e) = true := by simp [sameDatagram,newIpq]
  rwa [fragment.same.datagram] at here

theorem ipReass_next (at_ : (s.ipq h)[k]? = some fp) : ipReass s h (some k) e malloc = ipReassNext s h k fp e := by
  simp only [ipReass,at_]

@[simp] theorem sameDatagram_count (ip : Ip) (fp : Ipq) (n : Nat) : sameDatagram ip {fp with nfrags := n} = sameDatagram ip fp := rfl

@[simp] theorem sameDatagram_queue (ip : Ip) (fp : Ipq) (n : Nat) (l : List Ipqent) :
    sameDatagram ip {fp with nfrags := n,fragq := l} = sameDatagram ip fp := rfl

theorem next_own (one : queuesOf s d = [fp]) (kept : Kept payload fp.fragq got) (more : ¬Whole payload got)
    (fragment : Fragment d payload e) (room : Room s d e malloc) :
    Own (received s e malloc).1 d payload (e :: got) (received s e malloc).2 := by
  obtain ⟨left,right,at_⟩ := at_of one
  have trimmable : ∀ q ∈ fp.fragq, Trimmable e q := room.trimmable fp (by rw [one]; exact mem_cons_self)
  rw [received,fragment.same.place,at_.find fragment.same,ipReass_next at_.get,ipReassNext]
  have wider : ∀ x, x ∈ cover start stop (e :: fp.fragq) ↔ x ∈ cover start stop (e :: got) := fun x => by
    rw [cover_cons,cover_cons,Set.mem_union,Set.mem_union,kept.cover]
  split
  · next dropped =>
    have kept' : Kept payload fp.fragq (e :: got) := ⟨kept.ordered,fun x => (covered kept.ordered dropped x).trans (wider x),fun q mem => by
      obtain ⟨f,here,from_⟩ := kept.from_ q mem
      exact ⟨f,mem_cons_of_mem _ here,from_⟩,kept.nonempty⟩
    have more' : ¬Whole payload (e :: got) := fun all => more (kept.whole.mp (kept'.whole.mpr all))
    have queue : ∀ s₁ n, queuesOf (setIpq s₁ (place d) ((s.ipq (place d)).set left.length {fp with nfrags := n})) d = [{fp with nfrags := n}] := by
      intro s₁ n
      rw [queuesOf,setIpq_chain,at_.set,filter_append,at_.left,filter_cons_of_pos (by rw [sameDatagram_count]; exact at_.here),at_.right]
      rfl
    exact ⟨fun all => absurd all more',fun all => absurd all more',fun _ => .inr ⟨more',_,queue _ _,kept'⟩⟩
  next e' left_ =>
  have inserted := inserted kept.ordered fragment.carries fragment.short trimmable left_
  have own : ∀ s₁ fp₁, s₁.ipq (place d) = left ++ fp₁ :: right → sameDatagram d fp₁ = true →
      fp₁.fragq = fp.fragq.takeWhile (beginsBy e) ++ e' :: (trimNext e' (fp.fragq.dropWhile (beginsBy e))).1 →
      Own (complete s₁ (place d) left.length fp₁).1 d payload (e :: got) (complete s₁ (place d) left.length fp₁).2 := by
    intro s₁ fp₁ chain here list
    rw [← list] at inserted
    refine complete_own ⟨chain,here,at_.left,at_.right⟩ ⟨inserted.ordered,fun x => (inserted.cover x).trans (wider x),fun q mem => ?_,?_⟩
    · obtain ⟨old,mem,hl,low⟩ := inserted.from_ q mem
      rcases mem_cons.mp mem with rfl | mem
      · exact ⟨old,mem_cons_self,hl,low⟩
      obtain ⟨f,here,hl',low'⟩ := kept.from_ old mem
      exact ⟨f,mem_cons_of_mem _ here,hl.trans hl',Nat.le_trans low' low⟩
    rw [list]
    simp
  refine own _ _ ((setIpq_chain _ _ _).trans (at_.set _)) ?_ rfl
  exact at_.here

theorem filter_erase {p : Ipq → Bool} {l : List Ipq} (at_ : l[k]? = some fp) (off : p fp = false) : (l.eraseIdx k).filter p = l.filter p := by
  induction l generalizing k with
  | nil => cases at_
  | cons x l ih =>
    cases k with
    | zero =>
      cases Option.some.inj at_
      simp [off]
    | succ k =>
      rw [eraseIdx_cons_succ,filter_cons,filter_cons,ih at_]

theorem filter_set {p : Ipq → Bool} {l : List Ipq} {new : Ipq} (at_ : l[k]? = some fp) (off : p fp = false) (off' : p new = false) :
    (l.set k new).filter p = l.filter p := by
  induction l generalizing k with
  | nil => cases at_
  | cons x l ih =>
    cases k with
    | zero =>
      cases Option.some.inj at_
      simp [off,off']
    | succ k =>
      rw [set_cons_succ,filter_cons,filter_cons,ih at_]

theorem queuesOf_set {l : List Ipq} (d : Ip) (same : l.filter (sameDatagram d) = (s.ipq h).filter (sameDatagram d)) :
    queuesOf (setIpq s h l) d = queuesOf s d := by
  unfold queuesOf setIpq
  dsimp only
  by_cases here : place d = h
  · subst here
    rw [update_self,same]
  · rw [update_of_ne here]

theorem complete_others (at_ : (s.ipq h)[k]? = some fp) (off : sameDatagram d fp = false) : queuesOf (complete s h k fp).1 d = queuesOf s d := by
  unfold complete
  split
  · split
    · rfl
    split
    · exact (queuesOf_set (s := freed s fp) d (filter_erase at_ off))
    · exact queuesOf_set (s := {s with ipNfrags := s.ipNfrags - fp.nfrags,ipNfragpackets := s.ipNfragpackets - 1}) d (filter_erase at_ off)
  · rfl

theorem others (s : Reass) (e : Ipqent) (malloc : Bool) (other : ¬Same e.ip d) : queuesOf (received s e malloc).1 d = queuesOf s d := by
  have apart : ∀ fp, sameDatagram e.ip fp = true → sameDatagram d fp = false := fun fp here => by
    by_contra there
    exact other (same_of here (by simpa using there))
  have new : sameDatagram d (newIpq e) = false := apart _ (by simp [sameDatagram,newIpq])
  unfold received
  cases found : findIpq s (place e.ip) e.ip with
  | none =>
    rw [ipReass,ipReassFirst]
    split
    · rfl
    split
    · rfl
    have made := queuesOf_set (s := {s with ipNfrags := s.ipNfrags + 1,ipNfragpackets := s.ipNfragpackets + 1}) (h := place e.ip)
      (l := newIpq e :: s.ipq (place e.ip)) d (filter_cons_of_neg (by simp [new]))
    refine (complete_others ?_ new).trans made
    rw [setIpq_chain]
    rfl
  | some k =>
    cases at_ : (s.ipq (place e.ip))[k]? with
    | none => simp only [ipReass,at_]
    | some fp =>
      have match_ : sameDatagram e.ip fp = true := by
        obtain ⟨bound,matches_,_⟩ := findIdx?_eq_some_iff_getElem.mp found
        rw [getElem?_eq_getElem bound] at at_
        cases Option.some.inj at_
        exact matches_
      have off := apart fp match_
      rw [ipReass_next at_,ipReassNext]
      split
      · exact queuesOf_set (s := {s with ipNfrags := s.ipNfrags + 1 - 1}) d
          (filter_set at_ off (by rw [sameDatagram_count]; exact off))
      next e' _ =>
      generalize trimNext e' (fp.fragq.dropWhile (beginsBy e)) = r
      obtain ⟨after,removed⟩ := r
      have changed := queuesOf_set (s := {s with ipNfrags := s.ipNfrags + 1 - removed}) (h := place e.ip) (l := (s.ipq (place e.ip)).set k
        {fp with nfrags := short (short (fp.nfrags + 1) + 65535 * removed),fragq := fp.fragq.takeWhile (beginsBy e) ++ e' :: after}) d
        (filter_set at_ off (by rw [sameDatagram_queue]; exact off))
      refine (complete_others ?_ (by rw [sameDatagram_queue]; exact off)).trans changed
      rw [setIpq_chain,List.getElem?_set_self (List.getElem?_eq_some_iff.mp at_).1]

inductive Run (d : Ip) (payload : List UInt8) : Reass → List Ipqent → Prop
  | start {s : Reass} (none_ : queuesOf s d = []) : Run d payload s []
  | other {s : Reass} {got : List Ipqent} {e : Ipqent} (run : Run d payload s got) (other : ¬Same e.ip d) :
      Run d payload (received s e malloc).1 got
  | part {s : Reass} {got : List Ipqent} {e : Ipqent} (run : Run d payload s got) (fragment : Fragment d payload e) (room : Room s d e malloc)
      (part : ¬Whole payload (e :: got)) : Run d payload (received s e malloc).1 (e :: got)
  | whole {s : Reass} {got : List Ipqent} {e : Ipqent} (run : Run d payload s got) (fragment : Fragment d payload e) (room : Room s d e malloc)
      (whole : Whole payload (e :: got)) : Run d payload (received s e malloc).1 []

theorem Holds.own (holds : Holds s d payload got) (fragment : Fragment d payload e) (room : Room s d e malloc) :
    Own (received s e malloc).1 d payload (e :: got) (received s e malloc).2 := by
  rcases holds with ⟨rfl,none_⟩ | ⟨more,fp,one,kept⟩
  · exact first_own none_ fragment room
  · exact next_own one kept more fragment room

theorem Run.holds (run : Run d payload s got) : Holds s d payload got := by
  induction run with
  | start none_ => exact .inl ⟨rfl,none_⟩
  | other _ other ih =>
    unfold Holds
    rw [others _ _ _ other]
    exact ih
  | part _ fragment room part ih => exact (ih.own fragment room).part part
  | whole _ fragment room whole ih => exact (ih.own fragment room).whole whole

-- The queue is in order and holds what was received; the packet comes with the fragment
-- that makes it whole.
theorem reass_exact {got : List Ipqent} (run : Run d payload s got) :
    (∀ fp ∈ queuesOf s d, Ordered payload fp.fragq ∧ ∀ x, x ∈ cover start stop fp.fragq ↔ x ∈ cover start stop got) ∧
    ∀ e malloc, Fragment d payload e → Room s d e malloc → Answer payload (e :: got) (received s e malloc).2 := by
  refine ⟨fun fp mem => ?_,fun e malloc fragment room => (run.holds.own fragment room).answer⟩
  rcases run.holds with ⟨_,none_⟩ | ⟨_,fp',one,kept⟩
  · rw [none_] at mem
    cases mem
  · rw [one] at mem
    cases mem_singleton.mp mem
    exact ⟨kept.ordered,kept.cover⟩

def headerIp : Ip := ⟨5,0,8,7,0,17,1,2⟩

def part (payload : List UInt8) (off len : Nat) : Ipqent :=
  ⟨off + len ≠ payload.length,{headerIp with ipOff := off,ipLen := len},(payload.drop off).take len⟩

theorem part_fragment (payload : List UInt8) (off len : Nat) (inside : off + len ≤ payload.length) (short_ : len < 65536) :
    Fragment headerIp payload (part payload off len) where
  same := ⟨rfl,rfl,rfl,rfl⟩
  carries := ⟨rfl,inside,by simp [part,stop]⟩
  short := short_

def idle : Reass := ⟨fun _ => [],0,0,200⟩

theorem reass_exact_halves : ∃ s, Run headerIp (List.replicate 16 0) s [part (List.replicate 16 0) 8 8] ∧
    (received s (part (List.replicate 16 0) 0 8) true).2 = some ({headerIp with ipLen := 16},List.replicate 16 0) ∧
    Answer (replicate 16 0) [part (replicate 16 0) 0 8,part (replicate 16 0) 8 8] (received s (part (replicate 16 0) 0 8) true).2 := by
  have last := part_fragment (replicate 16 0) 8 8 (by decide) (by decide)
  have first := part_fragment (replicate 16 0) 0 8 (by decide) (by decide)
  have run : Run headerIp (replicate 16 0) (received idle (part (replicate 16 0) 8 8) true).1 [part (replicate 16 0) 8 8] :=
    .part (.start rfl) last ⟨fun _ => ⟨rfl,rfl⟩,fun fp mem => by cases mem⟩ fun whole => by
      obtain ⟨e,mem,low,_⟩ := whole 0 (by decide)
      cases mem_singleton.mp mem
      revert low
      decide
  refine ⟨_,run,by decide,(reass_exact run).2 _ true first ⟨fun none_ => absurd none_ (by decide),fun fp mem q here => ?_⟩⟩
  have queue : queuesOf (received idle (part (replicate 16 0) 8 8) true).1 headerIp = [newIpq (part (replicate 16 0) 8 8)] := rfl
  cases mem_singleton.mp mem
  cases mem_singleton.mp here
  exact ⟨by decide,by decide⟩

theorem part_trims (payload : List UInt8) :
    trimNext (part payload 65520 104) [part payload 65528 172] = ([mAdj (part payload 65528 172) 96],0) := by
  simp [trimNext,stop,part]

-- Two fragments that overlap behind 65536: the later one is left with the offset 88.
theorem reass_wraps : ∃ (payload : List UInt8) (e₁ e₂ : Ipqent), Fragment headerIp payload e₁ ∧ Fragment headerIp payload e₂ ∧
    ∃ fp ∈ queuesOf (received (received idle e₁ true).1 e₂ true).1 headerIp, ¬Ordered payload fp.fragq := by
  obtain ⟨payload,size⟩ : ∃ payload : List UInt8, payload.length = 65700 := ⟨replicate 65700 0,length_replicate⟩
  refine ⟨payload,part payload 65528 172,part payload 65520 104,part_fragment _ _ _ (by omega) (by decide),
    part_fragment _ _ _ (by omega) (by decide),?_⟩
  have early : (newIpq (part payload 65528 172)).fragq.takeWhile (beginsBy (part payload 65520 104)) = [] := rfl
  have late : (newIpq (part payload 65528 172)).fragq.dropWhile (beginsBy (part payload 65520 104)) = [part payload 65528 172] := rfl
  have one : (received idle (part payload 65528 172) true).1 =
      setIpq {idle with ipNfrags := 1,ipNfragpackets := 1} (place headerIp) [newIpq (part payload 65528 172)] := rfl
  have two : queuesOf (received (received idle (part payload 65528 172) true).1 (part payload 65520 104) true).1 headerIp =
      [{newIpq (part payload 65528 172) with nfrags := 2,fragq := [part payload 65520 104,mAdj (part payload 65528 172) 96]}] := by
    have found : ∀ s, s.ipq (place headerIp) = [newIpq (part payload 65528 172)] →
        received s (part payload 65520 104) true = ipReassNext s (place headerIp) 0 (newIpq (part payload 65528 172)) (part payload 65520 104) := by
      intro s chain
      have find : findIpq s (place headerIp) (part payload 65520 104).ip = some 0 := by
        rw [findIpq,chain]
        rfl
      show ipReass s (place headerIp) (findIpq s (place headerIp) (part payload 65520 104).ip) _ _ = _
      rw [find]
      exact ipReass_next (by rw [chain]; rfl)
    rw [one,found _ (setIpq_chain _ _ _)]
    unfold ipReassNext
    simp only [early,late,getLast?_nil,trimPrev,part_trims]
    rfl
  rw [two]
  refine ⟨_,mem_singleton_self _,fun ordered => ?_⟩
  have across := (apart_cons.mp ordered.apart).2.1 _ (mem_singleton_self _)
  have stops : stop (part payload 65520 104) = 65624 := rfl
  have shifted : ∀ e i, start (mAdj e i) = short (start e + i) := fun _ _ => rfl
  have starts : start (part payload 65528 172) = 65528 := rfl
  have wraps : short (65528 + 96) = 88 := by decide
  rw [shifted,starts,wraps,stops] at across
  omega
end NetbsdAvr32.IpReass
