import NetbsdAvr32.Msg
import NetbsdAvr32.Allot

-- Where the segments are while a message gets its segments and gives them back.
namespace NetbsdAvr32.Sysvmsg
open Function Linked Allot List
variable {c : Msginfo} {s s' s'' : Msgs} {live : Option Nat → Prop} {segs segs' : Option Nat → List Nat} {h n fuel : Nat} {l : List Nat}

theorem Msginfo.msgssz_pos (c : Msginfo) : 8 ≤ c.msgssz := by
  have := c.power
  simp only [mem_cons,not_mem_nil,or_false] at this
  omega

-- The free segments are the list at none, those of a message the one at its
-- header; a header that is free has none.
structure SegLaid (c : Msginfo) (s : Msgs) (live : Option Nat → Prop) (segs : Option Nat → List Nat) : Prop where
  allot : Allot c.msgseg segs
  count : s.nfreeMsgmaps = (segs none).length
  spare : live none
  chains : ∀ k,live k → Chain s.segLink (.head k) (segs k)
  idle : ∀ k,¬live k → segs k = []

structure Near (h : Nat) (s s' : Msgs) : Prop where
  pool : s'.msgpool = s.msgpool
  hdrs : ∀ x,x ≠ h → s'.msghdrs x = s.msghdrs x
  next : (s'.msghdrs h).msgNext = (s.msghdrs h).msgNext
  type : (s'.msghdrs h).msgType = (s.msghdrs h).msgType
  free : s'.freeMsghdrs = s.freeMsghdrs
  msqs : s'.msqs = s.msqs

theorem Near.refl (h : Nat) (s : Msgs) : Near h s s := ⟨rfl,fun _ _ => rfl,rfl,rfl,rfl,rfl⟩

theorem Near.trans (one : Near h s s') (two : Near h s' s'') : Near h s s'' :=
  ⟨two.pool.trans one.pool,fun x ne => (two.hdrs x ne).trans (one.hdrs x ne),two.next.trans one.next,two.type.trans one.type,
    two.free.trans one.free,two.msqs.trans one.msqs⟩

theorem Near.hdrLink (near : Near h s s') : s'.hdrLink = s.hdrLink := by
  funext slot
  match slot with
  | .head none => exact near.free
  | .head (some ix) =>
    change (s'.msqs ix).msgFirst = (s.msqs ix).msgFirst
    rw [near.msqs]
  | .next x =>
    change (s'.msghdrs x).msgNext = (s.msghdrs x).msgNext
    by_cases same : x = h
    · subst same
      exact near.next
    · rw [near.hdrs x same]

def segTaken (s : Msgs) (h next : Nat) : Msgs :=
  { s with freeMsgmaps := s.msgmaps next, nfreeMsgmaps := s.nfreeMsgmaps - 1, msgmaps := update s.msgmaps next (s.msghdrs h).msgSpot,
           msghdrs := update s.msghdrs h { s.msghdrs h with msgSpot := some next } }

def segFreed (c : Msginfo) (s : Msgs) (h p : Nat) : Msgs :=
  { s with msgmaps := update s.msgmaps p s.freeMsgmaps, freeMsgmaps := some p, nfreeMsgmaps := s.nfreeMsgmaps + 1,
           msghdrs := update s.msghdrs h { s.msghdrs h with msgSpot := s.msgmaps p, msgTs := (s.msghdrs h).msgTs - c.msgssz } }

variable {x : Slot (Option Nat) Nat} {p : Nat}

theorem segTaken_near (s : Msgs) (h p : Nat) : Near h s (segTaken s h p) := by
  refine ⟨rfl,fun x ne => update_of_ne ne ..,?_,?_,rfl,rfl⟩ <;> simp [segTaken]

theorem segFreed_near (c : Msginfo) (s : Msgs) (h p : Nat) : Near h s (segFreed c s h p) := by
  refine ⟨rfl,fun x ne => update_of_ne ne ..,?_,?_,rfl,rfl⟩ <;> simp [segFreed]

theorem Near.segLink (near : Near h s s') (maps : ∀ q,q ≠ p → s'.msgmaps q = s.msgmaps q) (free : x ≠ .head none) (spot : x ≠ .head (some h))
    (next : x ≠ .next p) : s'.segLink x = s.segLink x := by
  match x with
  | .head none => exact absurd rfl free
  | .head (some k) =>
    have ne : k ≠ h := by
      rintro rfl
      exact spot rfl
    exact congrArg Msghdr.msgSpot (near.hdrs k ne)
  | .next q =>
    refine maps q ?_
    rintro rfl
    exact next rfl

theorem segTaken_link (free : x ≠ .head none) (spot : x ≠ .head (some h)) (next : x ≠ .next p) :
    (segTaken s h p).segLink x = s.segLink x :=
  (segTaken_near s h p).segLink (fun _ ne => update_of_ne ne ..) free spot next

theorem segFreed_link (free : x ≠ .head none) (spot : x ≠ .head (some h)) (next : x ≠ .next p) :
    (segFreed c s h p).segLink x = s.segLink x :=
  (segFreed_near c s h p).segLink (fun _ ne => update_of_ne ne ..) free spot next

theorem SegLaid.taken {rest : List Nat} (laid : SegLaid c s live segs) (lives : live (some h)) (first : segs none = p :: rest) :
    SegLaid c (segTaken s h p) live (give segs none rest (some h) (p :: segs (some h))) := by
  have ne : (none : Option Nat) ≠ some h := nofun
  refine ⟨laid.allot.move ne (first ▸ List.Perm.refl _) (List.Perm.refl _),?_,laid.spare,?_,fun k dead => ?_⟩
  · have := laid.count
    rw [give_from ne]
    rw [first,length_cons] at this
    change s.nfreeMsgmaps - 1 = _
    omega
  · refine laid.allot.shift laid.chains ne laid.spare lives first rfl ?_ ?_ (fun x => segTaken_link)
    · simp [Msgs.segLink,segTaken]
    · simp [Msgs.segLink,segTaken]
  have : k ≠ some h := by
    rintro rfl
    exact dead lives
  have other : k ≠ none := by
    rintro rfl
    exact dead laid.spare
  rw [give_else other this]
  exact laid.idle k dead

theorem SegLaid.freed {rest : List Nat} (laid : SegLaid c s live segs) (lives : live (some h)) (first : segs (some h) = p :: rest) :
    SegLaid c (segFreed c s h p) live (give segs (some h) rest none (p :: segs none)) := by
  have ne : some h ≠ none := nofun
  refine ⟨laid.allot.move ne (first ▸ List.Perm.refl _) (List.Perm.refl _),?_,laid.spare,?_,fun k dead => ?_⟩
  · have := laid.count
    rw [give_to,length_cons]
    change s.nfreeMsgmaps + 1 = _
    omega
  · refine laid.allot.shift laid.chains ne lives laid.spare first ?_ rfl ?_ (fun x spot free => segFreed_link free spot)
    · simp [Msgs.segLink,segFreed]
    · simp [Msgs.segLink,segFreed]
  have : k ≠ some h := by
    rintro rfl
    exact dead lives
  have other : k ≠ none := by
    rintro rfl
    exact dead laid.spare
  rw [give_else this other]
  exact laid.idle k dead

theorem takeSegs_spec (n : Nat) {s : Msgs} {segs : Option Nat → List Nat} (laid : SegLaid c s live segs) (lives : live (some h)) (enough : n ≤ (segs none).length) :
    ∃ s' segs',takeSegs c n s h = some s' ∧ SegLaid c s' live segs' ∧ Near h s s' ∧ (s'.msghdrs h).msgTs = (s.msghdrs h).msgTs ∧
      (segs' (some h)).length = (segs (some h)).length + n ∧ ∀ k,k ≠ none → k ≠ some h → segs' k = segs k := by
  induction n generalizing s segs with
  | zero => exact ⟨s,segs,rfl,laid,.refl h s,rfl,rfl,fun _ _ _ => rfl⟩
  | succ n ih =>
    cases first : segs none with
    | nil =>
      rw [first] at enough
      exact absurd enough (by simp)
    | cons p rest =>
      rw [first,length_cons] at enough
      have head : s.freeMsgmaps = some p := by
        have := (laid.chains none laid.spare).first
        rwa [first] at this
      have low : p < c.msgseg := laid.allot.below none p (first ▸ mem_cons_self)
      have some_ : 0 < s.nfreeMsgmaps := by
        have := laid.count
        rw [first,length_cons] at this
        omega
      have ne : (none : Option Nat) ≠ some h := nofun
      obtain ⟨s',segs',ran,laid',near,ts,length,others⟩ := ih (laid.taken lives first) (by rw [give_from ne]; omega)
      refine ⟨s',segs',?_,laid',(segTaken_near s h p).trans near,?_,?_,fun k one two => ?_⟩
      · rw [takeSegs,if_pos some_,head]
        dsimp only
        rw [if_pos low]
        exact ran
      · rw [ts]
        simp [segTaken]
      · rw [length,give_to,length_cons]
        omega
      · rw [others k one two,give_else one two]

theorem segsNeeded_pos (some_ : 0 < n) : segsNeeded c n = segsNeeded c (n - c.msgssz) + 1 := by
  have size := c.msgssz_pos
  unfold segsNeeded
  by_cases more : c.msgssz ≤ n
  · have : n + c.msgssz - 1 = (n - c.msgssz + c.msgssz - 1) + c.msgssz := by omega
    rw [this,Nat.add_div_right _ (by omega)]
  have none_ : n - c.msgssz + c.msgssz - 1 = c.msgssz - 1 := by omega
  have one : n + c.msgssz - 1 = (n - 1) + c.msgssz := by omega
  rw [none_,one,Nat.add_div_right _ (by omega),Nat.div_eq_of_lt (by omega),Nat.div_eq_of_lt (by omega)]

theorem segsNeeded_zero : segsNeeded c 0 = 0 := by
  have size := c.msgssz_pos
  exact Nat.div_eq_of_lt (by omega)

theorem freeSegs_spec (l : List Nat) {s : Msgs} {segs : Option Nat → List Nat} {fuel : Nat} (laid : SegLaid c s live segs) (lives : live (some h))
    (mine : segs (some h) = l) (size : l.length = segsNeeded c (s.msghdrs h).msgTs) (enough : (s.msghdrs h).msgTs < fuel) :
    ∃ s' segs',freeSegs c fuel s h = some s' ∧ SegLaid c s' live segs' ∧ Near h s s' ∧ segs' (some h) = [] ∧
      (segs' none).length = (segs none).length + l.length ∧ ∀ k,k ≠ none → k ≠ some h → segs' k = segs k := by
  induction l generalizing s segs fuel with
  | nil =>
    cases fuel with
    | zero => exact absurd enough (Nat.not_lt_zero _)
    | succ fuel =>
      have zero : ¬0 < (s.msghdrs h).msgTs := by
        intro some_
        rw [segsNeeded_pos some_] at size
        cases size
      refine ⟨s,segs,?_,laid,.refl h s,mine,rfl,fun _ _ _ => rfl⟩
      rw [freeSegs,if_neg zero]
  | cons p rest ih =>
    cases fuel with
    | zero => exact absurd enough (Nat.not_lt_zero _)
    | succ fuel =>
      have some_ : 0 < (s.msghdrs h).msgTs := by
        by_contra none_
        rw [Nat.eq_zero_of_not_pos none_,segsNeeded_zero] at size
        cases size
      have spot : (s.msghdrs h).msgSpot = some p := by
        have := (laid.chains _ lives).first
        rwa [mine] at this
      have low : p < c.msgseg := laid.allot.below (some h) p (mine ▸ mem_cons_self)
      have ne : some h ≠ none := nofun
      have left : ((segFreed c s h p).msghdrs h).msgTs = (s.msghdrs h).msgTs - c.msgssz := by simp [segFreed]
      rw [segsNeeded_pos some_,length_cons] at size
      have small := c.msgssz_pos
      obtain ⟨s',segs',ran,laid',near,gone,length,others⟩ := @ih _ _ fuel (laid.freed lives mine) (give_from ne) (by rw [left]; omega) (by rw [left]; omega)
      refine ⟨s',segs',?_,laid',(segFreed_near c s h p).trans near,gone,?_,fun k one two => ?_⟩
      · rw [freeSegs,if_pos some_,spot]
        dsimp only
        rw [if_pos low]
        convert ran using 2
        simp [segFreed,Msgs.setHdr]
      · rw [length,give_to,length_cons,length_cons]
        omega
      · rw [others k one two,give_else two one]

variable {c : Msginfo} {s s' s'' : Msgs} {up up' : Nat → Prop} {hdrs : Place → List Nat} {segs segs' : Option Nat → List Nat} {h ix t n : Nat} {l rest : List Nat} {k : Place} {a : Recv}

inductive Place where
  | free
  | queue (ix : Nat)
  | call (t : Nat)
  deriving DecidableEq

def inUse (hdrs : Place → List Nat) : Option Nat → Prop
  | none => True
  | some h => ∃ k,k ≠ .free ∧ h ∈ hdrs k

structure Laid (c : Msginfo) (s : Msgs) (up : Nat → Prop) (hdrs : Place → List Nat) (segs : Option Nat → List Nat) : Prop where
  allot : Allot c.msgtql hdrs
  free : Chain s.hdrLink (.head none) (hdrs .free)
  queues : ∀ ix,up ix → Chain s.hdrLink (.head (some ix)) (hdrs (.queue ix))
  lasts : ∀ ix,up ix → (s.msqs ix).msgLast = (hdrs (.queue ix)).getLast?
  store : SegLaid c s (inUse hdrs) segs
  sizes : ∀ k,k ≠ .free → ∀ h ∈ hdrs k,(segs (some h)).length = segsNeeded c (s.msghdrs h).msgTs

structure Still (s s' : Msgs) : Prop where
  pool : s'.msgpool = s.msgpool
  maps : s'.msgmaps = s.msgmaps
  freeMaps : s'.freeMsgmaps = s.freeMsgmaps
  nfree : s'.nfreeMsgmaps = s.nfreeMsgmaps
  type : ∀ x,(s'.msghdrs x).msgType = (s.msghdrs x).msgType
  ts : ∀ x,(s'.msghdrs x).msgTs = (s.msghdrs x).msgTs
  spot : ∀ x,(s'.msghdrs x).msgSpot = (s.msghdrs x).msgSpot

theorem Still.refl (s : Msgs) : Still s s := ⟨rfl,rfl,rfl,rfl,fun _ => rfl,fun _ => rfl,fun _ => rfl⟩

theorem Still.trans (one : Still s s') (two : Still s' s'') : Still s s'' :=
  ⟨two.pool.trans one.pool,two.maps.trans one.maps,two.freeMaps.trans one.freeMaps,two.nfree.trans one.nfree,
    fun x => (two.type x).trans (one.type x),fun x => (two.ts x).trans (one.ts x),fun x => (two.spot x).trans (one.spot x)⟩

theorem segLink_congr (maps : s'.msgmaps = s.msgmaps) (free : s'.freeMsgmaps = s.freeMsgmaps) (spot : ∀ x,(s'.msghdrs x).msgSpot = (s.msghdrs x).msgSpot) :
    s'.segLink = s.segLink := by
  funext slot
  match slot with
  | .head none => exact free
  | .head (some x) => exact spot x
  | .next p => exact congrFun maps p

theorem setQueue_still (s : Msgs) (ix : Nat) (x : MsqidDs) : Still s (s.setQueue ix x) := ⟨rfl,rfl,rfl,rfl,fun _ => rfl,fun _ => rfl,fun _ => rfl⟩

theorem setHdr_still (s : Msgs) (h : Nat) (next : Option Nat) : Still s (s.setHdr h { s.msghdrs h with msgNext := next }) := by
  refine ⟨rfl,rfl,rfl,rfl,fun x => ?_,fun x => ?_,fun x => ?_⟩ <;>
  · by_cases same : x = h
    · subst same
      simp [Msgs.setHdr]
    · simp [Msgs.setHdr,update_of_ne same]

theorem SegLaid.still {live : Option Nat → Prop} (laid : SegLaid c s live segs) (still : Still s s') : SegLaid c s' live segs := by
  refine ⟨laid.allot,still.nfree.trans laid.count,laid.spare,?_,laid.idle⟩
  rw [segLink_congr still.maps still.freeMaps still.spot]
  exact laid.chains

theorem SegLaid.relive {live live' : Option Nat → Prop} (laid : SegLaid c s live segs) (spare : live' none) (more : ∀ k,live' k → live k ∨ segs k = [] ∧ s.segLink (.head k) = none)
    (less : ∀ k,live k → live' k ∨ segs k = []) : SegLaid c s live' segs := by
  refine ⟨laid.allot,laid.count,spare,fun k lives => ?_,fun k dead => ?_⟩
  · rcases more k lives with was | ⟨none_,link⟩
    · exact laid.chains k was
    rw [none_]
    exact chain_nil.mpr link
  by_cases was : live k
  · exact (less k was).resolve_left dead
  · exact laid.idle k was

theorem hdrLink_setQueue {x : Slot (Option Nat) Nat} {q : MsqidDs} (off : x ≠ .head (some ix)) : (s.setQueue ix q).hdrLink x = s.hdrLink x := by
  match x with
  | .head none => rfl
  | .head (some j) =>
    have ne : j ≠ ix := by
      rintro rfl
      exact off rfl
    change (update s.msqs ix q j).msgFirst = (s.msqs j).msgFirst
    rw [update_of_ne ne]
  | .next h => rfl

theorem hdrLink_setQueue_self {q : MsqidDs} : (s.setQueue ix q).hdrLink (.head (some ix)) = q.msgFirst := congrArg MsqidDs.msgFirst (update_self ..)

theorem hdrLink_setHdr {x : Slot (Option Nat) Nat} {y : Msghdr} (off : x ≠ .next h) : (s.setHdr h y).hdrLink x = s.hdrLink x := by
  match x with
  | .head none => rfl
  | .head (some j) => rfl
  | .next i =>
    have ne : i ≠ h := by
      rintro rfl
      exact off rfl
    change (update s.msghdrs h y i).msgNext = (s.msghdrs i).msgNext
    rw [update_of_ne ne]

theorem hdrLink_setHdr_self {y : Msghdr} : (s.setHdr h y).hdrLink (.next h) = y.msgNext := congrArg Msghdr.msgNext (update_self ..)
theorem setQueue_at {q : MsqidDs} : (s.setQueue ix q).msqs ix = q := update_self ..
theorem setQueue_else {q : MsqidDs} {j : Nat} (ne : j ≠ ix) : (s.setQueue ix q).msqs j = s.msqs j := update_of_ne ne ..
theorem setHdr_at {y : Msghdr} : (s.setHdr h y).msghdrs h = y := update_self ..
theorem setHdr_else {y : Msghdr} {i : Nat} (ne : i ≠ h) : (s.setHdr h y).msghdrs i = s.msghdrs i := update_of_ne ne ..

theorem hdrLink_queue (same : ∀ ix,(s'.msqs ix).msgFirst = (s.msqs ix).msgFirst) (free : s'.freeMsghdrs = s.freeMsghdrs) (hdrs : ∀ x,(s'.msghdrs x).msgNext = (s.msghdrs x).msgNext) :
    s'.hdrLink = s.hdrLink := by
  funext slot
  match slot with
  | .head none => exact free
  | .head (some ix) => exact same ix
  | .next x => exact hdrs x

theorem Laid.frame (laid : Laid c s up hdrs segs) (still : Still s s') (free : s'.freeMsghdrs = s.freeMsghdrs) (next : ∀ x,(s'.msghdrs x).msgNext = (s.msghdrs x).msgNext)
    (old : ∀ ix,up' ix → up ix ∧ (s'.msqs ix).msgFirst = (s.msqs ix).msgFirst ∧ (s'.msqs ix).msgLast = (s.msqs ix).msgLast ∨
      hdrs (.queue ix) = [] ∧ (s'.msqs ix).msgFirst = none ∧ (s'.msqs ix).msgLast = none) : Laid c s' up' hdrs segs := by
  have links (x : Nat) : s'.hdrLink (.next x) = s.hdrLink (.next x) := next x
  refine ⟨laid.allot,laid.free.frame free fun x _ => links x,fun ix lives => ?_,fun ix lives => ?_,laid.store.still still,fun k used h mem => ?_⟩
  · rcases old ix lives with ⟨was,first,_⟩ | ⟨none_,first,_⟩
    · exact (laid.queues ix was).frame first fun x _ => links x
    rw [none_]
    exact chain_nil.mpr first
  · rcases old ix lives with ⟨was,_,last⟩ | ⟨none_,_,last⟩
    · rw [last]
      exact laid.lasts ix was
    rw [none_,last]
    rfl
  rw [still.ts]
  exact laid.sizes k used h mem

theorem Laid.chainOff (laid : Laid c s up hdrs segs) {j : Place} (mem : h ∈ hdrs k) (ne : j ≠ k) {link : Slot (Option Nat) Nat → Option Nat}
    {slot : Slot (Option Nat) Nat} (chain : Chain s.hdrLink slot (hdrs j)) (first : link slot = s.hdrLink slot) (same : ∀ x,x ≠ h → link (.next x) = s.hdrLink (.next x)) :
    Chain link slot (hdrs j) := by
  refine chain.frame first fun x other => same x ?_
  rintro rfl
  exact laid.allot.off mem ne other

theorem inUse_give {b : Place} {r : List Nat} (allot : Allot c.msgtql hdrs) (ne : k ≠ b) (took : (hdrs k).Perm (h :: l)) (gave : r.Perm (h :: hdrs b)) (x : Nat) :
    inUse (give hdrs k l b r) (some x) ↔ if x = h then b ≠ .free else inUse hdrs (some x) := by
  have member (j : Place) := mem_give (y := x) (k := j) ne took gave allot
  constructor
  · rintro ⟨j,used,mem⟩
    rw [member] at mem
    split at mem
    · next same =>
      rw [if_pos same]
      exact mem ▸ used
    next other =>
    rw [if_neg other]
    exact ⟨j,used,mem⟩
  intro used
  split at used
  · next same => exact ⟨b,used,(member b).mpr (by rw [if_pos same])⟩
  next other =>
  obtain ⟨j,used,mem⟩ := used
  exact ⟨j,used,(member j).mpr (by rw [if_neg other]; exact mem)⟩

theorem mem_inUse (used : k ≠ .free) (mem : h ∈ hdrs k) : inUse hdrs (some h) := ⟨k,used,mem⟩

theorem msgFreehdr_spec (laid : Laid c s up hdrs segs) (used : k ≠ .free) (whole : ∀ ix,k = .queue ix → ¬up ix) (took : (hdrs k).Perm (h :: l)) :
    ∃ s' segs',msgFreehdr c s h = some s' ∧ Laid c s' up (give hdrs k l .free (h :: hdrs .free)) segs' ∧ s'.msgpool = s.msgpool ∧ s'.msqs = s.msqs ∧
      (∀ x,x ≠ h → s'.msghdrs x = s.msghdrs x) ∧ (∀ j,j ≠ none → j ≠ some h → segs' j = segs j) ∧ s'.nfreeMsgmaps = s.nfreeMsgmaps + (segs (some h)).length ∧ s'.freeMsghdrs = some h := by
  have mem : h ∈ hdrs k := took.mem_iff.mpr mem_cons_self
  have lives : inUse hdrs (some h) := mem_inUse used mem
  obtain ⟨s₁,segs',ran,laid₁,near,gone,length,others⟩ := freeSegs_spec _ laid.store lives rfl (laid.sizes k used h mem) (Nat.lt_succ_self _)
  have end_ : (s₁.msghdrs h).msgSpot = none := by
    have := (laid₁.chains _ lives).first
    rwa [gone] at this
  refine ⟨{ s₁.setHdr h { s₁.msghdrs h with msgNext := s₁.freeMsghdrs } with freeMsghdrs := some h },segs',?_,?_,near.pool,near.msqs,?_,others,?_,rfl⟩
  · rw [msgFreehdr,ran]
    dsimp only
    rw [if_pos end_]
  · have apart : k ≠ .free := used
    have perm : (h :: hdrs .free).Perm (h :: hdrs .free) := .refl _
    have links := near.hdrLink
    have linkFree : s₁.freeMsghdrs = s.hdrLink (.head none) := near.free
    have next : ∀ x,x ≠ h → (s₁.setHdr h { s₁.msghdrs h with msgNext := s₁.freeMsghdrs }).hdrLink (.next x) = s.hdrLink (.next x) := by
      intro x ne
      rw [hdrLink_setHdr (by rintro ⟨⟩; exact ne rfl),links]
    refine ⟨laid.allot.move apart took perm,?_,fun ix lives' => ?_,fun ix lives' => ?_,?_,?_⟩
    · refine laid.free.push rfl ?_ fun x other => next x ?_
      · exact hdrLink_setHdr_self.trans linkFree
      rintro rfl
      exact laid.allot.off mem (Ne.symm apart) other
    · have ne : Place.queue ix ≠ k := fun is => whole ix is.symm lives'
      rw [give_else (b := .free) ne nofun]
      refine laid.chainOff mem ne (laid.queues ix lives') ?_ next
      exact congrArg MsqidDs.msgFirst (congrFun near.msqs ix)
    · have ne : Place.queue ix ≠ k := fun is => whole ix is.symm lives'
      rw [give_else (b := .free) ne nofun]
      exact (congrArg MsqidDs.msgLast (congrFun near.msqs ix)).trans (laid.lasts ix lives')
    · have again := laid₁.still (setHdr_still s₁ h s₁.freeMsghdrs)
      have relived : SegLaid c (s₁.setHdr h { s₁.msghdrs h with msgNext := s₁.freeMsghdrs }) (inUse (give hdrs k l .free (h :: hdrs .free))) segs' := by
        refine again.relive trivial (fun j now => ?_) (fun j was => ?_)
        · match j with
          | none => exact .inl trivial
          | some x =>
            have now := (inUse_give laid.allot apart took perm x).mp now
            split at now
            · exact absurd rfl now
            · exact .inl now
        match j with
        | none => exact .inl trivial
        | some x =>
          by_cases same : x = h
          · exact .inr (same ▸ gone)
          refine .inl ((inUse_give laid.allot apart took perm x).mpr ?_)
          rw [if_neg same]
          exact was
      exact relived.still ⟨rfl,rfl,rfl,rfl,fun _ => rfl,fun _ => rfl,fun _ => rfl⟩
    intro j usedJ x memJ
    rw [mem_give apart took perm laid.allot] at memJ
    split at memJ
    · exact absurd memJ usedJ
    next other =>
    have same : (s₁.setHdr h { s₁.msghdrs h with msgNext := s₁.freeMsghdrs }).msghdrs x = s.msghdrs x := by
      rw [setHdr_else other,near.hdrs x other]
    rw [others (some x) nofun (by rintro ⟨⟩; exact other rfl)]
    exact (laid.sizes j usedJ x memJ).trans (congrArg (fun y : Msghdr => segsNeeded c y.msgTs) same).symm
  · intro x ne
    exact (setHdr_else ne).trans (near.hdrs x ne)
  · have one := laid.store.count
    have two := laid₁.count
    change s₁.nfreeMsgmaps = _
    omega
end NetbsdAvr32.Sysvmsg
