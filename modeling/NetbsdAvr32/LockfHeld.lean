import Mathlib.Data.List.Pairwise
import NetbsdAvr32.LockfOps

-- The list of a file's locks as a list of records, and what lf_clearlock and
-- lf_setlock do to it.
namespace NetbsdAvr32.Lockf
open List Lock

abbrev Entry := Ptr × Lock
def Lock.Covers (l : Lock) (x : Nat) : Prop := l.lfStart ≤ x ∧ (l.lfEnd = -1 ∨ (x : Int) ≤ l.lfEnd)
instance (l : Lock) (x : Nat) : Decidable (l.Covers x) := inferInstanceAs (Decidable (_ ∧ _))

structure Ranged (l : Lock) : Prop where
  start : 0 ≤ l.lfStart ∧ l.lfStart ≤ offMax
  fin : l.lfEnd = -1 ∨ l.lfStart ≤ l.lfEnd ∧ l.lfEnd < offMax

def Apart (a b : Lock) : Prop := a.lfEnd ≠ -1 ∧ b.lfStart > a.lfEnd ∨ b.lfEnd ≠ -1 ∧ a.lfStart > b.lfEnd
instance (a b : Lock) : Decidable (Apart a b) := inferInstanceAs (Decidable (_ ∨ _))
def Inside (a b : Lock) : Prop := b.lfStart ≤ a.lfStart ∧ (b.lfEnd = -1 ∨ a.lfEnd ≠ -1 ∧ a.lfEnd ≤ b.lfEnd)

variable {u l : Lock}

theorem apart_symm : Apart l u ↔ Apart u l := by
  exact or_comm

theorem apart_covers (ranged : Ranged l) (ranged' : Ranged u) : Apart l u ↔ ∀ x, l.Covers x → ¬ u.Covers x := by
  obtain ⟨⟨low,_⟩,fin⟩ := ranged
  obtain ⟨⟨low',_⟩,fin'⟩ := ranged'
  constructor
  · intro apart x one two
    unfold Apart at apart
    unfold Lock.Covers at one two
    omega
  intro none
  by_contra meet
  have common := none (max l.lfStart u.lfStart).toNat
  unfold Lock.Covers at common
  unfold Apart at meet
  omega

theorem inside_covers (inside : Inside l u) (x : Nat) (here : l.Covers x) : u.Covers x := by
  unfold Inside at inside
  unfold Lock.Covers at here ⊢
  omega

def Lock.front (l u : Lock) : Lock := {l with lfEnd := u.lfStart - 1, lfBlkhd := []}
def Lock.back (l u : Lock) : Lock := {l with lfStart := u.lfEnd + 1, lfBlkhd := []}

-- Taking the range of `u` from its owner's locks: the waiters of a lock that
-- goes are woken or, where `keep` says so, taken; those of a lock that is cut
-- are woken. A split needs the spare lock.
inductive Clears (u : Lock) (keep : Lock → Bool) :
    Option Ptr → List Entry → List Entry → List Ptr → List Ptr → Option Ptr → Prop
  | nil (sp) : Clears u keep sp [] [] [] [] sp
  | skip {sp es es' ws taken sp'} (e : Entry) (away : e.2.lfId ≠ u.lfId ∨ e.2.lfEnd ≠ -1 ∧ u.lfStart > e.2.lfEnd)
      (tail : Clears u keep sp es es' ws taken sp') : Clears u keep sp (e :: es) (e :: es') ws taken sp'
  | stop {sp} (e : Entry) (es) (own : e.2.lfId = u.lfId) (past : u.lfEnd ≠ -1 ∧ e.2.lfStart > u.lfEnd) :
      Clears u keep sp (e :: es) (e :: es) [] [] sp
  | equal {sp} (p l es) (own : l.lfId = u.lfId) (same : l.lfStart = u.lfStart ∧ l.lfEnd = u.lfEnd) (woken : keep l = false) :
      Clears u keep sp ((p,l) :: es) es l.lfBlkhd [] sp
  | inside {sp es es' ws taken sp'} (p l) (own : l.lfId = u.lfId) (inside : Inside l u)
      (tail : Clears u keep sp es es' ws taken sp') :
      Clears u keep sp ((p,l) :: es) es' ((bif keep l then [] else l.lfBlkhd) ++ ws)
        ((bif keep l then l.lfBlkhd else []) ++ taken) sp'
  | before {sp es es' ws taken sp'} (p l) (own : l.lfId = u.lfId) (starts : l.lfStart < u.lfStart)
      (reaches : l.lfEnd = -1 ∨ u.lfStart ≤ l.lfEnd) (ends : u.lfEnd = -1 ∨ l.lfEnd ≠ -1 ∧ l.lfEnd < u.lfEnd)
      (tail : Clears u keep sp es es' ws taken sp') :
      Clears u keep sp ((p,l) :: es) ((p,l.front u) :: es') (l.lfBlkhd ++ ws) taken sp'
  | last {sp} (p l es) (own : l.lfId = u.lfId) (starts : l.lfStart < u.lfStart) (ends : u.lfEnd ≠ -1 ∧ l.lfEnd = u.lfEnd) :
      Clears u keep sp ((p,l) :: es) ((p,l.front u) :: es) l.lfBlkhd [] sp
  | after {sp} (p l es) (own : l.lfId = u.lfId) (starts : u.lfStart ≤ l.lfStart) (fin : u.lfEnd ≠ -1)
      (meets : l.lfStart ≤ u.lfEnd) (ends : l.lfEnd = -1 ∨ u.lfEnd < l.lfEnd) :
      Clears u keep sp ((p,l) :: es) ((p,l.back u) :: es) l.lfBlkhd [] sp
  | split (q p l es) (own : l.lfId = u.lfId) (starts : l.lfStart < u.lfStart) (fin : u.lfEnd ≠ -1)
      (ends : l.lfEnd = -1 ∨ u.lfEnd < l.lfEnd) :
      Clears u keep (some q) ((p,l) :: es) ((p,l.front u) :: (q,l.back u) :: es) l.lfBlkhd [] none

variable {l' : Lock} {e : Entry} {es es' rest : List Entry} {keep : Lock → Bool} {sp sp' : Option Ptr} {ws taken : List Ptr}

def Ordered (a b : Entry) : Prop := a.2.lfId = b.2.lfId → a.2.lfEnd ≠ -1 ∧ a.2.lfEnd < b.2.lfStart
def Sorted (es : List Entry) : Prop := es.Pairwise Ordered

def Holds (es : List Entry) (o : Owner) (x : Nat) (type : LockType) : Prop :=
  ∃ e ∈ es, e.2.lfId = o ∧ e.2.Covers x ∧ e.2.lfType = type

-- What the range of `u` leaves of a lock of its owner: a smaller range, and no
-- waiters.
structure Part (u l l' : Lock) : Prop where
  own : l.lfId = u.lfId
  cut : 0 < u.lfStart ∨ u.lfEnd ≠ -1
  same : l'.lfId = l.lfId ∧ l'.lfType = l.lfType ∧ l'.lfHead = l.lfHead ∧ l'.lfFlags = l.lfFlags
  start : l.lfStart ≤ l'.lfStart
  ranged : Ranged l'
  inside : Inside l' l
  empty : l'.lfBlkhd = []

theorem front_part (own : l.lfId = u.lfId) (ranged : Ranged l) (start : l.lfStart < u.lfStart) (reaches : l.lfEnd = -1 ∨ u.lfStart ≤ l.lfEnd)
    (ranged' : Ranged u) : Part u l (l.front u) := by
  obtain ⟨⟨low,high⟩,fin⟩ := ranged
  obtain ⟨⟨low',high'⟩,_⟩ := ranged'
  refine ⟨own,.inl (by omega),⟨rfl,rfl,rfl,rfl⟩,Int.le_refl _,⟨⟨low,high⟩,?_⟩,⟨Int.le_refl _,?_⟩,rfl⟩
  · refine .inr ⟨?_,?_⟩ <;> dsimp only [front] <;> omega
  dsimp only [front]
  omega

theorem back_part (own : l.lfId = u.lfId) (ranged : Ranged l) (start : l.lfStart ≤ u.lfEnd) (ends : l.lfEnd = -1 ∨ u.lfEnd < l.lfEnd)
    (ranged' : Ranged u) (fin : u.lfEnd ≠ -1) : Part u l (l.back u) := by
  obtain ⟨⟨low,high⟩,_⟩ := ranged
  obtain ⟨_,below⟩ := ranged'
  refine ⟨own,.inr fin,⟨rfl,rfl,rfl,rfl⟩,?_,⟨⟨?_,?_⟩,?_⟩,⟨?_,?_⟩,rfl⟩ <;> dsimp only [back] <;> omega

variable {o : Owner} {x : Nat} {type : LockType} {r k : Ptr}

@[simp] theorem holds_nil : ¬ Holds [] o x type := by simp [Holds]

@[simp] theorem holds_cons : Holds (e :: es) o x type ↔
    (e.2.lfId = o ∧ e.2.Covers x ∧ e.2.lfType = type) ∨ Holds es o x type := by simp [Holds]

theorem clears_part (clears : Clears u keep sp es es' ws taken sp') (ranged : ∀ e ∈ es, Ranged e.2) (range : Ranged u) :
    ∀ e' ∈ es', e' ∈ es ∨ ∃ e ∈ es, Part u e.2 e'.2 := by
  have weaken : ∀ (a : Entry) (es : List Entry) e', (e' ∈ es ∨ ∃ e ∈ es, Part u e.2 e'.2) →
      e' ∈ a :: es ∨ ∃ e ∈ a :: es, Part u e.2 e'.2 := by
    intro a es e' found
    rcases found with same | ⟨e,member,part⟩
    · exact .inl (mem_cons_of_mem _ same)
    · exact .inr ⟨e,mem_cons_of_mem _ member,part⟩
  have rest : ∀ (a : Entry) (es : List Entry) e', e' ∈ es → e' ∈ a :: es ∨ ∃ e ∈ a :: es, Part u e.2 e'.2 :=
    fun a es e' member => .inl (mem_cons_of_mem _ member)
  induction clears with
  | nil | stop => intro e' member; exact .inl member
  | skip e away tail ih =>
    intro e' member
    rcases mem_cons.mp member with rfl | later
    · exact .inl (by simp)
    · exact weaken _ _ _ (ih (fun e member => ranged e (by simp [member])) e' later)
  | equal p l es => intro e' member; exact rest _ _ _ member
  | inside p l own inside tail ih =>
    intro e' member
    exact weaken _ _ _ (ih (fun e member => ranged e (by simp [member])) e' member)
  | before p l own starts reaches ends tail ih =>
    intro e' member
    rcases mem_cons.mp member with rfl | later
    · exact .inr ⟨(p,l),by simp,front_part own (ranged (p,l) (by simp)) starts reaches range⟩
    · exact weaken _ _ _ (ih (fun e member => ranged e (by simp [member])) e' later)
  | last p l es own starts ends =>
    intro e' member
    rcases mem_cons.mp member with rfl | later
    · have meets : l.lfEnd = -1 ∨ u.lfStart ≤ l.lfEnd := by have := range.fin; omega
      exact .inr ⟨(p,l),by simp,front_part own (ranged (p,l) (by simp)) starts meets range⟩
    · exact rest _ _ _ later
  | after p l es own starts fin meets ends =>
    intro e' member
    rcases mem_cons.mp member with rfl | later
    · exact .inr ⟨(p,l),by simp,back_part own (ranged (p,l) (by simp)) meets ends range fin⟩
    · exact rest _ _ _ later
  | split q p l es own starts fin ends =>
    have order := range.fin
    intro e' member
    rcases mem_cons.mp member with rfl | later
    · have meets : l.lfEnd = -1 ∨ u.lfStart ≤ l.lfEnd := by omega
      exact .inr ⟨(p,l),by simp,front_part own (ranged (p,l) (by simp)) starts meets range⟩
    rcases mem_cons.mp later with rfl | later
    · exact .inr ⟨(p,l),by simp,back_part own (ranged (p,l) (by simp)) (by dsimp only; omega) ends range fin⟩
    · exact rest _ _ _ later

theorem part_ordered {a b b' : Entry} (ordered : Ordered a b) (part : Part u b.2 b'.2) : Ordered a b' := by
  intro same
  have first := ordered (same.trans part.same.1)
  exact ⟨first.1,Int.lt_of_lt_of_le first.2 part.start⟩

theorem clears_ordered {a : Entry} (clears : Clears u keep sp es es' ws taken sp') (ranged : ∀ e ∈ es, Ranged e.2)
    (range : Ranged u) (ordered : ∀ b ∈ es, Ordered a b) : ∀ b ∈ es', Ordered a b := by
  intro b member
  rcases clears_part clears ranged range b member with old | ⟨e,old,part⟩
  · exact ordered b old
  · exact part_ordered (ordered e old) part

theorem clears_sorted (clears : Clears u keep sp es es' ws taken sp') (ranged : ∀ e ∈ es, Ranged e.2) (range : Ranged u)
    (sorted : Sorted es) : Sorted es' := by
  have order := range.fin
  -- A front part ends before `u`, and every later lock of the owner starts behind what was cut.
  have front : ∀ {p : Ptr} {l : Lock} {b : Entry}, Ordered (p,l) b → Ranged l → l.lfStart < u.lfStart →
      (l.lfEnd = -1 ∨ u.lfStart ≤ l.lfEnd) → Ordered (p,l.front u) b := by
    intro p l b before ranged starts reaches same
    have first := before same
    have low := ranged.start.1
    dsimp only [Lock.front] at first ⊢
    omega
  induction clears with
  | nil => exact sorted
  | skip e away tail ih =>
    obtain ⟨first,others⟩ := pairwise_cons.mp sorted
    have ranges : ∀ e : Entry, e ∈ _ → Ranged e.2 := fun e member => ranged e (mem_cons_of_mem _ member)
    exact pairwise_cons.mpr ⟨clears_ordered tail ranges range first,ih ranges others⟩
  | stop => exact sorted
  | equal => exact (pairwise_cons.mp sorted).2
  | inside p l own inside tail ih =>
    exact ih (fun e member => ranged e (by simp [member])) (pairwise_cons.mp sorted).2
  | before p l own starts reaches ends tail ih =>
    obtain ⟨first,others⟩ := pairwise_cons.mp sorted
    have ranges : ∀ e : Entry, e ∈ _ → Ranged e.2 := fun e member => ranged e (mem_cons_of_mem _ member)
    refine pairwise_cons.mpr ⟨?_,ih ranges others⟩
    exact clears_ordered tail ranges range (fun b member => front (first b member) (ranged (p,l) (by simp)) starts reaches)
  | last p l es own starts ends =>
    obtain ⟨first,others⟩ := pairwise_cons.mp sorted
    exact pairwise_cons.mpr ⟨fun b member => front (first b member) (ranged (p,l) (by simp)) starts (by omega),others⟩
  | after p l es own starts fin meets ends =>
    obtain ⟨first,others⟩ := pairwise_cons.mp sorted
    exact pairwise_cons.mpr ⟨first,others⟩
  | split q p l es own starts fin ends =>
    obtain ⟨first,others⟩ := pairwise_cons.mp sorted
    have low := (ranged (p,l) (by simp)).start.1
    refine pairwise_cons.mpr ⟨?_,pairwise_cons.mpr ⟨first,others⟩⟩
    intro b member
    rcases mem_cons.mp member with rfl | later
    · intro _
      dsimp only [Lock.front,Lock.back] at low ⊢
      omega
    · exact front (first b later) (ranged (p,l) (by simp)) starts (by omega)

theorem rest_past (first : ∀ b ∈ es, Ordered e b) (own : e.2.lfId = u.lfId)
    (reaches : e.2.lfEnd = -1 ∨ u.lfEnd ≠ -1 ∧ u.lfEnd ≤ e.2.lfEnd) (holds : Holds es o x type) :
    ¬ (o = u.lfId ∧ u.Covers x) := by
  rintro ⟨rfl,covers⟩
  obtain ⟨b,member,same,here,_⟩ := holds
  have ordered := first b member (own.trans same.symm)
  unfold Lock.Covers at covers here
  omega

theorem holds_stop (e : Entry) (parts : Prop) (first : ∀ b ∈ es, Ordered e b)
    (own : e.2.lfId = u.lfId) (reaches : e.2.lfEnd = -1 ∨ u.lfEnd ≠ -1 ∧ u.lfEnd ≤ e.2.lfEnd)
    (split : parts ↔ (e.2.lfId = o ∧ e.2.Covers x ∧ e.2.lfType = type) ∧ ¬ u.Covers x) :
    parts ∨ Holds es o x type ↔ Holds (e :: es) o x type ∧ ¬ (o = u.lfId ∧ u.Covers x) := by
  rw [split,holds_cons]
  constructor
  · rintro (⟨here,off⟩ | later)
    · exact ⟨.inl here,fun both => off both.2⟩
    · exact ⟨.inr later,rest_past first own reaches later⟩
  rintro ⟨here | later,off⟩
  · exact .inl ⟨here,fun covers => off ⟨here.1.symm.trans own,covers⟩⟩
  · exact .inr later

theorem holds_next (e : Entry) (parts : Prop)
    (ih : Holds es' o x type ↔ Holds es o x type ∧ ¬ (o = u.lfId ∧ u.Covers x))
    (split : parts ↔ (e.2.lfId = o ∧ e.2.Covers x ∧ e.2.lfType = type) ∧ ¬ (o = u.lfId ∧ u.Covers x)) :
    parts ∨ Holds es' o x type ↔ Holds (e :: es) o x type ∧ ¬ (o = u.lfId ∧ u.Covers x) := by
  rw [split,ih,holds_cons]
  exact or_and_right.symm

theorem front_covers (starts : l.lfStart < u.lfStart) (reaches : l.lfEnd = -1 ∨ u.lfStart ≤ l.lfEnd)
    (low : 0 ≤ l.lfStart) (ends : u.lfEnd = -1 ∨ l.lfEnd ≠ -1 ∧ l.lfEnd ≤ u.lfEnd) :
    (l.front u).Covers x ↔ l.Covers x ∧ ¬ u.Covers x := by
  unfold Lock.Covers front
  dsimp only
  omega

theorem back_covers (starts : u.lfStart ≤ l.lfStart) (fin : u.lfEnd ≠ -1) (meets : l.lfStart ≤ u.lfEnd)
    (ends : l.lfEnd = -1 ∨ u.lfEnd < l.lfEnd) : (l.back u).Covers x ↔ l.Covers x ∧ ¬ u.Covers x := by
  unfold Lock.Covers back
  dsimp only
  omega

theorem split_covers (starts : l.lfStart < u.lfStart) (low : 0 ≤ l.lfStart)
    (order : u.lfStart ≤ u.lfEnd) (ends : l.lfEnd = -1 ∨ u.lfEnd < l.lfEnd) :
    (l.front u).Covers x ∨ (l.back u).Covers x ↔ l.Covers x ∧ ¬ u.Covers x := by
  unfold Lock.Covers front back
  dsimp only
  omega

theorem left_part {covers : Prop} (split : covers ↔ l.Covers x ∧ ¬ u.Covers x) :
    l.lfId = o ∧ covers ∧ l.lfType = type ↔ (l.lfId = o ∧ l.Covers x ∧ l.lfType = type) ∧ ¬ u.Covers x := by
  rw [split]
  constructor
  · rintro ⟨same,⟨here,off⟩,kind⟩
    exact ⟨⟨same,here,kind⟩,off⟩
  rintro ⟨⟨same,here,kind⟩,off⟩
  exact ⟨same,⟨here,off⟩,kind⟩

theorem own_off {more : Prop} (own : l.lfId = u.lfId) :
    (l.lfId = o ∧ more) ∧ ¬ u.Covers x ↔ (l.lfId = o ∧ more) ∧ ¬ (o = u.lfId ∧ u.Covers x) := by
  constructor
  · rintro ⟨here,off⟩
    exact ⟨here,fun both => off both.2⟩
  rintro ⟨here,off⟩
  exact ⟨here,fun covers => off ⟨here.1.symm.trans own,covers⟩⟩

section
variable (clears : Clears u keep sp es es' ws taken sp')
include clears

theorem clears_holds 
    (ranged : ∀ e ∈ es, Ranged e.2) (range : Ranged u) (sorted : Sorted es) :
    Holds es' o x type ↔ Holds es o x type ∧ ¬ (o = u.lfId ∧ u.Covers x) := by
  have order := range.fin
  induction clears with
  | nil => simp
  | skip e away tail ih =>
    obtain ⟨_,others⟩ := pairwise_cons.mp sorted
    refine holds_cons.trans (holds_next e _ (ih (fun e member => ranged e (by simp [member])) others) ⟨fun here => ⟨here,?_⟩,And.left⟩)
    rintro ⟨rfl,covers⟩
    rcases away with other | apart
    · exact other here.1
    · exact (apart_covers (ranged e (by simp)) range).mp (.inl apart) x here.2.1 covers
  | stop e es own past =>
    obtain ⟨first,_⟩ := pairwise_cons.mp sorted
    have fin := (ranged e (by simp)).fin
    refine holds_cons.trans (holds_stop e _ first own (by omega) ⟨fun here => ⟨here,?_⟩,And.left⟩)
    unfold Lock.Covers at here ⊢
    omega
  | equal p l es own same =>
    obtain ⟨first,_⟩ := pairwise_cons.mp sorted
    rw [← false_or (Holds es o x type)]
    refine holds_stop (p,l) False first own (by dsimp only; omega) ⟨False.elim,?_⟩
    rintro ⟨⟨_,here,_⟩,off⟩
    unfold Lock.Covers at here off
    dsimp only at here
    omega
  | inside p l own inside tail ih =>
    rw [← false_or (Holds _ o x type)]
    refine holds_next (p,l) False (ih (fun e member => ranged e (by simp [member])) (pairwise_cons.mp sorted).2) ⟨False.elim,?_⟩
    rintro ⟨⟨rfl,here,_⟩,off⟩
    exact off ⟨own,inside_covers inside x here⟩
  | before p l own starts reaches ends tail ih =>
    have low := (ranged (p,l) (by simp)).start.1
    refine holds_cons.trans (holds_next (p,l) _ (ih (fun e member => ranged e (by simp [member])) (pairwise_cons.mp sorted).2) ?_)
    exact (left_part (front_covers starts reaches low (by omega))).trans (own_off own)
  | last p l es own starts ends =>
    obtain ⟨first,_⟩ := pairwise_cons.mp sorted
    have low := (ranged (p,l) (by simp)).start.1
    refine holds_cons.trans (holds_stop (p,l) _ first own (by dsimp only; omega) ?_)
    exact left_part (front_covers starts (by omega) low (by omega))
  | after p l es own starts fin meets ends =>
    obtain ⟨first,_⟩ := pairwise_cons.mp sorted
    refine holds_cons.trans (holds_stop (p,l) _ first own (by dsimp only; omega) ?_)
    exact left_part (back_covers starts fin meets ends)
  | split q p l es own starts fin ends =>
    obtain ⟨first,_⟩ := pairwise_cons.mp sorted
    have low := (ranged (p,l) (by simp)).start.1
    have covers := split_covers (x := x) starts low (by omega) ends
    rw [holds_cons,holds_cons (e := (q,l.back u)),← or_assoc]
    refine holds_stop (p,l) _ first own (by dsimp only; omega) ?_
    refine Iff.trans ?_ (left_part covers)
    dsimp only [front,back]
    rw [← and_or_left,← or_and_right]

theorem clears_entry (member : e ∈ es) :
    e ∈ es' ∨ e.2.lfId = u.lfId ∧ ∀ r ∈ e.2.lfBlkhd, r ∈ ws ∨ r ∈ taken := by
  induction clears with
  | nil => cases member
  | skip _ _ _ ih =>
    rcases mem_cons.mp member with rfl | later
    · simp
    · exact (ih later).imp_left (mem_cons_of_mem _)
  | stop => exact .inl member
  | equal p l es own =>
    rcases mem_cons.mp member with rfl | later
    · exact .inr ⟨own,fun r => .inl⟩
    · exact .inl later
  | inside p l own _ _ ih =>
    rcases mem_cons.mp member with rfl | later
    · refine .inr ⟨own,fun r waits => ?_⟩
      cases keep l with
      | true => exact .inr (mem_append_left _ waits)
      | false => exact .inl (mem_append_left _ waits)
    refine (ih later).imp_right fun ⟨mine,all⟩ => ⟨mine,fun r waits => ?_⟩
    exact (all r waits).imp (mem_append_right _) (mem_append_right _)
  | before p l own _ _ _ _ ih =>
    rcases mem_cons.mp member with rfl | later
    · exact .inr ⟨own,fun r waits => .inl (mem_append_left _ waits)⟩
    refine (ih later).imp (mem_cons_of_mem _) fun ⟨mine,all⟩ => ⟨mine,fun r waits => ?_⟩
    exact (all r waits).imp_left (mem_append_right _)
  | last p l es own | after p l es own =>
    rcases mem_cons.mp member with rfl | later
    · exact .inr ⟨own,fun r => .inl⟩
    · exact .inl (mem_cons_of_mem _ later)
  | split q p l es own =>
    rcases mem_cons.mp member with rfl | later
    · exact .inr ⟨own,fun r => .inl⟩
    · exact .inl (mem_cons_of_mem _ (mem_cons_of_mem _ later))

theorem clears_waiter (member : e ∈ es) (waits : r ∈ e.2.lfBlkhd) :
    e ∈ es' ∨ r ∈ ws ∨ r ∈ taken := (clears_entry clears member).imp_right fun ⟨_,all⟩ => all r waits

theorem clears_taken (member : r ∈ taken) :
    ∃ e ∈ es, e.2.lfId = u.lfId ∧ Inside e.2 u ∧ keep e.2 = true ∧ r ∈ e.2.lfBlkhd := by
  induction clears with
  | skip _ _ _ ih | before _ _ _ _ _ _ _ ih =>
    obtain ⟨e,old,rest⟩ := ih member
    exact ⟨e,mem_cons_of_mem _ old,rest⟩
  | inside p l own inside _ ih =>
    rcases mem_append.mp member with here | later
    · cases kept : keep l with
      | true =>
        rw [kept] at here
        exact ⟨(p,l),by simp,own,inside,kept,here⟩
      | false =>
        rw [kept] at here
        cases here
    obtain ⟨e,old,rest⟩ := ih later
    exact ⟨e,mem_cons_of_mem _ old,rest⟩
  | _ => cases member
end

-- Granting `u`: an overlap of the same range or type takes it over, or `u` is
-- linked as the structure `k` and the range taken from the owner's other locks.
def taker (u l : Lock) : Bool := !downgrades u l

inductive Grants (k : Ptr) (u : Lock) : Option Ptr → List Entry → List Entry → List Ptr → Option Ptr → Prop
  | nil (sp : Option Ptr) : Grants k u sp [] [(k,u)] [] sp
  | skip {sp sp' : Option Ptr} {es es' : List Entry} {ws : List Ptr} (e : Entry) (away : e.2.lfId ≠ u.lfId ∨ e.2.lfEnd ≠ -1 ∧ u.lfStart > e.2.lfEnd)
      (tail : Grants k u sp es es' ws sp') : Grants k u sp (e :: es) (e :: es') ws sp'
  | stop {sp : Option Ptr} (e : Entry) (es : List Entry) (own : e.2.lfId = u.lfId) (past : u.lfEnd ≠ -1 ∧ e.2.lfStart > u.lfEnd) :
      Grants k u sp (e :: es) ((k,u) :: e :: es) [] sp
  | equal {sp : Option Ptr} (p : Ptr) (l : Lock) (es : List Entry) (own : l.lfId = u.lfId) (same : l.lfStart = u.lfStart ∧ l.lfEnd = u.lfEnd) :
      Grants k u sp ((p,l) :: es)
        ((p,{l with lfType := u.lfType, lfBlkhd := bif taker u l then l.lfBlkhd else []}) :: es)
        (bif taker u l then [] else l.lfBlkhd) sp
  | same {sp : Option Ptr} (p : Ptr) (l : Lock) (es : List Entry) (own : l.lfId = u.lfId) (inside : Inside u l) (type : l.lfType = u.lfType) :
      Grants k u sp ((p,l) :: es) ((p,l) :: es) [] sp
  | inside {sp : Option Ptr} {es es' : List Entry} {ws taken : List Ptr} (p : Ptr) (l : Lock) (own : l.lfId = u.lfId) (inside : Inside l u)
      (tail : Clears u (taker u) sp es es' ws taken sp) :
      Grants k u sp ((p,l) :: es) ((k,{u with lfBlkhd := (bif taker u l then l.lfBlkhd else []) ++ taken}) :: es')
        ((bif taker u l then [] else l.lfBlkhd) ++ ws) sp
  | before {sp : Option Ptr} {es es' : List Entry} {ws taken : List Ptr} (p : Ptr) (l : Lock) (own : l.lfId = u.lfId) (starts : l.lfStart < u.lfStart)
      (reaches : l.lfEnd = -1 ∨ u.lfStart ≤ l.lfEnd) (ends : u.lfEnd = -1 ∨ l.lfEnd ≠ -1 ∧ l.lfEnd < u.lfEnd)
      (tail : Clears u (taker u) sp es es' ws taken sp) :
      Grants k u sp ((p,l) :: es) ((p,l.front u) :: (k,{u with lfBlkhd := taken}) :: es') (l.lfBlkhd ++ ws) sp
  | last {sp : Option Ptr} (p : Ptr) (l : Lock) (es : List Entry) (own : l.lfId = u.lfId) (starts : l.lfStart < u.lfStart) (ends : u.lfEnd ≠ -1 ∧ l.lfEnd = u.lfEnd) :
      Grants k u sp ((p,l) :: es) ((p,l.front u) :: (k,u) :: es) l.lfBlkhd sp
  | after {sp : Option Ptr} (p : Ptr) (l : Lock) (es : List Entry) (own : l.lfId = u.lfId) (starts : u.lfStart ≤ l.lfStart) (fin : u.lfEnd ≠ -1)
      (meets : l.lfStart ≤ u.lfEnd) (ends : l.lfEnd = -1 ∨ u.lfEnd < l.lfEnd) :
      Grants k u sp ((p,l) :: es) ((k,u) :: (p,l.back u) :: es) l.lfBlkhd sp
  | split (q p : Ptr) (l : Lock) (es : List Entry) (own : l.lfId = u.lfId) (starts : l.lfStart < u.lfStart) (fin : u.lfEnd ≠ -1)
      (ends : l.lfEnd = -1 ∨ u.lfEnd < l.lfEnd) (type : l.lfType ≠ u.lfType) :
      Grants k u (some q) ((p,l) :: es) ((p,l.front u) :: (k,u) :: (q,l.back u) :: es) l.lfBlkhd none

inductive Placed (k : Ptr) (u : Lock) (sp : Option Ptr) (es es' : List Entry) (ws : List Ptr) (sp' : Option Ptr) : Prop
  | reused (left right : List Entry) (p : Ptr) (l : Lock) (old : es = left ++ (p,l) :: right) (own : l.lfId = u.lfId)
      (same : l.lfStart = u.lfStart ∧ l.lfEnd = u.lfEnd)
      (new : es' = left ++ (p,{l with lfType := u.lfType, lfBlkhd := bif taker u l then l.lfBlkhd else []}) :: right)
      (woken : ws = bif taker u l then [] else l.lfBlkhd)
  | present (p : Ptr) (l : Lock) (member : (p,l) ∈ es) (own : l.lfId = u.lfId) (inside : Inside u l)
      (type : l.lfType = u.lfType) (new : es' = es) (woken : ws = [])
  | linked (left right : List Entry) (taken : List Ptr) (clears : Clears u (taker u) sp es (left ++ right) ws taken sp')
      (new : es' = left ++ (k,{u with lfBlkhd := taken}) :: right) (before : ∀ e ∈ left, Ordered e (k,u))
      (behind : ∀ e ∈ right, Ordered (k,u) e)

theorem clears_behind (k : Ptr) (clears : Clears u keep sp es es' ws taken sp') (ranged : ∀ e ∈ es, Ranged e.2) (range : Ranged u)
    (sorted : Sorted es) (later : ∀ e ∈ es, e.2.lfId = u.lfId → u.lfStart < e.2.lfStart) : ∀ e ∈ es', Ordered (k,u) e := by
  intro e member own
  have place : Ranged e.2 ∧ u.lfStart < e.2.lfStart := by
    rcases clears_part clears ranged range e member with old | ⟨b,old,part⟩
    · exact ⟨ranged e old,later e old own.symm⟩
    have start := later b old (part.same.1.symm.trans own.symm)
    exact ⟨part.ranged,Int.lt_of_lt_of_le start part.start⟩
  obtain ⟨⟨⟨low,_⟩,fin⟩,start⟩ := place
  have here : Holds es' e.2.lfId e.2.lfStart.toNat e.2.lfType := by
    refine ⟨e,member,rfl,?_,rfl⟩
    unfold Lock.Covers
    omega
  have off := ((clears_holds clears ranged range sorted).mp here).2
  have past : ¬ u.Covers e.2.lfStart.toNat := fun covers => off ⟨own.symm,covers⟩
  unfold Lock.Covers at past
  dsimp only
  omega

theorem grants_placed (grants : Grants k u sp es es' ws sp') (ranged : ∀ e ∈ es, Ranged e.2) (range : Ranged u)
    (sorted : Sorted es) (empty : u.lfBlkhd = []) : Placed k u sp es es' ws sp' := by
  have bare : u = {u with lfBlkhd := []} := by rw [← empty]
  have after : ∀ {l : Lock} {e : Entry}, l.lfId = u.lfId → (∀ p : Ptr, Ordered (p,l) e) →
      (l.lfEnd = -1 ∨ u.lfEnd ≠ -1 ∧ u.lfEnd ≤ l.lfEnd) → Ordered (k,u) e := by
    intro l e own ordered reaches same
    have first := ordered k (own.trans same)
    dsimp only at first ⊢
    omega
  induction grants with
  | nil sp =>
    refine .linked [] [] [] (.nil sp) ?_ (by simp) (by simp)
    rw [← bare]
    rfl
  | skip e away tail ih =>
    obtain ⟨first,others⟩ := pairwise_cons.mp sorted
    cases ih (fun e member => ranged e (by simp [member])) others with
    | reused left right p l old own same new woken =>
      exact .reused (e :: left) right p l (by rw [old]; rfl) own same (by rw [new]; rfl) woken
    | present p l member own inside type new woken =>
      exact .present p l (mem_cons_of_mem _ member) own inside type (by rw [new]) woken
    | linked left right taken clears new before behind =>
      refine .linked (e :: left) right taken (.skip e away clears) (by rw [new]; rfl) ?_ behind
      intro b member
      rcases mem_cons.mp member with rfl | later
      · intro same
        rcases away with other | apart
        · exact absurd same other
        · exact ⟨apart.1,apart.2⟩
      · exact before b later
  | stop e es own past =>
    obtain ⟨first,_⟩ := pairwise_cons.mp sorted
    have fin := (ranged e (by simp)).fin
    refine .linked [] (e :: es) [] (.stop e es own past) (by rw [← bare]; rfl) (by simp) ?_
    intro b member
    rcases mem_cons.mp member with rfl | later
    · exact fun _ => past
    · exact after own (fun _ => first b later) (by omega)
  | equal p l es own same => exact .reused [] es p l rfl own same rfl rfl
  | same p l es own inside type => exact .present p l (by simp) own inside type rfl rfl
  | inside p l own inside tail =>
    obtain ⟨first,others⟩ := pairwise_cons.mp sorted
    refine .linked [] _ _ (.inside p l own inside tail) rfl (by simp) ?_
    refine clears_behind k tail (fun e member => ranged e (by simp [member])) range others ?_
    intro e member same
    have next := first e member (own.trans same.symm)
    have fin := (ranged (p,l) (by simp)).fin
    unfold Inside at inside
    dsimp only at next fin
    omega
  | before p l own starts reaches ends tail =>
    obtain ⟨first,others⟩ := pairwise_cons.mp sorted
    have low := (ranged (p,l) (by simp)).start.1
    refine .linked [(p,l.front u)] _ _ (.before p l own starts reaches ends tail) rfl ?_ ?_
    · intro e member same
      rcases mem_singleton.mp member with rfl
      dsimp only [front] at low ⊢
      omega
    refine clears_behind k tail (fun e member => ranged e (by simp [member])) range others ?_
    intro e member same
    have next := first e member (own.trans same.symm)
    dsimp only at next
    omega
  | last p l es own starts ends =>
    obtain ⟨first,_⟩ := pairwise_cons.mp sorted
    have low := (ranged (p,l) (by simp)).start.1
    refine .linked [(p,l.front u)] es [] (.last p l es own starts ends) (by rw [← bare]; rfl) ?_ ?_
    · intro e member same
      rcases mem_singleton.mp member with rfl
      dsimp only [front] at low ⊢
      omega
    intro e member
    exact after own (fun _ => first e member) (by omega)
  | after p l es own starts fin meets ends =>
    obtain ⟨first,_⟩ := pairwise_cons.mp sorted
    refine .linked [] ((p,l.back u) :: es) [] (.after p l es own starts fin meets ends) (by rw [← bare]; rfl) (by simp) ?_
    intro e member
    rcases mem_cons.mp member with rfl | later
    · intro _
      dsimp only [back]
      omega
    · exact after own (fun _ => first e later) (by omega)
  | split q p l es own starts fin ends type =>
    obtain ⟨first,_⟩ := pairwise_cons.mp sorted
    have low := (ranged (p,l) (by simp)).start.1
    refine .linked [(p,l.front u)] ((q,l.back u) :: es) [] (.split q p l es own starts fin ends) (by rw [← bare]; rfl) ?_ ?_
    · intro e member same
      rcases mem_singleton.mp member with rfl
      dsimp only [front] at low ⊢
      omega
    intro e member
    rcases mem_cons.mp member with rfl | later
    · intro _
      dsimp only [back]
      omega
    · exact after own (fun _ => first e later) (by omega)

theorem holds_append : Holds (es ++ es') o x type ↔ Holds es o x type ∨ Holds es' o x type := by
  simp [Holds,or_and_right,exists_or]

theorem sorted_unique {e' : Entry} (sorted : Sorted es) (member : e ∈ es) (member' : e' ∈ es)
    (same : e.2.lfId = e'.2.lfId) (here : e.2.Covers x) (here' : e'.2.Covers x) : e = e' := by
  have either : es.Pairwise (fun a b => Ordered a b ∨ Ordered b a) := sorted.imp .inl
  have : Std.Symm (fun a b : Entry => Ordered a b ∨ Ordered b a) := ⟨fun _ _ => Or.symm⟩
  by_contra apart
  have ordered := either.forall member member' apart
  unfold Lock.Covers at here here'
  rcases ordered with first | first
  · have before := first same
    omega
  have before := first same.symm
  omega

theorem placed_sorted (placed : Placed k u sp es es' ws sp') (ranged : ∀ e ∈ es, Ranged e.2) (range : Ranged u)
    (sorted : Sorted es) : Sorted es' := by
  cases placed with
  | reused left right p l old own same new woken =>
    subst old new
    obtain ⟨first,second,across⟩ := pairwise_append.mp sorted
    obtain ⟨after,rest⟩ := pairwise_cons.mp second
    refine pairwise_append.mpr ⟨first,pairwise_cons.mpr ⟨after,rest⟩,?_⟩
    intro a member b later
    rcases mem_cons.mp later with rfl | later
    · exact across a member (p,l) (by simp)
    · exact across a member b (by simp [later])
  | present p l member own inside type new woken => rw [new]; exact sorted
  | linked left right taken clears new before behind =>
    obtain ⟨first,second,across⟩ := pairwise_append.mp (clears_sorted clears ranged range sorted)
    rw [new]
    refine pairwise_append.mpr ⟨first,pairwise_cons.mpr ⟨behind,second⟩,?_⟩
    intro a member b later
    rcases mem_cons.mp later with rfl | later
    · exact before a member
    · exact across a member b later

theorem placed_holds (placed : Placed k u sp es es' ws sp')
    (ranged : ∀ e ∈ es, Ranged e.2) (range : Ranged u) (sorted : Sorted es) : Holds es' o x type ↔
      (o = u.lfId ∧ u.Covers x ∧ type = u.lfType) ∨ Holds es o x type ∧ ¬ (o = u.lfId ∧ u.Covers x) := by
  cases placed with
  | reused left right p l old own same new woken =>
    have covers : l.Covers x ↔ u.Covers x := by unfold Lock.Covers; rw [same.1,same.2]
    rw [old] at sorted
    obtain ⟨_,second,across⟩ := pairwise_append.mp sorted
    have after := (pairwise_cons.mp second).1
    have off : ∀ rest : List Entry, (∀ e ∈ rest, Ordered e (p,l) ∨ Ordered (p,l) e) → Holds rest o x type →
        ¬ (o = u.lfId ∧ u.Covers x) := by
      rintro rest ordered ⟨e,member,id,here,_⟩ ⟨mine,there⟩
      unfold Lock.Covers at here there
      rcases ordered e member with first | first
      · have before := first (id.trans (mine.trans own.symm))
        dsimp only at before
        omega
      have before := first (own.trans (mine.symm.trans id.symm))
      dsimp only at before
      omega
    have offLeft := off left (fun e member => .inl (across e member (p,l) (by simp)))
    have offRight := off right (fun e member => .inr (after e member))
    rw [new,old,holds_append,holds_cons,holds_append,holds_cons]
    have changed : Lock.Covers {l with lfType := u.lfType, lfBlkhd := bif taker u l then l.lfBlkhd else []} x ↔ u.Covers x :=
      covers
    rw [changed,covers,own]
    constructor
    · rintro (here | ⟨mine,here,kind⟩ | here)
      · exact .inr ⟨.inl here,offLeft here⟩
      · exact .inl ⟨mine.symm,here,kind.symm⟩
      · exact .inr ⟨.inr (.inr here),offRight here⟩
    rintro (⟨mine,here,kind⟩ | ⟨here | ⟨mine,here,_⟩ | here,away⟩)
    · exact .inr (.inl ⟨mine.symm,here,kind.symm⟩)
    · exact .inl here
    · exact absurd ⟨mine.symm,here⟩ away
    · exact .inr (.inr here)
  | present p l member own inside type new woken =>
    rw [new]
    constructor
    · intro holds
      by_cases both : o = u.lfId ∧ u.Covers x
      · obtain ⟨e,found,id,here,kind⟩ := holds
        have equal := sorted_unique sorted found member (id.trans (both.1.trans own.symm)) here (inside_covers inside x both.2)
        rw [equal] at kind
        exact .inl ⟨both.1,both.2,kind.symm.trans type⟩
      · exact .inr ⟨holds,both⟩
    rintro (⟨mine,here,kind⟩ | ⟨holds,_⟩)
    · exact ⟨(p,l),member,own.trans mine.symm,inside_covers inside x here,type.trans kind.symm⟩
    · exact holds
  | linked left right taken clears new before behind =>
    rw [new,holds_append,holds_cons,or_left_comm,← holds_append,clears_holds clears ranged range sorted]
    refine or_congr ?_ Iff.rfl
    exact ⟨fun ⟨mine,here,kind⟩ => ⟨mine.symm,here,kind.symm⟩,fun ⟨mine,here,kind⟩ => ⟨mine.symm,here,kind.symm⟩⟩

-- The lock that now stands for `u`: its range and type, in a structure of the
-- same kind, with waiters of locks inside the range that `u` blocks as well.
structure Given (u : Lock) (es : List Entry) (l' : Lock) : Prop where
  own : l'.lfId = u.lfId
  range : l'.lfStart = u.lfStart ∧ l'.lfEnd = u.lfEnd
  type : l'.lfType = u.lfType
  kind : (l'.lfHead = u.lfHead ∧ l'.lfFlags = u.lfFlags) ∨
    ∃ e ∈ es, e.2.lfId = u.lfId ∧ l'.lfHead = e.2.lfHead ∧ l'.lfFlags = e.2.lfFlags
  waiters : ∀ r ∈ l'.lfBlkhd, ∃ e ∈ es, e.2.lfId = u.lfId ∧ Inside e.2 u ∧ taker u e.2 = true ∧ r ∈ e.2.lfBlkhd

theorem placed_entry {e' : Entry} (placed : Placed k u sp es es' ws sp') (ranged : ∀ e ∈ es, Ranged e.2)
    (range : Ranged u) (member : e' ∈ es') : e' ∈ es ∨ (∃ e ∈ es, Part u e.2 e'.2) ∨ Given u es e'.2 := by
  cases placed with
  | reused left right p l old own same new woken =>
    rw [new] at member
    have here : ((p,l) : Entry) ∈ es := by rw [old]; simp
    rcases mem_append.mp member with before | later
    · exact .inl (by rw [old]; simp [before])
    rcases mem_cons.mp later with rfl | after
    · refine .inr (.inr ⟨own,same,rfl,.inr ⟨(p,l),here,own,rfl,rfl⟩,?_⟩)
      intro r waits
      cases kept : taker u l with
      | false => rw [kept] at waits; cases waits
      | true =>
        rw [kept] at waits
        have fin := (ranged (p,l) here).fin
        refine ⟨(p,l),here,own,?_,kept,waits⟩
        unfold Inside
        dsimp only at fin ⊢
        omega
    · exact .inl (by rw [old]; simp [after])
  | present p l _ own inside type new woken => exact .inl (new ▸ member)
  | linked left right taken clears new before behind =>
    have old : ∀ e ∈ left ++ right, e ∈ es ∨ (∃ b ∈ es, Part u b.2 e.2) ∨ Given u es e.2 := by
      intro e found
      rcases clears_part clears ranged range e found with same | part
      · exact .inl same
      · exact .inr (.inl part)
    rw [new] at member
    rcases mem_append.mp member with before | later
    · exact old e' (by simp [before])
    rcases mem_cons.mp later with rfl | after
    · exact .inr (.inr ⟨rfl,⟨rfl,rfl⟩,rfl,.inl ⟨rfl,rfl⟩,fun r waits => clears_taken clears waits⟩)
    · exact old e' (by simp [after])

theorem placed_waiter (placed : Placed k u sp es es' ws sp') (member : e ∈ es) (waits : r ∈ e.2.lfBlkhd) :
    (∃ e' ∈ es', r ∈ e'.2.lfBlkhd) ∨ r ∈ ws := by
  cases placed with
  | reused left right p l old own same new woken =>
    rw [old] at member
    rw [new,woken]
    rcases mem_append.mp member with before | later
    · exact .inl ⟨e,by simp [before],waits⟩
    rcases mem_cons.mp later with rfl | after
    · cases kept : taker u l with
      | true => exact .inl ⟨_,mem_append_right _ (mem_cons_self ..),waits⟩
      | false => exact .inr waits
    · exact .inl ⟨e,by simp [after],waits⟩
  | present p l _ own inside type new woken => exact .inl ⟨e,new ▸ member,waits⟩
  | linked left right taken clears new before behind =>
    rw [new]
    rcases clears_waiter clears member waits with stays | woken | moved
    · rcases mem_append.mp stays with before | after
      · exact .inl ⟨e,by simp [before],waits⟩
      · exact .inl ⟨e,by simp [after],waits⟩
    · exact .inr woken
    · exact .inl ⟨_,mem_append_right _ (mem_cons_self ..),moved⟩

def Conflicts (a b : Lock) : Prop := ¬ Apart a b ∧ (a.lfType = .wrlck ∨ b.lfType = .wrlck)
instance (a b : Lock) : Decidable (Conflicts a b) := inferInstanceAs (Decidable (_ ∧ _))

theorem conflicts_symm : Conflicts l l' ↔ Conflicts l' l := by
  unfold Conflicts
  rw [apart_symm,or_comm]

theorem part_conflicts {b : Lock} (part : Part u l l') (conflict : Conflicts l' b) : Conflicts l b := by
  obtain ⟨meets,kinds⟩ := conflict
  rw [part.same.2.1] at kinds
  refine ⟨?_,kinds⟩
  intro apart
  have inside := part.inside
  unfold Inside at inside
  unfold Apart at apart meets
  omega

theorem taken_conflicts {b : Lock} (inside : Inside l u) (kept : taker u l = true) (known : u.lfType ≠ .unlck)
    (conflict : Conflicts b l) : Conflicts b u := by
  obtain ⟨meets,kinds⟩ := conflict
  refine ⟨?_,?_⟩
  · intro apart
    unfold Inside at inside
    unfold Apart at apart meets
    omega
  rcases kinds with excl | excl
  · exact .inl excl
  refine .inr ?_
  cases type : u.lfType with
  | wrlck => rfl
  | unlck => exact absurd type known
  | rdlck => simp [taker,downgrades,type,excl] at kept
end NetbsdAvr32.Lockf
