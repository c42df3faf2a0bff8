import NetbsdAvr32.Intervals

-- sys/kern/subr_extent.c: extent maps that allocate and free given regions.
namespace NetbsdAvr32.Extent
open List Nat

def word (n : Nat) : Nat := n % 2 ^ 32
def less (n m : Nat) : Nat := word (n + (2 ^ 32 - m))

structure Region where
  erStart : Nat
  erEnd : Nat
  deriving DecidableEq, Repr

structure Flags where
  waitspace : Bool
  catching : Bool
  deriving DecidableEq, Repr

-- A call that waits for space inside extent_alloc_region.
structure Request where
  start : Nat
  size : Nat
  flags : Flags
  deriving DecidableEq, Repr

-- struct extent. A descriptor is an entry of `exRegions`; the free ones are
-- not modelled, only whether a call gets one.
structure State where
  exStart : Nat
  exEnd : Nat
  exNoCoalesce : Bool
  exRegions : List Region
  waiting : Nat → Option Request

inductive Errno where
  | einval
  | enomem
  | eagain
  | eintr
  | erestart
  deriving DecidableEq, Repr

inductive Reply where
  | returned (error : Option Errno)
  | asleep
  | panic (text : String)
  deriving DecidableEq, Repr

def extentCreate (start fin : Nat) (noCoalesce : Bool) : State where
  exStart := start
  exEnd := fin
  exNoCoalesce := noCoalesce
  exRegions := []
  waiting := fun _ => none

-- extent_insert_and_optimize. The list is the regions up to `after`, the last
-- first, and those behind it; `after` is NULL where the first part is empty.
def extentInsertAndOptimize (noCoalesce : Bool) (start size : Nat) : List Region → List Region → List Region
  | [], [] => [⟨start,word (start + less size 1)⟩]
  | [], first :: rest =>
    if noCoalesce = false ∧ word (start + size) = first.erStart then {first with erStart := start} :: rest
    else ⟨start,word (start + less size 1)⟩ :: first :: rest
  | after :: before, behind =>
    if noCoalesce then before.reverse ++ after :: ⟨start,word (start + less size 1)⟩ :: behind
    else
      let appended := decide (word (after.erEnd + 1) = start)
      let after := bif appended then {after with erEnd := word (start + less size 1)} else after
      match behind with
      | next :: rest =>
        if word (start + size) = next.erStart then
          if appended then before.reverse ++ {after with erEnd := next.erEnd} :: rest
          else before.reverse ++ after :: {next with erStart := start} :: rest
        else if appended then before.reverse ++ after :: next :: rest
        else before.reverse ++ after :: ⟨start,word (start + less size 1)⟩ :: next :: rest
      | [] =>
        if appended then before.reverse ++ [after]
        else before.reverse ++ [after,⟨start,word (start + less size 1)⟩]

-- The LIST_FOREACH of extent_alloc_region: the regions before `rp`, the last
-- first, and the others; `none` is a conflict.
def findPlace (start fin : Nat) : List Region → List Region → Option (List Region × List Region)
  | last, [] => some (last,[])
  | last, rp :: rest =>
    if rp.erStart > fin then some (last,rp :: rest)
    else if rp.erEnd ≥ start then none
    else findPlace start fin (rp :: last) rest

-- extent_alloc_region from `alloc_start`, with the descriptor in hand.
def allocStart (t start size : Nat) (flags : Flags) (s : State) : Reply × State :=
  match findPlace start (word (start + less size 1)) [] s.exRegions with
  | none =>
    if flags.waitspace then (.asleep,{s with waiting := Function.update s.waiting t (some ⟨start,size,flags⟩)})
    else (.returned (some .eagain),s)
  | some (last,behind) => (.returned none,{s with exRegions := extentInsertAndOptimize s.exNoCoalesce start size last behind})

-- `diagnostic` says whether the kernel has DIAGNOSTIC, and `descriptor` whether
-- extent_alloc_region_descriptor returned one.
def extentAllocRegion (diagnostic : Bool) (t start size : Nat) (flags : Flags) (descriptor : Bool) (s : State) : Reply × State :=
  let fin := word (start + less size 1)
  if diagnostic ∧ size < 1 then (.panic "extent_alloc_region: bad size",s)
  else if diagnostic ∧ fin < start then (.panic "extent_alloc_region: overflow",s)
  else if start < s.exStart ∨ fin > s.exEnd then
    if diagnostic then (.panic "extent_alloc_region: region lies outside extent",s)
    else (.returned (some .einval),s)
  else if descriptor = false then (.returned (some .enomem),s)
  else allocStart t start size flags s

-- The LIST_FOREACH of extent_free: the new list, or `none` where the region is
-- not found.
def freeRegion (coalesce : Bool) (start fin : Nat) : List Region → Option (List Region)
  | [] => none
  | rp :: rest =>
    if rp.erEnd < start then (freeRegion coalesce start fin rest).map (rp :: ·)
    else if rp.erStart > fin then none
    else if start = rp.erStart ∧ fin = rp.erEnd then some rest
    else if coalesce = false then (freeRegion coalesce start fin rest).map (rp :: ·)
    else if start = rp.erStart ∧ fin < rp.erEnd then some ({rp with erStart := word (fin + 1)} :: rest)
    else if start > rp.erStart ∧ fin = rp.erEnd then some ({rp with erEnd := less start 1} :: rest)
    else if start > rp.erStart ∧ fin < rp.erEnd then
      some ({rp with erEnd := less start 1} :: ⟨word (fin + 1),rp.erEnd⟩ :: rest)
    else (freeRegion coalesce start fin rest).map (rp :: ·)

def extentFree (diagnostic : Bool) (start size : Nat) (descriptor : Bool) (s : State) : Reply × State :=
  let fin := word (start + less size 1)
  if diagnostic ∧ (start < s.exStart ∨ fin > s.exEnd) then (.panic "extent_free: region not within extent",s)
  else if diagnostic ∧ fin < start then (.panic "extent_free: overflow",s)
  else if s.exNoCoalesce = false ∧ descriptor = false then (.returned (some .enomem),s)
  else match freeRegion (!s.exNoCoalesce) start fin s.exRegions with
    | none => (.panic "extent_free: region not found",s)
    | some regions => (.returned none,{s with exRegions := regions})

-- A call, or the return of cv_wait or cv_wait_sig in a call that waits.
inductive Op where
  | alloc (t start size : Nat) (flags : Flags) (descriptor : Bool)
  | free (start size : Nat) (descriptor : Bool)
  | wake (t : Nat) (error : Option Errno)
  deriving DecidableEq, Repr

def step (diagnostic : Bool) (s : State) : Op → Option (Reply × State)
  | .alloc t start size flags descriptor => some (extentAllocRegion diagnostic t start size flags descriptor s)
  | .free start size descriptor => some (extentFree diagnostic start size descriptor s)
  | .wake t error => match s.waiting t with
    | none => none
    | some request =>
      let s := {s with waiting := Function.update s.waiting t none}
      match error with
      | some e => some (.returned (some e),s)
      | none => some (allocStart t request.start request.size request.flags s)

-- The region list holds the maximal intervals of the allocated points.
open Intervals Function
variable {l before behind rest last : List Region} {r rp : Region} {start size fin x : Nat} {S : Set Nat}

def Region.span (r : Region) : Interval := (r.erStart,r.erEnd)
def spans (l : List Region) : List Interval := l.map Region.span
def Covered (l : List Region) : Set Nat := points (spans l)

structure Fits (s : State) (start size : Nat) : Prop where
  some : 1 ≤ size
  low : s.exStart ≤ start
  high : start + size ≤ s.exEnd + 1

theorem word_fin (some : 1 ≤ size) (high : start + size ≤ 2 ^ 32) : word (start + less size 1) = start + size - 1 := by
  unfold word less word
  omega

@[simp] theorem mem_covered : x ∈ Covered l ↔ ∃ r ∈ l, r.erStart ≤ x ∧ x ≤ r.erEnd := by
  simp [Covered,spans,Region.span]

theorem findPlace_some (found : findPlace start fin last l = some (before,behind)) (passed : ∀ r ∈ last, r.erEnd < start)
    (sorted : l.Pairwise (fun a b => a.erStart < b.erStart)) :
    last.reverse ++ l = before.reverse ++ behind ∧ (∀ r ∈ before, r.erEnd < start) ∧ ∀ r ∈ behind, fin < r.erStart := by
  induction l generalizing last with
  | nil =>
    cases found
    exact ⟨rfl,passed,by simp⟩
  | cons rp rest ih =>
    unfold findPlace at found
    obtain ⟨first,others⟩ := pairwise_cons.mp sorted
    split at found
    · next beyond =>
      cases found
      refine ⟨rfl,passed,?_⟩
      intro r member
      rcases mem_cons.mp member with rfl | later
      · exact beyond
      · exact lt_trans beyond (first r later)
    split at found
    · cases found
    have passed' : ∀ r ∈ rp :: last, r.erEnd < start := by
      intro r member
      rcases mem_cons.mp member with rfl | old
      · omega
      · exact passed r old
    obtain ⟨split,low,high⟩ := ih found passed' others
    exact ⟨by rw [← split]; simp,low,high⟩

theorem findPlace_none (found : findPlace start fin last l = none) : ∃ r ∈ l, r.erStart ≤ fin ∧ start ≤ r.erEnd := by
  induction l generalizing last with
  | nil => cases found
  | cons rp rest ih =>
    unfold findPlace at found
    split at found
    · cases found
    by_cases conflict : rp.erEnd ≥ start
    · exact ⟨rp,by simp,by omega,conflict⟩
    rw [if_neg conflict] at found
    obtain ⟨r,member,meets⟩ := ih found
    exact ⟨r,by simp [member],meets⟩

theorem normal_regions (normal : Normal (spans (before ++ r :: rest))) :
    r.erStart ≤ r.erEnd ∧ (∀ q ∈ before, q.erEnd + 1 < r.erStart) ∧ ∀ q ∈ rest, r.erEnd + 1 < q.erStart := by
  unfold spans at normal
  rw [map_append,map_cons] at normal
  obtain ⟨_,back,across⟩ := normal_append.mp normal
  obtain ⟨order,behind,_⟩ := normal_cons.mp back
  refine ⟨order,?_,?_⟩
  · intro q member
    exact across q.span (mem_map_of_mem member) r.span (by simp)
  intro q member
  exact behind q.span (mem_map_of_mem member)

structure Placed (start fin : Nat) (old new : List Region) (left middle right : List Region) (r : Region) : Prop where
  old : old = left ++ middle ++ right
  new : new = left ++ [r] ++ right
  order : r.erStart ≤ r.erEnd
  whole : ∀ x, r.erStart ≤ x ∧ x ≤ r.erEnd ↔ x ∈ Covered middle ∨ start ≤ x ∧ x ≤ fin
  before : ∀ q ∈ left, q.erEnd + 1 < r.erStart
  behind : ∀ q ∈ right, r.erEnd + 1 < q.erStart

-- What extent_insert_and_optimize makes of the list, by the neighbours it joins.
inductive Inserts (noCoalesce : Bool) (start size : Nat) : List Region → List Region → List Region → Prop
  | alone {before behind : List Region} (back : noCoalesce = false → ∀ r ∈ before.head?, r.erEnd + 1 ≠ start)
    (front : noCoalesce = false → ∀ r ∈ behind.head?, start + size ≠ r.erStart) :
    Inserts noCoalesce start size before behind (before.reverse ++ ⟨start,start + size - 1⟩ :: behind)
  | next {before rest : List Region} {first : Region} (back : ∀ r ∈ before.head?, r.erEnd + 1 ≠ start) (front : start + size = first.erStart) :
    Inserts noCoalesce start size before (first :: rest) (before.reverse ++ {first with erStart := start} :: rest)
  | prev {before behind : List Region} {after : Region} (back : after.erEnd + 1 = start) (front : ∀ r ∈ behind.head?, start + size ≠ r.erStart) :
    Inserts noCoalesce start size (after :: before) behind (before.reverse ++ {after with erEnd := start + size - 1} :: behind)
  | both {before rest : List Region} {after first : Region} (back : after.erEnd + 1 = start) (front : start + size = first.erStart) :
    Inserts noCoalesce start size (after :: before) (first :: rest) (before.reverse ++ {after with erEnd := first.erEnd} :: rest)

theorem reverse_split {after : Region} (l : List Region) : (after :: before).reverse ++ l = before.reverse ++ after :: l := by
  rw [reverse_cons,append_assoc]
  rfl

theorem insert_inserts (noCoalesce : Bool) (some : 1 ≤ size) (high : start + size ≤ 2 ^ 32) (low : ∀ r ∈ before, r.erEnd < start)
    (above : ∀ r ∈ behind, start + size ≤ r.erStart) (small : ∀ r ∈ behind, r.erStart < 2 ^ 32) :
    Inserts noCoalesce start size before behind (extentInsertAndOptimize noCoalesce start size before behind) := by
  have fin := word_fin some high
  have sum : ∀ r ∈ behind, word (start + size) = start + size := by
    intro r member
    have one := above r member
    have two := small r member
    unfold word
    omega
  unfold extentInsertAndOptimize
  rw [fin]
  cases before with
  | nil =>
    cases behind with
    | nil => exact .alone (by simp) (by simp)
    | cons first rest =>
      dsimp only
      rw [sum first (by simp)]
      split_ifs with touch
      · exact .next (by simp) touch.2
      · exact .alone (by simp) (by simpa using touch)
  | cons after before =>
    have next : word (after.erEnd + 1) = after.erEnd + 1 := by
      have passed := low after (by simp)
      unfold word
      omega
    have alone := @Inserts.alone noCoalesce start size (after :: before) behind
    rw [reverse_split] at alone
    cases noCoalesce with
    | true => exact alone (by simp) (by simp)
    | false =>
      dsimp only
      rw [next]
      cases behind with
      | nil =>
        by_cases back : after.erEnd + 1 = start
        · simpa [back] using Inserts.prev back (by simp)
        · simpa [back] using alone (by simpa) (by simp)
      | cons first rest =>
        dsimp only
        rw [sum first (by simp)]
        have joined := @Inserts.next false start size (after :: before) rest first
        rw [reverse_split] at joined
        by_cases back : after.erEnd + 1 = start <;> by_cases front : start + size = first.erStart
        · simpa [back,front] using Inserts.both back front
        · simpa [back,front] using Inserts.prev back (by simpa)
        · simpa [back,front] using joined (by simpa) front
        · simpa [back,front] using alone (by simpa) (by simpa)

theorem before_apart (normal : Normal (spans (before.reverse ++ behind))) (low : ∀ r ∈ before, r.erEnd < start)
    (back : ∀ r ∈ before.head?, r.erEnd + 1 ≠ start) : ∀ r ∈ before.reverse, r.erEnd + 1 < start := by
  cases before with
  | nil => simp
  | cons after before =>
    rw [reverse_split] at normal
    obtain ⟨order,earlier,_⟩ := normal_regions normal
    have passed := low after (by simp)
    have away := back after (by simp)
    intro r member
    rcases mem_cons.mp (mem_reverse.mp member) with rfl | here
    · omega
    have gap := earlier r (mem_reverse.mpr here)
    omega

theorem behind_apart (normal : Normal (spans (before.reverse ++ behind))) (above : ∀ r ∈ behind, fin ≤ r.erStart)
    (front : ∀ r ∈ behind.head?, fin ≠ r.erStart) : ∀ r ∈ behind, fin < r.erStart := by
  cases behind with
  | nil => simp
  | cons first rest =>
    obtain ⟨order,_,later⟩ := normal_regions normal
    have beyond := above first (by simp)
    have away := front first (by simp)
    intro r member
    rcases mem_cons.mp member with rfl | further
    · omega
    have gap := later r further
    omega

theorem insert_placed (some : 1 ≤ size) (high : start + size ≤ 2 ^ 32) (normal : Normal (spans (before.reverse ++ behind)))
    (low : ∀ r ∈ before, r.erEnd < start) (above : ∀ r ∈ behind, start + size - 1 < r.erStart) (small : ∀ r ∈ behind, r.erStart < 2 ^ 32) :
    ∃ left middle right r, Placed start (start + size - 1) (before.reverse ++ behind)
      (extentInsertAndOptimize false start size before behind) left middle right r := by
  have beyond : ∀ r ∈ behind, start + size ≤ r.erStart := by
    intro r member
    have := above r member
    omega
  have fin : start + size - 1 + 1 = start + size := by omega
  have put := insert_inserts false some high low beyond small
  generalize extentInsertAndOptimize false start size before behind = new at put ⊢
  cases put with
  | alone back front =>
    refine ⟨before.reverse,[],behind,⟨start,start + size - 1⟩,by simp,by simp,?_,by simp,before_apart normal low (back rfl),?_⟩
    · dsimp only
      omega
    · simpa [fin] using behind_apart normal beyond (front rfl)
  | @next _ rest first back front =>
    obtain ⟨order,_,later⟩ := normal_regions normal
    refine ⟨before.reverse,[first],rest,{first with erStart := start},by simp,by simp,?_,?_,before_apart normal low back,later⟩
    · dsimp only
      omega
    intro x
    simp only [mem_covered,mem_singleton,exists_eq_left]
    omega
  | @prev before _ after back front =>
    have apart := behind_apart normal beyond front
    rw [reverse_split] at normal ⊢
    obtain ⟨order,earlier,_⟩ := normal_regions normal
    refine ⟨before.reverse,[after],behind,{after with erEnd := start + size - 1},by simp,by simp,?_,?_,earlier,?_⟩
    · dsimp only
      omega
    · intro x
      simp only [mem_covered,mem_singleton,exists_eq_left]
      omega
    · simpa [fin] using apart
  | @both before rest after first back front =>
    obtain ⟨order',_,later⟩ := normal_regions normal
    rw [reverse_split] at normal ⊢
    obtain ⟨order,earlier,_⟩ := normal_regions normal
    refine ⟨before.reverse,[after,first],rest,{after with erEnd := first.erEnd},by simp,by simp,?_,?_,earlier,later⟩
    · dsimp only
      omega
    intro x
    simp only [mem_covered,mem_cons,not_mem_nil,or_false,exists_eq_or_imp,exists_eq_left]
    omega

theorem Placed.exact {old new left middle right : List Region} {fin : Nat} (placed : Placed start fin old new left middle right r)
    (normal : Normal (spans old)) : Normal (spans new) ∧ Covered new = Covered old ∪ {x | start ≤ x ∧ x ≤ fin} := by
  obtain ⟨rfl,rfl,order,whole,before,behind⟩ := placed
  unfold Covered
  unfold spans at normal ⊢
  rw [map_append,map_append] at normal
  rw [map_append,map_append,map_append,map_append]
  refine normal.absorb (r := r.span) order whole ?_ ?_
  · intro q member
    obtain ⟨q',here,rfl⟩ := mem_map.mp member
    exact before q' here
  intro q member
  obtain ⟨q',here,rfl⟩ := mem_map.mp member
  exact behind q' here

def parts (start fin : Nat) (r : Region) : List Region :=
  (if r.erStart < start then [⟨r.erStart,start - 1⟩] else []) ++ (if fin < r.erEnd then [⟨fin + 1,r.erEnd⟩] else [])

def Holds (start fin : Nat) (r : Region) : Prop := r.erStart ≤ start ∧ fin ≤ r.erEnd

theorem less_one (low : 0 < start) (small : start < 2 ^ 32) : less start 1 = start - 1 := by
  unfold less word
  omega

theorem freeRegion_spec (order : start ≤ fin) (bound : start < 2 ^ 32) (normal : Normal (spans l)) (small : ∀ r ∈ l, r.erEnd < 2 ^ 32) :
    (freeRegion true start fin l = none ∧ ∀ r ∈ l, ¬ Holds start fin r) ∨
    ∃ left r right, l = left ++ [r] ++ right ∧ Holds start fin r ∧ freeRegion true start fin l = some (left ++ parts start fin r ++ right) := by
  induction l with
  | nil => exact .inl ⟨rfl,by simp⟩
  | cons rp rest ih =>
    obtain ⟨order',_,later⟩ := @normal_regions [] rest rp normal
    obtain ⟨_,_,normal'⟩ := normal_cons.mp normal
    have high := small rp (by simp)
    have skip : ¬ Holds start fin rp → freeRegion true start fin (rp :: rest) = (freeRegion true start fin rest).map (rp :: ·) →
        (freeRegion true start fin (rp :: rest) = none ∧ ∀ r ∈ rp :: rest, ¬ Holds start fin r) ∨
        ∃ left r right, rp :: rest = left ++ [r] ++ right ∧ Holds start fin r ∧
          freeRegion true start fin (rp :: rest) = some (left ++ parts start fin r ++ right) := by
      intro other next
      rw [next]
      rcases ih normal' (fun r member => small r (by simp [member])) with ⟨none,free⟩ | ⟨left,r,right,shape,holds,found⟩
      · refine .inl ⟨by rw [none]; rfl,?_⟩
        intro r member
        rcases mem_cons.mp member with rfl | further
        · exact other
        · exact free r further
      · exact .inr ⟨rp :: left,r,right,by rw [shape]; rfl,holds,by rw [found]; rfl⟩
    have here : Holds start fin rp → freeRegion true start fin (rp :: rest) = some (parts start fin rp ++ rest) → 
        ∃ left r right, rp :: rest = left ++ [r] ++ right ∧ Holds start fin r ∧
          freeRegion true start fin (rp :: rest) = some (left ++ parts start fin r ++ right) :=
      fun holds found => ⟨[],rp,rest,rfl,holds,found⟩
    by_cases passed : rp.erEnd < start
    · exact skip (fun holds => by unfold Holds at holds; omega) (if_pos passed)
    by_cases beyond : rp.erStart > fin
    · refine .inl ⟨(if_neg passed).trans (if_pos beyond),?_⟩
      intro r member holds
      unfold Holds at holds
      rcases mem_cons.mp member with rfl | further
      · omega
      have gap := later r further
      omega
    by_cases holds : Holds start fin rp
    · refine .inr (here holds ?_)
      have before (first : rp.erStart < start) : less start 1 = start - 1 := less_one (by omega) bound
      have sum (last : fin < rp.erEnd) : word (fin + 1) = fin + 1 := mod_eq_of_lt (by omega)
      unfold freeRegion parts
      rw [if_neg passed,if_neg beyond]
      rcases eq_or_lt_of_le holds.1 with first | first <;> rcases eq_or_lt_of_le holds.2 with last | last
      · simp [first,last]
      · simp [← first,last,Nat.ne_of_lt last,sum last]
      · simp [first,last,ne_of_gt first,before first]
      · simp [first,last,Nat.ne_of_gt first,Nat.ne_of_lt last,before first,sum last]
    refine skip holds ?_
    unfold Holds at holds
    rw [freeRegion,if_neg passed,if_neg beyond,if_neg (by omega),if_neg (by decide),if_neg (by omega),if_neg (by omega),if_neg (by omega)]

theorem parts_exact (order : start ≤ fin) (low : r.erStart ≤ start) (high : fin ≤ r.erEnd) :
    Normal (spans (parts start fin r)) ∧ (∀ m ∈ spans (parts start fin r), r.erStart ≤ m.1 ∧ m.2 ≤ r.erEnd) ∧
    ∀ x, x ∈ Covered (parts start fin r) ↔ (r.erStart ≤ x ∧ x ≤ r.erEnd) ∧ ¬ (start ≤ x ∧ x ≤ fin) := by
  unfold parts Covered spans
  by_cases before : r.erStart < start
  · by_cases behind : fin < r.erEnd
    · rw [if_pos before,if_pos behind]
      refine ⟨?_,?_,fun x => ?_⟩ <;> simp [normal_cons,normal_nil,Region.span] <;> omega
    rw [if_pos before,if_neg behind]
    refine ⟨?_,?_,fun x => ?_⟩ <;> simp [normal_cons,normal_nil,Region.span] <;> omega
  by_cases behind : fin < r.erEnd
  · rw [if_neg before,if_pos behind]
    refine ⟨?_,?_,fun x => ?_⟩ <;> simp [normal_cons,normal_nil,Region.span] <;> omega
  rw [if_neg before,if_neg behind]
  refine ⟨?_,?_,fun x => ?_⟩ <;> simp [normal_nil]
  omega

theorem freed_exact {left right : List Region} (order : start ≤ fin) (normal : Normal (spans (left ++ [r] ++ right))) (holds : Holds start fin r) :
    Normal (spans (left ++ parts start fin r ++ right)) ∧
      Covered (left ++ parts start fin r ++ right) = Covered (left ++ [r] ++ right) \ {x | start ≤ x ∧ x ≤ fin} := by
  obtain ⟨middle,inside,rest⟩ := parts_exact order holds.1 holds.2
  unfold Covered at rest ⊢
  unfold spans at normal middle inside rest ⊢
  rw [map_append,map_append] at normal
  rw [map_append,map_append,map_append,map_append]
  exact normal.remove (r := r.span) middle inside rest holds

def range (start size : Nat) : Set Nat := {x | start ≤ x ∧ x < start + size}

structure Exact (l : List Region) (S : Set Nat) : Prop where
  sorted : l.Pairwise (fun a b => a.erStart < b.erStart)
  maximal : ∀ r : Region, r ∈ l ↔ Maximal S r.span

theorem normal_sorted (normal : Normal (spans l)) : l.Pairwise (fun a b => a.erStart < b.erStart) := by
  have gaps := normal.gaps
  unfold spans at gaps
  rw [pairwise_map] at gaps
  refine gaps.imp_of_mem ?_
  intro a b member _ gap
  have order := normal.order a.span (mem_map_of_mem member)
  unfold Region.span at gap order
  omega

theorem normal_exact (normal : Normal (spans l)) : Exact l (Covered l) := by
  refine ⟨normal_sorted normal,?_⟩
  intro r
  have inj : ∀ a b : Region, a.span = b.span → a = b := by
    rintro ⟨_,_⟩ ⟨_,_⟩ same
    cases same
    rfl
  refine Iff.trans ?_ normal.mem_iff
  constructor
  · exact fun member => mem_map_of_mem member
  intro member
  obtain ⟨q,here,same⟩ := mem_map.mp member
  rw [← inj q r same]
  exact here

inductive Allowed (s : State) : Op → Prop
  | alloc (t start size : Nat) (flags : Flags) (idle : s.waiting t = none) (fits : Fits s start size) : Allowed s (.alloc t start size flags true)
  | free (start size : Nat) (fits : Fits s start size) : Allowed s (.free start size true)
  | wake (t : Nat) (error : Option Errno) (asleep : s.waiting t ≠ none) : Allowed s (.wake t error)

def taken (s : State) : Op → Reply → Set Nat → Set Nat
  | .alloc _ start size _ _, .returned none, S => S ∪ range start size
  | .free start size _, .returned none, S => S \ range start size
  | .wake t none, .returned none, S => match s.waiting t with
    | some request => S ∪ range request.start request.size
    | none => S
  | _, _, S => S

def Possible (s : State) : Op → Set Nat → Prop
  | .alloc _ start size _ _, S => ∀ x ∈ range start size, x ∉ S
  | .free start size _, S => ∀ x ∈ range start size, x ∈ S
  | .wake t none, S => ∃ request, s.waiting t = some request ∧ ∀ x ∈ range request.start request.size, x ∉ S
  | .wake _ (some _), _ => False

structure Answers (s : State) (op : Op) (S : Set Nat) (reply : Reply) (s' : State) : Prop where
  succeeds : reply = .returned none ↔ Possible s op S
  exact : Exact s'.exRegions (taken s op reply S)
  otherwise : reply ≠ .returned none → s'.exRegions = s.exRegions

inductive Reached (diagnostic : Bool) (start fin : Nat) : State → Set Nat → Prop
  | create : Reached diagnostic start fin (extentCreate start fin false) ∅
  | step (s s' : State) (S : Set Nat) (op : Op) (reply : Reply) (prior : Reached diagnostic start fin s S) (allowed : Allowed s op)
      (ran : step diagnostic s op = some (reply,s')) : Reached diagnostic start fin s' (taken s op reply S)

structure Sound (lo hi : Nat) (s : State) (S : Set Nat) : Prop where
  bounds : s.exStart = lo ∧ s.exEnd = hi
  coalesces : s.exNoCoalesce = false
  normal : Normal (spans s.exRegions)
  covered : Covered s.exRegions = S
  inside : ∀ x ∈ S, x ≤ hi
  waiting : ∀ t request, s.waiting t = some request → Fits s request.start request.size

variable {lo hi t : Nat} {s s' : State} {flags : Flags} {diagnostic : Bool} {op : Op} {reply : Reply}

theorem Sound.small (sound : Sound lo hi s S) (member : r ∈ s.exRegions) : r.erStart ≤ r.erEnd ∧ r.erEnd ≤ hi := by
  have order := sound.normal.order r.span (mem_map_of_mem member)
  refine ⟨order,sound.inside _ ?_⟩
  rw [← sound.covered]
  exact mem_covered.mpr ⟨r,member,order,le_refl _⟩

theorem range_fin (some : 1 ≤ size) : {x | start ≤ x ∧ x ≤ start + size - 1} = range start size := by
  ext x
  unfold range
  simp only [Set.mem_ofPred_eq]
  omega

theorem allocStart_spec (t : Nat) (flags : Flags) (sound : Sound lo hi s S) (small : hi < 2 ^ 32) (fits : Fits s start size) :
    ∃ reply s', allocStart t start size flags s = (reply,s') ∧ (reply = .returned none ↔ ∀ x ∈ range start size, x ∉ S) ∧
      (reply = .returned none → Sound lo hi s' (S ∪ range start size)) ∧
      (reply ≠ .returned none → s'.exRegions = s.exRegions ∧ Sound lo hi s' S) := by
  obtain ⟨some,low,high⟩ := fits
  have top := sound.bounds.2
  have fin := word_fin some (show start + size ≤ 2 ^ 32 by omega)
  unfold allocStart
  rw [fin]
  cases found : findPlace start (start + size - 1) [] s.exRegions with
  | none =>
    obtain ⟨r,member,first,last⟩ := findPlace_none found
    have meets : ¬ ∀ x ∈ range start size, x ∉ S := by
      intro free
      refine free (max start r.erStart) ?_ ?_
      · unfold range
        simp only [Set.mem_ofPred_eq]
        omega
      have order := (sound.small member).1
      rw [← sound.covered]
      exact mem_covered.mpr ⟨r,member,by omega,by omega⟩
    cases waits : flags.waitspace with
    | false =>
      refine ⟨_,_,rfl,⟨fun bad => (by cases bad),fun free => absurd free meets⟩,fun bad => (by cases bad),fun _ => ⟨rfl,sound⟩⟩
    | true =>
      refine ⟨_,_,rfl,⟨fun bad => (by cases bad),fun free => absurd free meets⟩,fun bad => (by cases bad),fun _ => ⟨rfl,?_⟩⟩
      refine ⟨sound.bounds,sound.coalesces,sound.normal,sound.covered,sound.inside,?_⟩
      intro t' request waiting
      by_cases mine : t' = t
      · rw [mine] at waiting
        change update s.waiting t _ t = _ at waiting
        rw [update_self] at waiting
        cases waiting
        exact ⟨some,low,high⟩
      obtain ⟨a,b,c⟩ := sound.waiting t' request ((update_of_ne mine _ _).symm.trans waiting)
      exact ⟨a,b,c⟩
  | some place =>
    obtain ⟨last,behind⟩ := place
    obtain ⟨split,before,above⟩ := findPlace_some found (by simp) (normal_sorted sound.normal)
    have normal := sound.normal
    have covered := sound.covered
    have bounds : ∀ r ∈ behind, r.erStart < 2 ^ 32 := by
      intro r member
      have bound := sound.small (r := r) (by rw [show s.exRegions = last.reverse ++ behind from split]; simp [member])
      omega
    rw [show s.exRegions = last.reverse ++ behind from split] at normal covered
    obtain ⟨left,middle,right,r,placed⟩ := insert_placed some (by omega) normal before above bounds
    obtain ⟨normal',covered'⟩ := placed.exact normal
    rw [range_fin some,covered] at covered'
    refine ⟨_,_,rfl,⟨fun _ => ?_,fun _ => rfl⟩,fun _ => ?_,fun bad => absurd rfl bad⟩
    · intro x member inside
      unfold range at member
      simp only [Set.mem_ofPred_eq] at member
      rw [← covered] at inside
      obtain ⟨q,here,first,second⟩ := mem_covered.mp inside
      rcases mem_append.mp here with early | late
      · have bound := before q (mem_reverse.mp early)
        omega
      have bound := above q late
      omega
    refine ⟨sound.bounds,sound.coalesces,?_,?_,?_,fun t request waiting => ?_⟩
    · rw [sound.coalesces]
      exact normal'
    · rw [sound.coalesces]
      exact covered'
    · intro x member
      rcases member with old | new
      · exact sound.inside x old
      unfold range at new
      simp only [Set.mem_ofPred_eq] at new
      omega
    obtain ⟨a,b,c⟩ := sound.waiting t request waiting
    exact ⟨a,b,c⟩

theorem allocRegion_start (fits : Fits s start size) (small : s.exEnd < 2 ^ 32) :
    extentAllocRegion diagnostic t start size flags true s = allocStart t start size flags s := by
  obtain ⟨some,low,high⟩ := fits
  have fin := word_fin some (show start + size ≤ 2 ^ 32 by omega)
  unfold extentAllocRegion
  rw [fin,if_neg (by omega),if_neg (by omega),if_neg (by omega),if_neg (by simp)]

theorem extentFree_spec (diagnostic : Bool) (sound : Sound lo hi s S) (small : hi < 2 ^ 32) (fits : Fits s start size) :
    ∃ reply s', extentFree diagnostic start size true s = (reply,s') ∧ (reply = .returned none ↔ ∀ x ∈ range start size, x ∈ S) ∧
      (reply = .returned none → Sound lo hi s' (S \ range start size)) ∧ (reply ≠ .returned none → s' = s) := by
  obtain ⟨some,low,high⟩ := fits
  have top := sound.bounds.2
  have fin := word_fin some (show start + size ≤ 2 ^ 32 by omega)
  unfold extentFree
  rw [fin,if_neg (by omega),if_neg (by omega),if_neg (by simp),sound.coalesces,Bool.not_false]
  have bounds : ∀ r ∈ s.exRegions, r.erEnd < 2 ^ 32 := fun r member => lt_of_le_of_lt (sound.small member).2 small
  have inside := sound.normal.covers_iff (a := start) (b := start + size - 1) (by omega)
  have whole : (∀ x ∈ range start size, x ∈ S) ↔ ∃ r ∈ s.exRegions, Holds start (start + size - 1) r := by
    rw [← sound.covered]
    constructor
    · intro all
      have points : ∀ x, start ≤ x → x ≤ start + size - 1 → x ∈ points (spans s.exRegions) := by
        intro x first last
        refine all x ?_
        rw [← range_fin some]
        exact ⟨first,last⟩
      obtain ⟨q,member,holds⟩ := inside.mp points
      obtain ⟨r,here,rfl⟩ := mem_map.mp member
      exact ⟨r,here,holds⟩
    rintro ⟨r,member,holds⟩ x here
    rw [← range_fin some] at here
    exact inside.mpr ⟨r.span,mem_map_of_mem member,holds⟩ x here.1 here.2
  rcases freeRegion_spec (show start ≤ start + size - 1 by omega) (by omega) sound.normal bounds with
    ⟨none,free⟩ | ⟨left,r,right,shape,holds,found⟩
  · rw [none]
    refine ⟨_,_,rfl,⟨fun bad => (by cases bad),fun all => ?_⟩,fun bad => (by cases bad),fun _ => rfl⟩
    obtain ⟨r,member,holds⟩ := whole.mp all
    exact absurd holds (free r member)
  rw [found]
  have normal := sound.normal
  have covered := sound.covered
  rw [shape] at normal covered
  obtain ⟨normal',covered'⟩ := freed_exact (show start ≤ start + size - 1 by omega) normal holds
  rw [range_fin some,covered] at covered'
  refine ⟨_,_,rfl,⟨fun _ => whole.mpr ⟨r,by rw [shape]; simp,holds⟩,fun _ => rfl⟩,fun _ => ?_,fun bad => absurd rfl bad⟩
  refine ⟨sound.bounds,rfl,normal',covered',fun x member => sound.inside x member.1,fun t request waiting => ?_⟩
  obtain ⟨a,b,c⟩ := sound.waiting t request waiting
  exact ⟨a,b,c⟩

theorem Sound.exact (sound : Sound lo hi s S) : Exact s.exRegions S := by
  have exact := normal_exact sound.normal
  rw [sound.covered] at exact
  exact exact

theorem attempt_answers (t : Nat) (flags : Flags) (old : State) (sound : Sound lo hi s S) (small : hi < 2 ^ 32) (fits : Fits s start size) (same : s.exRegions = old.exRegions)
    (possible : Possible old op S ↔ ∀ x ∈ range start size, x ∉ S)
    (took : ∀ reply, taken old op reply S = if reply = .returned none then S ∪ range start size else S) :
    ∃ reply s', allocStart t start size flags s = (reply,s') ∧ Answers old op S reply s' ∧ Sound lo hi s' (taken old op reply S) := by
  obtain ⟨reply,s',ran,succeeds,done,refused⟩ := allocStart_spec t flags sound small fits
  refine ⟨reply,s',ran,?_⟩
  by_cases success : reply = .returned none
  · have sound' := done success
    rw [← if_pos (t := S ∪ range start size) (e := S) success,← took] at sound'
    exact ⟨⟨succeeds.trans possible.symm,sound'.exact,fun bad => absurd success bad⟩,sound'⟩
  obtain ⟨kept,sound'⟩ := refused success
  rw [← if_neg (t := S ∪ range start size) (e := S) success,← took] at sound'
  exact ⟨⟨succeeds.trans possible.symm,sound'.exact,fun _ => kept.trans same⟩,sound'⟩

theorem step_spec (diagnostic : Bool) (sound : Sound lo hi s S) (small : hi < 2 ^ 32) (allowed : Allowed s op) :
    ∃ reply s', step diagnostic s op = some (reply,s') ∧ Answers s op S reply s' ∧ Sound lo hi s' (taken s op reply S) := by
  have top := sound.bounds.2
  cases allowed with
  | alloc t start size flags idle fits =>
    have took : ∀ reply, taken s (.alloc t start size flags true) reply S = if reply = .returned none then S ∪ range start size else S := by
      intro reply
      unfold taken
      cases reply with
      | returned error => cases error <;> simp
      | _ => simp
    obtain ⟨reply,s',ran,answers⟩ := attempt_answers t flags s sound small fits rfl Iff.rfl took
    refine ⟨reply,s',?_,answers⟩
    unfold step
    dsimp only
    rw [allocRegion_start fits (by omega),ran]
  | free start size fits =>
    obtain ⟨reply,s',ran,succeeds,done,refused⟩ := extentFree_spec diagnostic sound small fits
    refine ⟨reply,s',congrArg some ran,?_⟩
    by_cases success : reply = .returned none
    · subst success
      exact ⟨⟨succeeds,(done rfl).exact,fun bad => absurd rfl bad⟩,done rfl⟩
    have kept := refused success
    subst kept
    have took : taken s' (.free start size true) reply S = S := by
      cases reply with
      | returned error =>
        cases error with
        | none => exact absurd rfl success
        | some e => rfl
      | _ => rfl
    rw [took]
    exact ⟨⟨succeeds,by rw [took]; exact sound.exact,fun _ => rfl⟩,sound⟩
  | wake t error asleep =>
    obtain ⟨request,waiting⟩ := Option.ne_none_iff_exists'.mp asleep
    have awake : Sound lo hi {s with waiting := update s.waiting t none} S := by
      refine ⟨sound.bounds,sound.coalesces,sound.normal,sound.covered,sound.inside,?_⟩
      intro t' request' waiting'
      by_cases mine : t' = t
      · rw [mine] at waiting'
        change update s.waiting t _ t = _ at waiting'
        rw [update_self] at waiting'
        cases waiting'
      obtain ⟨a,b,c⟩ := sound.waiting t' request' ((update_of_ne mine _ _).symm.trans waiting')
      exact ⟨a,b,c⟩
    unfold step
    dsimp only
    rw [waiting]
    cases error with
    | some e =>
      exact ⟨_,_,rfl,⟨⟨fun bad => (by cases bad),fun bad => bad.elim⟩,sound.exact,fun _ => rfl⟩,awake⟩
    | none =>
      obtain ⟨a,b,c⟩ := sound.waiting t request waiting
      have took : ∀ reply, taken s (.wake t none) reply S =
          if reply = .returned none then S ∪ range request.start request.size else S := by
        intro reply
        unfold taken
        cases reply with
        | returned error =>
          cases error with
          | none => simp [waiting]
          | some e => simp
        | _ => simp
      have possible : Possible s (.wake t none) S ↔ ∀ x ∈ range request.start request.size, x ∉ S := by
        constructor
        · rintro ⟨request',here,free⟩
          rw [waiting] at here
          cases here
          exact free
        · exact fun free => ⟨request,waiting,free⟩
      obtain ⟨reply,s',ran,answers⟩ := attempt_answers t request.flags s awake small ⟨a,b,c⟩ rfl possible took
      exact ⟨reply,s',congrArg some ran,answers⟩

theorem reached_sound (small : hi < 2 ^ 32) (reached : Reached diagnostic lo hi s S) : Sound lo hi s S := by
  induction reached with
  | create =>
    refine ⟨⟨rfl,rfl⟩,rfl,normal_nil,?_,by simp,fun t request waiting => (by cases waiting)⟩
    simp [Covered,spans,extentCreate]
  | step s s' S op reply prior allowed ran ih =>
    obtain ⟨reply',s'',done,_,sound⟩ := step_spec diagnostic ih small allowed
    rw [ran] at done
    cases done
    exact sound

-- At any time the list is that of the maximal intervals of what is allocated,
-- and the next call does what it should.
theorem extent_exact (small : hi < 2 ^ 32) (reached : Reached diagnostic lo hi s S) : Exact s.exRegions S ∧
    ∀ op, Allowed s op → ∃ reply s', step diagnostic s op = some (reply,s') ∧ Answers s op S reply s' := by
  have sound := reached_sound small reached
  refine ⟨sound.exact,?_⟩
  intro op allowed
  obtain ⟨reply,s',ran,answers,_⟩ := step_spec diagnostic sound small allowed
  exact ⟨reply,s',ran,answers⟩

theorem extent_exact_top : ∃ s, Reached true 0 (2 ^ 32 - 1) s (range 0xfffff000 0x1000) ∧ s.exRegions = [⟨0xfffff000,0xffffffff⟩] ∧
    Exact s.exRegions (range 0xfffff000 0x1000) ∧
    ∀ op, Allowed s op → ∃ reply s', step true s op = some (reply,s') ∧ Answers s op (range 0xfffff000 0x1000) reply s' := by
  have fits : Fits (extentCreate 0 (2 ^ 32 - 1) false) 0xfffff000 0x1000 := ⟨by decide,by decide,by decide⟩
  have reached := Reached.step _ _ _ _ (.returned none) (@Reached.create true 0 (2 ^ 32 - 1))
    (.alloc 0 0xfffff000 0x1000 ⟨false,false⟩ rfl fits) rfl
  have points : taken (extentCreate 0 (2 ^ 32 - 1) false) (.alloc 0 0xfffff000 0x1000 ⟨false,false⟩ true) (.returned none) ∅ =
      range 0xfffff000 0x1000 := Set.empty_union _
  rw [points] at reached
  exact ⟨_,reached,rfl,extent_exact (by decide) reached⟩
end NetbsdAvr32.Extent
