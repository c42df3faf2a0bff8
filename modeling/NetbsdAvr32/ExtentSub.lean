import NetbsdAvr32.ExtentExact

-- extent_alloc_subregion1 of sys/kern/subr_extent.c: an aligned place inside a
-- subregion, the first that fits or the one that wastes least.
namespace NetbsdAvr32.Extent
open List

def EXTENT_ALIGN (start align skew : Nat) : Nat := word ((word (less start skew + less align 1) &&& less 0 align) + skew)
def LE_OV (x y z : Nat) : Bool := decide (x ≤ word (x + y)) && decide (word (x + y) ≤ z)

structure SubFlags where
  fast : Bool
  boundzero : Bool
  waitspace : Bool
  deriving DecidableEq, Repr

structure Sub where
  substart : Nat
  subend : Nat
  size : Nat
  alignment : Nat
  skew : Nat
  boundary : Nat
  flags : SubFlags
  deriving DecidableEq, Repr

-- Where the boundaries are counted from.
def Sub.origin (a : Sub) (exStart : Nat) : Nat := if a.flags.boundzero then 0 else exStart

-- What the check of one chunk of free space comes to.
inductive Chunk where
  | skip
  | fail
  | fits (newstart : Nat)
  deriving DecidableEq, Repr

def checkEnd (s : State) (a : Sub) (newstart dontcross : Nat) : Chunk :=
  if less (word (newstart + a.size)) 1 > s.exEnd ∨ dontcross < newstart then .fail else .fits newstart

def checkBoundary (s : State) (a : Sub) (room limit newstart : Nat) : Chunk :=
  let newend := word (newstart + less a.size 1)
  let dontcross := less (EXTENT_ALIGN (word (newstart + 1)) a.boundary (a.origin s.exStart)) 1
  if dontcross < s.exStart then checkEnd s a newstart s.exEnd
  else if newend > dontcross then
    let newstart := word (dontcross + 1)
    if LE_OV newstart room limit then checkEnd s a newstart (word (dontcross + a.boundary)) else .skip
  else checkEnd s a newstart dontcross

-- `room` and `limit` are what LE_OV gets: the size and the next region's start
-- before a region, and the size less one and the subend after the last.
def checkChunk (s : State) (a : Sub) (room limit newstart : Nat) : Chunk :=
  if LE_OV newstart room limit then
    if a.boundary = 0 then .fits newstart else checkBoundary s a room limit newstart
  else .skip

-- A place in the list, as the regions before it, the last first, and behind it.
abbrev Cursor := List Region × List Region

-- bestovh, beststart and bestlast; no choice yet where bestovh is 0.
structure Best where
  bestovh : Nat
  beststart : Nat
  bestlast : Cursor

def Best.initial : Best := ⟨0,0,([],[])⟩

def Best.offer (best : Best) (ovh newstart : Nat) (last : Cursor) : Best :=
  if best.bestovh = 0 ∨ ovh < best.bestovh then ⟨ovh,newstart,last⟩ else best

-- From `fail` on, up to the wait.
def Best.settle (best : Best) (fast : Bool) : Option (Nat × Cursor) :=
  if fast = false ∧ best.bestovh ≠ 0 then some (best.beststart,best.bestlast) else none

-- The check against the end of the subregion.
def finalCheck (s : State) (a : Sub) (last : Cursor) (exend newstart : Nat) (best : Best) : Option (Nat × Cursor) :=
  match checkChunk s a (less a.size 1) a.subend newstart with
  | .fits start =>
    let ovh := less (less exend start) (less a.size 1)
    if a.flags.fast ∨ ovh = 0 then some (start,last) else (best.offer ovh start last).settle a.flags.fast
  | _ => best.settle a.flags.fast

def scanGaps (s : State) (a : Sub) : List Region → List Region → Nat → Best → Option (Nat × Cursor)
  | last, [], newstart, best => finalCheck s a (last,[]) s.exEnd newstart best
  | last, rp :: rest, newstart, best =>
    if rp.erStart > a.subend then finalCheck s a (last,rp :: rest) rp.erStart newstart best
    else
      let next := EXTENT_ALIGN (word (rp.erEnd + 1)) a.alignment a.skew
      let go (best : Best) := if next < rp.erEnd then best.settle a.flags.fast else scanGaps s a (rp :: last) rest next best
      match checkChunk s a a.size rp.erStart newstart with
      | .fail => best.settle a.flags.fast
      | .skip => go best
      | .fits start =>
        let ovh := less (less rp.erStart start) a.size
        if a.flags.fast ∨ ovh = 0 then some (start,last,rp :: rest) else go (best.offer ovh start (last,rp :: rest))

def skipBefore (newstart : Nat) : List Region → List Region → Cursor
  | last, [] => (last,[])
  | last, rp :: rest => if rp.erStart ≥ newstart then (last,rp :: rest) else skipBefore newstart (rp :: last) rest

def relocate (a : Sub) (newstart : Nat) : List Region → Nat
  | [] => newstart
  | last :: _ => if last.erEnd ≥ newstart then EXTENT_ALIGN (word (last.erEnd + 1)) a.alignment a.skew else newstart

def findGap (s : State) (a : Sub) (newstart : Nat) : Option (Nat × Cursor) :=
  let (last,rp) := skipBefore newstart [] s.exRegions
  scanGaps s a last rp (relocate a newstart last) Best.initial

-- The arguments DIAGNOSTIC rejects.
def checkArguments (s : State) (a : Sub) : Option String :=
  if a.substart < s.exStart ∨ a.substart > s.exEnd ∨ a.subend > s.exEnd ∨ a.subend < s.exStart then
    some "extent_alloc_subregion: bad subregion"
  else if a.size < 1 ∨ less a.size 1 > less a.subend a.substart then some "extent_alloc_subregion: bad size"
  else if a.alignment = 0 then some "extent_alloc_subregion: bad alignment"
  else if a.boundary ≠ 0 ∧ a.boundary < a.size then some "extent_alloc_subregion: bad boundary"
  else none

-- The answer, what is stored through `result` and the extent.
def extentAllocSubregion1 (diagnostic descriptor : Bool) (a : Sub) (s : State) : Reply × Option Nat × State :=
  match if diagnostic then checkArguments s a else none with
  | some text => (.panic text,none,s)
  | none =>
    if descriptor = false then (.returned (some .enomem),none,s)
    else
      let newstart := EXTENT_ALIGN a.substart a.alignment a.skew
      if newstart < s.exStart then
        if diagnostic then (.panic "extent_alloc_subregion: overflow after alignment",none,s)
        else (.returned (some .einval),none,s)
      else match findGap s a newstart with
        | none => (if a.flags.waitspace then .asleep else .returned (some .eagain),none,s)
        | some (start,last,behind) =>
          (.returned none,some start,{s with exRegions := extentInsertAndOptimize s.exNoCoalesce start a.size last behind})

-- Region lists that are in order and disjoint, coalesced or not.

variable {l before behind rest left middle right old new : List Region} {r q after first : Region} {start size fin x : Nat}

structure Tidy (l : List Region) : Prop where
  order : ∀ r ∈ l, r.erStart ≤ r.erEnd
  sorted : l.Pairwise fun a b => a.erEnd < b.erStart

theorem Tidy.tail_lt (tidy : Tidy (l ++ r :: rest)) : ∀ q ∈ rest, r.erEnd < q.erStart :=
  (pairwise_cons.mp (pairwise_append.mp tidy.sorted).2.1).1

theorem Tidy.head_lt (tidy : Tidy (l ++ r :: rest)) : ∀ q ∈ l, q.erEnd < r.erStart :=
  fun q mem => (pairwise_append.mp tidy.sorted).2.2 q mem r (mem_cons_self ..)

theorem Tidy.member (tidy : Tidy (l ++ r :: rest)) : r.erStart ≤ r.erEnd :=
  tidy.order r (mem_append_right _ (mem_cons_self ..))

theorem Tidy.splice (tidy : Tidy (left ++ middle ++ right)) (order : r.erStart ≤ r.erEnd) (low : ∀ q ∈ left, q.erEnd < r.erStart)
    (high : ∀ q ∈ right, r.erEnd < q.erStart) : Tidy (left ++ r :: right) := by
  obtain ⟨orders,sorted⟩ := tidy
  obtain ⟨fronts,rights,across⟩ := pairwise_append.mp sorted
  obtain ⟨lefts,_,_⟩ := pairwise_append.mp fronts
  constructor
  · intro q mem
    rcases mem_append.mp mem with one | two
    · exact orders q (mem_append_left _ (mem_append_left _ one))
    rcases mem_cons.mp two with rfl | three
    · exact order
    · exact orders q (mem_append_right _ three)
  refine pairwise_append.mpr ⟨lefts,pairwise_cons.mpr ⟨high,rights⟩,?_⟩
  intro q one p two
  rcases mem_cons.mp two with rfl | three
  · exact low q one
  · exact across q (mem_append_left _ one) p three

structure Joined (start fin : Nat) (old new left middle right : List Region) (r : Region) : Prop where
  old : old = left ++ middle ++ right
  new : new = left ++ r :: right
  order : r.erStart ≤ r.erEnd
  whole : ∀ x, r.erStart ≤ x ∧ x ≤ r.erEnd ↔ x ∈ Covered middle ∨ start ≤ x ∧ x ≤ fin
  low : ∀ q ∈ left, q.erEnd < r.erStart
  high : ∀ q ∈ right, r.erEnd < q.erStart

theorem Joined.exact (joined : Joined start fin old new left middle right r) (tidy : Tidy old) :
    Tidy new ∧ Covered new = Covered old ∪ {x | start ≤ x ∧ x ≤ fin} := by
  obtain ⟨rfl,rfl,order,whole,low,high⟩ := joined
  refine ⟨tidy.splice order low high,?_⟩
  ext x
  have here := whole x
  simp only [mem_covered,Set.mem_union,Set.mem_setOf_eq,mem_append,mem_cons] at here ⊢
  constructor
  · rintro ⟨q,one | rfl | two,inside⟩
    · exact .inl ⟨q,.inl (.inl one),inside⟩
    · rcases here.mp inside with ⟨p,mem,held⟩ | asked
      · exact .inl ⟨p,.inl (.inr mem),held⟩
      · exact .inr asked
    · exact .inl ⟨q,.inr two,inside⟩
  rintro (⟨q,(one | mid) | two,inside⟩ | asked)
  · exact ⟨q,.inl one,inside⟩
  · exact ⟨r,.inr (.inl rfl),here.mpr (.inl ⟨q,mid,inside⟩)⟩
  · exact ⟨q,.inr (.inr two),inside⟩
  · exact ⟨r,.inr (.inl rfl),here.mpr (.inr asked)⟩

structure Gap (start size : Nat) (before behind : List Region) : Prop where
  tidy : Tidy (before.reverse ++ behind)
  some : 1 ≤ size
  fits : start + size ≤ 2 ^ 32
  low : ∀ r ∈ before, r.erEnd < start
  high : ∀ r ∈ behind, start + size ≤ r.erStart
  small : ∀ r ∈ behind, r.erStart < 2 ^ 32

theorem Gap.alone (gap : Gap start size before behind) :
    ∃ left middle right r, Joined start (start + size - 1) (before.reverse ++ behind) (before.reverse ++ ⟨start,start + size - 1⟩ :: behind) left middle right r := by
  have some := gap.some
  refine ⟨before.reverse,[],behind,⟨start,start + size - 1⟩,by rw [append_nil],rfl,?_,?_,?_,?_⟩
  · dsimp only
    omega
  · intro x
    simp
  · intro q mem
    exact gap.low q (mem_reverse.mp mem)
  intro q mem
  have := gap.high q mem
  dsimp only
  omega

theorem Gap.joinNext (gap : Gap start size before (first :: rest)) (touch : start + size = first.erStart) :
    ∃ left middle right r, Joined start (start + size - 1) (before.reverse ++ first :: rest) (before.reverse ++ {first with erStart := start} :: rest) left middle right r := by
  have order := gap.tidy.member
  refine ⟨before.reverse,[first],rest,{first with erStart := start},by rw [append_assoc]; rfl,rfl,?_,?_,?_,gap.tidy.tail_lt⟩
  · dsimp only
    omega
  · intro x
    simp only [mem_covered,mem_singleton,exists_eq_left]
    omega
  intro q mem
  exact gap.low q (mem_reverse.mp mem)

theorem Gap.joinPrev (gap : Gap start size (after :: before) behind) (touch : after.erEnd + 1 = start) :
    ∃ left middle right r, Joined start (start + size - 1) ((after :: before).reverse ++ behind) (before.reverse ++ {after with erEnd := start + size - 1} :: behind) left middle right r := by
  have tidy := gap.tidy
  rw [reverse_split] at tidy
  have order := tidy.member
  refine ⟨before.reverse,[after],behind,{after with erEnd := start + size - 1},by rw [reverse_split,append_assoc]; rfl,rfl,?_,?_,tidy.head_lt,?_⟩
  · dsimp only
    omega
  · intro x
    simp only [mem_covered,mem_singleton,exists_eq_left]
    omega
  intro q mem
  have := gap.high q mem
  dsimp only
  omega

theorem Gap.joinBoth (gap : Gap start size (after :: before) (first :: rest)) (back : after.erEnd + 1 = start) (touch : start + size = first.erStart) :
    ∃ left middle right r, Joined start (start + size - 1) ((after :: before).reverse ++ first :: rest) (before.reverse ++ {after with erEnd := first.erEnd} :: rest) left middle right r := by
  have tidy := gap.tidy
  have order' := tidy.member
  have ahead := tidy.tail_lt
  rw [reverse_split] at tidy
  have order := tidy.member
  refine ⟨before.reverse,[after,first],rest,{after with erEnd := first.erEnd},by rw [reverse_split,append_assoc]; rfl,rfl,?_,?_,tidy.head_lt,ahead⟩
  · dsimp only
    omega
  intro x
  simp only [mem_covered,mem_cons,not_mem_nil,or_false,exists_eq_or_imp,exists_eq_left]
  omega

theorem insert_joined (noCoalesce : Bool) (gap : Gap start size before behind) :
    ∃ left middle right r, Joined start (start + size - 1) (before.reverse ++ behind)
      (extentInsertAndOptimize noCoalesce start size before behind) left middle right r := by
  have put := insert_inserts noCoalesce gap.some gap.fits gap.low gap.high gap.small
  generalize extentInsertAndOptimize noCoalesce start size before behind = new at put ⊢
  cases put with
  | alone => exact gap.alone
  | next back front => exact gap.joinNext front
  | prev back front => exact gap.joinPrev back
  | both back front => exact gap.joinBoth back front
end NetbsdAvr32.Extent
