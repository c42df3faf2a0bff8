import Mathlib.Logic.Relation
import Mathlib.Data.List.Basic

-- Calls that put their items into one log in pieces, short calls in one piece.
namespace NetbsdAvr32.CallLog
open List

-- A call is its place in asked, where writers has its thread. pending: the call of a thread with the items that are not in the log yet.
structure Calls (T α : Type) where
  asked : List (List α)
  writers : List T
  sent : List (Nat × α)
  accepted : List (Nat × Nat)
  pending : T → Option (Nat × List α)

variable {T α : Type} [DecidableEq T]

def Calls.hold (l : Calls T α) (t : T) (p : Option (Nat × List α)) : Calls T α := { l with pending := Function.update l.pending t p }

def Calls.begun (l : Calls T α) (t : T) (items : List α) : Calls T α :=
  { l with asked := l.asked ++ [items], writers := l.writers ++ [t] }.hold t (some (l.asked.length,items))

def Calls.put (l : Calls T α) (t : T) (c : Nat) (rest : List α) (n : Nat) : Calls T α :=
  { l with sent := l.sent ++ (rest.take n).map fun x => (c,x) }.hold t (some (c,rest.drop n))

def Calls.finished (l : Calls T α) (t : T) (c : Nat) (rest : List α) : Calls T α :=
  { l with accepted := l.accepted ++ [(c,(l.asked.getD c []).length - rest.length)] }.hold t none

-- Of at most limit items all go in or none.
inductive Move (limit : Nat) (l : Calls T α) : Calls T α → Prop where
  | begin_ {t : T} (items : List α) : l.pending t = none → Move limit l (l.begun t items)
  | put {t : T} {c : Nat} {rest : List α} (n : Nat) : l.pending t = some (c,rest) → n ≤ rest.length →
      (rest.length ≤ limit → n = rest.length) → Move limit l (l.put t c rest n)
  | finish {t : T} {c : Nat} {rest : List α} : l.pending t = some (c,rest) → Move limit l (l.finished t c rest)

def Moves (limit : Nat) : Calls T α → Calls T α → Prop := Relation.ReflTransGen (Move limit)
def sentOf (sent : List (Nat × α)) (c : Nat) : List α := (sent.filter fun x => x.1 = c).map Prod.snd

-- The items of every call and the calls of every thread stand in the log in order, a finished call knows how many items there are,
-- and a short one is whole.
structure Accounted (limit : Nat) (asked : List (List α)) (writers : List T) (sent : List (Nat × α)) (accepted : List (Nat × Nat)) : Prop where
  known : ∀ x ∈ sent,x.1 < asked.length
  order : ∀ c items,asked[c]? = some items → sentOf sent c <+: items
  line : sent.Pairwise fun x y => writers[x.1]? = writers[y.1]? → x.1 ≤ y.1
  done : ∀ x ∈ accepted,∃ items,asked[x.1]? = some items ∧ x.2 ≤ items.length ∧ sentOf sent x.1 = items.take x.2
  whole : ∀ c items,asked[c]? = some items → items.length ≤ limit →
    sentOf sent c = [] ∨ ∃ front back,sent = front ++ (items.map fun x => (c,x)) ++ back

structure Wf (limit : Nat) (l : Calls T α) : Prop where
  books : Accounted limit l.asked l.writers l.sent l.accepted
  length : l.writers.length = l.asked.length
  open_ : ∀ t c rest,l.pending t = some (c,rest) → ∃ items,l.asked[c]? = some items ∧ sentOf l.sent c ++ rest = items
  apart : ∀ t u c rest rest',l.pending t = some (c,rest) → l.pending u = some (c,rest') → t = u
  latest : ∀ t c rest,l.pending t = some (c,rest) → l.writers[c]? = some t ∧ ∀ d,c < d → l.writers[d]? ≠ some t
  closed : ∀ x ∈ l.accepted,∀ t rest,l.pending t ≠ some (x.1,rest)

variable {limit n c : Nat} {l l' : Calls T α} {t u : T} {items rest : List α} {p : Option (Nat × List α)}

@[simp] theorem hold_asked : (l.hold t p).asked = l.asked := rfl
@[simp] theorem hold_writers : (l.hold t p).writers = l.writers := rfl
@[simp] theorem hold_sent : (l.hold t p).sent = l.sent := rfl
@[simp] theorem hold_accepted : (l.hold t p).accepted = l.accepted := rfl
theorem hold_self : (l.hold t p).pending t = p := Function.update_self ..
theorem hold_other (ne : u ≠ t) : (l.hold t p).pending u = l.pending u := Function.update_of_ne ne ..

theorem sentOf_append (xs ys : List (Nat × α)) (c : Nat) : sentOf (xs ++ ys) c = sentOf xs c ++ sentOf ys c := by
  rw [sentOf,filter_append,map_append]
  rfl

theorem sentOf_own (items : List α) (c : Nat) : sentOf (items.map fun x => (c,x)) c = items := by
  rw [sentOf,filter_eq_self.mpr (by simp),map_map]
  exact map_id _

theorem sentOf_none {sent : List (Nat × α)} (none_ : ∀ x ∈ sent,x.1 ≠ c) : sentOf sent c = [] := by
  rw [sentOf,filter_eq_nil_iff.mpr (by simpa using none_)]
  rfl

theorem sentOf_other {d : Nat} (items : List α) (ne : d ≠ c) : sentOf (items.map fun x => (d,x)) c = [] := by
  refine sentOf_none fun x mem => ?_
  obtain ⟨y,-,rfl⟩ := mem_map.mp mem
  exact ne

theorem sentOf_put (sent : List (Nat × α)) (items : List α) (c d : Nat) :
    sentOf (sent ++ items.map fun x => (c,x)) d = if d = c then sentOf sent d ++ items else sentOf sent d := by
  rw [sentOf_append]
  split
  · rename_i same
    rw [same,sentOf_own]
  rename_i other
  rw [sentOf_other items (Ne.symm other),append_nil]

section
variable (wf : Wf limit l)
include wf

theorem Wf.begun (idle : l.pending t = none) (items : List α) : Wf limit (l.begun t items) := by
  have old {c : Nat} {xs : List α} (at_ : l.asked[c]? = some xs) : (l.asked ++ [items])[c]? = some xs := by
    rw [List.getElem?_append_left (List.getElem?_eq_some_iff.mp at_).1]
    exact at_
  have fresh : sentOf l.sent l.asked.length = [] := sentOf_none fun x mem => Nat.ne_of_lt (wf.books.known x mem)
  have last {c : Nat} {xs : List α} (at_ : (l.asked ++ [items])[c]? = some xs) : l.asked[c]? = some xs ∨ c = l.asked.length ∧ xs = items := by
    rcases Nat.lt_trichotomy c l.asked.length with low | same | high
    · rw [getElem?_append_left low] at at_
      exact .inl at_
    · rw [same,getElem?_append_right (Nat.le_refl _),Nat.sub_self] at at_
      exact .inr ⟨same,(Option.some.inj at_).symm⟩
    rw [getElem?_eq_none (by simp; omega)] at at_
    cases at_
  constructor
  · constructor
    · intro x mem
      have := wf.books.known x mem
      simp only [Calls.begun,hold_asked,length_append,length_singleton]
      omega
    · intro c xs at_
      rcases last at_ with before | ⟨rfl,rfl⟩
      · exact wf.books.order c xs before
      rw [show sentOf (l.begun t xs).sent l.asked.length = [] from fresh]
      exact nil_prefix
    · refine wf.books.line.imp_of_mem fun {x y} first second before same => ?_
      have low := wf.books.known x first
      have high := wf.books.known y second
      rw [← wf.length] at low high
      refine before ?_
      rw [← getElem?_append_left low,← getElem?_append_left high]
      exact same
    · intro x mem
      obtain ⟨xs,at_,few,sent⟩ := wf.books.done x mem
      exact ⟨xs,old at_,few,sent⟩
    intro c xs at_ short
    rcases last at_ with before | ⟨rfl,rfl⟩
    · exact wf.books.whole c xs before short
    · exact .inl fresh
  · simp [Calls.begun,wf.length]
  · intro u c rest pending
    by_cases same : u = t
    · subst same
      rw [Calls.begun,hold_self] at pending
      cases pending
      exact ⟨items,by simp [Calls.begun],by rw [show sentOf (l.begun u items).sent l.asked.length = [] from fresh]; rfl⟩
    rw [Calls.begun,hold_other same] at pending
    obtain ⟨xs,at_,total⟩ := wf.open_ u c rest pending
    exact ⟨xs,old at_,total⟩
  · have below {u : T} {c : Nat} {rest : List α} (pending : l.pending u = some (c,rest)) : c < l.asked.length := by
      obtain ⟨xs,at_,-⟩ := wf.open_ u c rest pending
      exact (List.getElem?_eq_some_iff.mp at_).1
    intro u v c rest rest' first second
    unfold Calls.begun at first second
    by_cases mine : u = t <;> by_cases other : v = t
    · exact mine.trans other.symm
    · rw [mine,hold_self] at first
      rw [hold_other other] at second
      cases first
      exact absurd (below second) (Nat.lt_irrefl _)
    · rw [hold_other mine] at first
      rw [other,hold_self] at second
      cases second
      exact absurd (below first) (Nat.lt_irrefl _)
    rw [hold_other mine] at first
    rw [hold_other other] at second
    exact wf.apart u v c rest rest' first second
  · intro u c rest pending
    unfold Calls.begun at pending
    show (l.writers ++ [t])[c]? = some u ∧ ∀ d,c < d → (l.writers ++ [t])[d]? ≠ some u
    by_cases same : u = t
    · rw [same,hold_self] at pending
      cases pending
      rw [same,← wf.length]
      refine ⟨by simp,fun d high => ?_⟩
      rw [getElem?_eq_none (by simp; omega)]
      simp
    rw [hold_other same] at pending
    obtain ⟨mine,later⟩ := wf.latest u c rest pending
    have low := (List.getElem?_eq_some_iff.mp mine).1
    refine ⟨by rw [getElem?_append_left low]; exact mine,fun d high => ?_⟩
    rcases Nat.lt_trichotomy d l.writers.length with below | last | above
    · rw [getElem?_append_left below]
      exact later d high
    · rw [last,getElem?_append_right (Nat.le_refl _),Nat.sub_self]
      exact fun other => same (Option.some.inj other).symm
    rw [getElem?_eq_none (by simp; omega)]
    simp
  intro x mem u rest pending
  unfold Calls.begun at pending
  by_cases same : u = t
  · rw [same,hold_self] at pending
    obtain ⟨xs,at_,-⟩ := wf.books.done x mem
    have low := (List.getElem?_eq_some_iff.mp at_).1
    have := congrArg Prod.fst (Option.some.inj pending)
    omega
  rw [hold_other same] at pending
  exact wf.closed x mem u rest pending

theorem Wf.put (mine : l.pending t = some (c,rest)) (few : n ≤ rest.length) (short : rest.length ≤ limit → n = rest.length) :
    Wf limit (l.put t c rest n) := by
  obtain ⟨items,at_,total⟩ := wf.open_ t c rest mine
  have sent (d : Nat) : sentOf (l.put t c rest n).sent d = if d = c then sentOf l.sent d ++ rest.take n else sentOf l.sent d := sentOf_put ..
  have own : sentOf (l.put t c rest n).sent c ++ rest.drop n = items := by
    rw [sent,if_pos rfl,append_assoc,take_append_drop]
    exact total
  have was {u : T} {d : Nat} {rest' : List α} (pending : (l.put t c rest n).pending u = some (d,rest')) : ∃ rest',l.pending u = some (d,rest') := by
    unfold Calls.put at pending
    by_cases same : u = t
    · rw [same,hold_self] at pending
      cases pending
      exact ⟨rest,same ▸ mine⟩
    rw [hold_other same] at pending
    exact ⟨rest',pending⟩
  constructor
  · constructor
    · intro x mem
      rcases mem_append.mp mem with before | new
      · exact wf.books.known x before
      obtain ⟨y,-,rfl⟩ := mem_map.mp new
      exact (List.getElem?_eq_some_iff.mp at_).1
    · intro d xs here
      by_cases same : d = c
      · subst same
        cases Option.some.inj (at_.symm.trans here)
        exact ⟨_,own⟩
      rw [sent,if_neg same]
      exact wf.books.order d xs here
    · obtain ⟨writer,later⟩ := wf.latest t c rest mine
      refine pairwise_append.mpr ⟨wf.books.line,pairwise_map.mpr (pairwise_of_forall fun _ _ _ => Nat.le_refl _),?_⟩
      intro x before y new same
      obtain ⟨z,-,rfl⟩ := mem_map.mp new
      have same : l.writers[x.1]? = l.writers[c]? := same
      rw [writer] at same
      exact Nat.le_of_not_lt fun high => later x.1 high same
    · intro x mem
      obtain ⟨xs,here,within,count⟩ := wf.books.done x mem
      refine ⟨xs,here,within,?_⟩
      rw [sent,if_neg fun same : x.1 = c => wf.closed x mem t rest (same ▸ mine)]
      exact count
    intro d xs here small
    rcases wf.books.whole d xs here small with nothing | ⟨front,back,log⟩
    · by_cases same : d = c
      · subst same
        cases Option.some.inj (at_.symm.trans here)
        rw [nothing,nil_append] at total
        subst total
        refine .inr ⟨l.sent,[],?_⟩
        rw [append_nil,Calls.put,hold_sent,short small,take_length]
      · exact .inl (by rw [sent,if_neg same]; exact nothing)
    refine .inr ⟨front,back ++ (rest.take n).map fun x => (c,x),?_⟩
    rw [← append_assoc,← log]
    rfl
  · exact wf.length
  · intro u d rest' pending
    unfold Calls.put at pending
    by_cases same : u = t
    · rw [same,hold_self] at pending
      cases pending
      exact ⟨items,at_,own⟩
    rw [hold_other same] at pending
    obtain ⟨xs,here,total⟩ := wf.open_ u d rest' pending
    refine ⟨xs,here,?_⟩
    rw [sent,if_neg fun call : d = c => same (wf.apart u t c rest' rest (call ▸ pending) mine)]
    exact total
  · intro u v d _ _ first second
    obtain ⟨_,first⟩ := was first
    obtain ⟨_,second⟩ := was second
    exact wf.apart u v d _ _ first second
  · intro u d _ pending
    obtain ⟨_,pending⟩ := was pending
    exact wf.latest u d _ pending
  intro x mem u _ pending
  obtain ⟨_,pending⟩ := was pending
  exact wf.closed x mem u _ pending

theorem Wf.finished (mine : l.pending t = some (c,rest)) : Wf limit (l.finished t c rest) := by
  obtain ⟨items,at_,total⟩ := wf.open_ t c rest mine
  have length : items.length = (sentOf l.sent c).length + rest.length := by rw [← total,length_append]
  have other {u : T} {x : Nat × List α} (pending : (l.finished t c rest).pending u = some x) : u ≠ t ∧ l.pending u = some x := by
    have ne : u ≠ t := by
      rintro rfl
      rw [Calls.finished,hold_self] at pending
      cases pending
    rw [Calls.finished,hold_other ne] at pending
    exact ⟨ne,pending⟩
  constructor
  · refine ⟨wf.books.known,wf.books.order,wf.books.line,fun x mem => ?_,wf.books.whole⟩
    rcases mem_append.mp mem with before | new
    · exact wf.books.done x before
    rw [mem_singleton.mp new]
    refine ⟨items,at_,?_,?_⟩
    · rw [getD_eq_getElem?_getD,at_]
      exact Nat.sub_le ..
    show sentOf l.sent c = items.take ((l.asked.getD c []).length - rest.length)
    rw [getD_eq_getElem?_getD,at_,Option.getD_some,length,Nat.add_sub_cancel,← total,take_left]
  · exact wf.length
  · exact fun u d rest' pending => wf.open_ u d rest' (other pending).2
  · exact fun u v d _ _ first second => wf.apart u v d _ _ (other first).2 (other second).2
  · exact fun u d rest' pending => wf.latest u d rest' (other pending).2
  intro x mem u rest' pending
  obtain ⟨ne,pending⟩ := other pending
  rcases mem_append.mp mem with before | new
  · exact wf.closed x before u rest' pending
  rw [mem_singleton.mp new] at pending
  exact ne (wf.apart u t c rest' rest pending mine)

end
end NetbsdAvr32.CallLog
