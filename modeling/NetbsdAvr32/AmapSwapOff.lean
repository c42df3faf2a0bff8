import NetbsdAvr32.AmapRuns
import NetbsdAvr32.Splice

-- sys/uvm/uvm_amap.c: amap_swap_off, while other threads use the amaps.
namespace NetbsdAvr32.AmapSwap
open Amap Splice Function AmapSwap

-- What is on amap_list: amaps, and the two markers on the stack of amap_swap_off.
inductive Node where
  | amap (am : Nat)
  | markerPrev
  | markerNext
  deriving DecidableEq

-- Where amap_swap_off is. It holds amap_list_lock at the test of the outer loop,
-- and the lock of the amap while it scans it.
inductive Pc where
  | test (node : Option Node)
  | preempted
  | scan (am i : Nat)
  | pagein (am anon : Nat)
  | relock (am : Nat)
  | next
  | done

structure State where
  pc : Pc
  rv : Bool
  amapList : List Node
  amaps : Nat → Amap
  anons : Anons
  anSwslot : Nat → Int

def inRange (startslot endslot swslot : Int) : Prop := ¬(swslot < startslot ∨ endslot ≤ swslot)
def mark (am : Node) (list : List Node) : List Node := insertAfter am .markerNext (insertBefore am .markerPrev list)
def unmark (list : List Node) : List Node := (list.erase .markerPrev).erase .markerNext

-- am_next once the lock of the amap could not be taken. None where an assertion fails.
def retry (list : List Node) : Option (Option Node) :=
  match nextOf .markerPrev list with
  | none => none
  | some .markerNext => some (nextOf .markerNext list)
  | some am => if nextOf am list = some .markerNext then some (some am) else none

-- am_next at the label next. None where the assertion fails.
def following (list : List Node) : Option (Option Node) :=
  match nextOf .markerPrev list with
  | none => none
  | some am => if am = .markerNext ∨ nextOf am list = some .markerNext then some (nextOf .markerNext list) else none

def setSwapoff (state : State) (am : Nat) (flag : Bool) : Nat → Amap :=
  update state.amaps am {state.amaps am with amSwapoff := flag}

-- The anon that the loop finds at index i, NULL being no anon.
def anonAt (amap : Amap) (i : Nat) : Option Nat := amap.amAnon (amap.amSlots i)

-- The anon listed first is not in the range, once the amap is locked again.
def Covered (startslot endslot : Int) (state : State) (am : Nat) : Prop :=
  0 < (state.amaps am).amNused → ∀ anon, anonAt (state.amaps am) 0 = some anon → ¬inRange startslot endslot (state.anSwslot anon)

-- The steps of amap_swap_off.
inductive Advance (startslot endslot : Int) (guarded : Bool) : State → State → Prop
  | stop (at_ : state.pc = .test node) (beyond : node = none ∨ state.rv = true) :
      Advance startslot endslot guarded state {state with pc := .done}
  | busy (at_ : state.pc = .test (some node)) (more : state.rv = false) :
      Advance startslot endslot guarded state {state with pc := .preempted,amapList := mark node state.amapList}
  | locked (at_ : state.pc = .test (some (.amap am))) (more : state.rv = false) :
      Advance startslot endslot guarded state {state with
        pc := if (state.amaps am).amNused ≤ 0 then .next else .scan am 0,amapList := mark (.amap am) state.amapList}
  | retried (at_ : state.pc = .preempted) (found : retry state.amapList = some node) :
      Advance startslot endslot guarded state {state with pc := .test node,amapList := unmark state.amapList}
  | passed (at_ : state.pc = .scan am i) (more : i < (state.amaps am).amNused) (found : anonAt (state.amaps am) i = some anon)
      (out : ¬inRange startslot endslot (state.anSwslot anon)) :
      Advance startslot endslot guarded state {state with pc := .scan am (i + 1)}
  | swapped (at_ : state.pc = .scan am i) (more : i < (state.amaps am).amNused) (found : anonAt (state.amaps am) i = some anon)
      (swslot : inRange startslot endslot (state.anSwslot anon)) :
      Advance startslot endslot guarded state {state with pc := .pagein am anon,amaps := setSwapoff state am true}
  | scanned (at_ : state.pc = .scan am i) (all : (state.amaps am).amNused ≤ i) :
      Advance startslot endslot guarded state {state with pc := .next}
  -- uvm_anon_pagein returns false, then true.
  | pagedIn (at_ : state.pc = .pagein am anon) :
      Advance startslot endslot guarded state {state with pc := .relock am,rv := false,anSwslot := update state.anSwslot anon 0}
  | failed (at_ : state.pc = .pagein am anon) :
      Advance startslot endslot guarded state {state with pc := .relock am,rv := true}
  | wipedOut (at_ : state.pc = .relock am) (unused : (state.amaps am).amRef = 0)
      (ran : wipeoutLoop (state.amaps am) (state.amaps am).amNused 0 state.anons = .ok anons) :
      Advance startslot endslot guarded state {state with
        pc := .next,amaps := setSwapoff state am false,amapList := state.amapList.erase (.amap am),anons := anons}
  | broke (at_ : state.pc = .relock am) (used : (state.amaps am).amRef ≠ 0) (error : state.rv = true) :
      Advance startslot endslot guarded state {state with pc := .next,amaps := setSwapoff state am false}
  -- i = 0, and then the i++ of the loop.
  | restarted (at_ : state.pc = .relock am) (used : (state.amaps am).amRef ≠ 0) (more : state.rv = false)
      (covered : guarded = true → Covered startslot endslot state am) :
      Advance startslot endslot guarded state {state with pc := .scan am (0 + 1),amaps := setSwapoff state am false}
  | left (at_ : state.pc = .next) (found : following state.amapList = some node) :
      Advance startslot endslot guarded state {state with pc := .test node,amapList := unmark state.amapList}

-- The lock of the amap, and amap_list_lock, as other threads find them.
def Unlocked (state : State) (am : Nat) : Prop := ∀ i, state.pc ≠ .scan am i
def ListUnlocked (state : State) : Prop := ∀ node, state.pc ≠ .test node

-- What other threads do. No anon gets a swap slot of the range.
inductive Others (startslot endslot : Int) : State → State → Prop
  | added (listed : .amap am ∈ state.amapList) (unlocked : Unlocked state am)
      (ran : amapAdd (state.amaps am) slot anon replace = .ok amap) :
      Others startslot endslot state {state with amaps := update state.amaps am amap}
  | unadded (listed : .amap am ∈ state.amapList) (unlocked : Unlocked state am)
      (ran : amapUnadd (state.amaps am) slot = .ok amap) :
      Others startslot endslot state {state with amaps := update state.amaps am amap}
  | referenced (listed : .amap am ∈ state.amapList) (unlocked : Unlocked state am)
      (ran : amapRef rounds memory (state.amaps am) state.anons offset len shared refall = .ok (amap,anons)) :
      Others startslot endslot state {state with amaps := update state.amaps am amap,anons := anons}
  | unreferenced (listed : .amap am ∈ state.amapList) (unlocked : Unlocked state am)
      (ran : amapUnref rounds memory (state.amaps am) state.anons offset len all = .ok (some amap,anons)) :
      Others startslot endslot state {state with amaps := update state.amaps am amap,anons := anons}
  | freed (listed : .amap am ∈ state.amapList) (unlocked : Unlocked state am) (listUnlocked : ListUnlocked state)
      (ran : amapUnref rounds memory (state.amaps am) state.anons offset len all = .ok (none,anons)) :
      Others startslot endslot state {state with amapList := state.amapList.erase (.amap am),anons := anons}
  | listed (fresh : .amap am ∉ state.amapList) (unlocked : Unlocked state am) (listUnlocked : ListUnlocked state) (sound : Sound amap) :
      Others startslot endslot state {state with amaps := update state.amaps am amap,amapList := .amap am :: state.amapList}
  | moved (out : ¬inRange startslot endslot swslot) :
      Others startslot endslot state {state with anSwslot := update state.anSwslot anon swslot}

structure Began (ams : List Nat) (state : State) : Prop where
  pc : state.pc = .test ((ams.map Node.amap).head?)
  rv : state.rv = false
  list : state.amapList = ams.map .amap
  nodup : ams.Nodup
  sound : ∀ am ∈ ams, Sound (state.amaps am)

-- Runs during which `during` holds in every state.
inductive Run (startslot endslot : Int) (guarded : Bool) (during : State → Prop) : State → State → Prop
  | start (holds : during state) : Run startslot endslot guarded during state state
  | own (run : Run startslot endslot guarded during first state) (step : Advance startslot endslot guarded state state')
      (holds : during state') : Run startslot endslot guarded during first state'
  | others (run : Run startslot endslot guarded during first state) (step : Others startslot endslot state state')
      (holds : during state') : Run startslot endslot guarded during first state'

structure Present (am slot anon : Nat) (state : State) : Prop where
  listed : .amap am ∈ state.amapList
  inside : slot < (state.amaps am).amMaxslot
  held : (state.amaps am).amAnon slot = some anon

structure Marked (list : List Node) (pre mid rest : List Nat) : Prop where
  list : list = pre.map .amap ++ .markerPrev :: (mid.map .amap ++ .markerNext :: rest.map .amap)
  nodup : (pre ++ mid ++ rest).Nodup
  one : mid.length ≤ 1

def Out (startslot endslot : Int) (anon : Nat) (state : State) : Prop := ¬inRange startslot endslot (state.anSwslot anon)
def Settled (startslot endslot : Int) (anon : Nat) (state : State) : Prop := state.rv = true ∨ Out startslot endslot anon state

def Searched (startslot endslot : Int) (am slot anon : Nat) (state : State) : Prop :=
  match state.pc with
  | .test node => ∃ pre rest : List Nat, state.amapList = (pre ++ rest).map .amap ∧ (pre ++ rest).Nodup ∧
      node = (rest.map Node.amap).head? ∧ (am ∈ pre → Settled startslot endslot anon state)
  | .preempted => ∃ pre mid rest, Marked state.amapList pre mid rest ∧ (am ∈ pre → Out startslot endslot anon state)
  | .scan cur i => ∃ pre mid rest, Marked state.amapList pre mid rest ∧ (am ∈ pre → Out startslot endslot anon state) ∧
      (∀ m ∈ mid, m = cur) ∧ (am = cur → Out startslot endslot anon state ∨ i ≤ (state.amaps cur).amBckptr slot)
  | .pagein cur _ => ∃ pre mid rest, Marked state.amapList pre mid rest ∧ (am ∈ pre → Out startslot endslot anon state) ∧
      ∀ m ∈ mid, m = cur
  | .relock cur => ∃ pre mid rest, Marked state.amapList pre mid rest ∧ (am ∈ pre → Settled startslot endslot anon state) ∧
      ∀ m ∈ mid, m = cur
  | .next => ∃ pre mid rest, Marked state.amapList pre mid rest ∧ (am ∈ pre ∨ am ∈ mid → Settled startslot endslot anon state)
  | .done => Settled startslot endslot anon state

inductive Edited : List Node → List Node → Prop
  | same : Edited list list
  | gone : Edited list (list.erase (.amap am))
  | come : .amap am ∉ list → Edited list (.amap am :: list)

structure Soundness (state : State) : Prop where
  each : ∀ am, .amap am ∈ state.amapList → Sound (state.amaps am)

variable {list list' : List Node} {pre mid rest : List Nat} {am cur slot anon i : Nat} {startslot endslot : Int} {state state' first : State}
variable {amap : Amap} {guarded : Bool}

theorem marker_not_mem (l : List Nat) : Node.markerPrev ∉ l.map Node.amap ∧ Node.markerNext ∉ l.map Node.amap := by
  constructor <;> simp

theorem amap_mem (l : List Nat) : Node.amap am ∈ l.map Node.amap ↔ am ∈ l := by simp

theorem Marked.mem (marked : Marked list pre mid rest) : .amap am ∈ list ↔ am ∈ pre ∨ am ∈ mid ∨ am ∈ rest := by
  rw [marked.list]
  simp

theorem marked_mark (nodup : (pre ++ am :: rest).Nodup) : Marked (mark (.amap am) ((pre ++ am :: rest).map .amap)) pre [am] rest where
  list := by
    have fresh : Node.amap am ∉ pre.map Node.amap := by
      rw [amap_mem]
      exact fun mem => (List.nodup_append.mp nodup).2.2 am mem am List.mem_cons_self rfl
    have apart : Node.amap am ∉ pre.map Node.amap ++ [Node.markerPrev] := by simpa using fresh
    rw [mark,List.map_append,List.map_cons,insertBefore_append _ fresh]
    have placed := insertAfter_append .markerNext (rest.map Node.amap) apart
    rw [List.append_assoc] at placed
    exact placed.trans (by simp)
  nodup := by rwa [List.append_assoc]
  one := Nat.le_refl _

theorem Marked.unmark (marked : Marked list pre mid rest) : unmark list = (pre ++ mid ++ rest).map .amap := by
  have fresh : Node.markerNext ∉ pre.map Node.amap ++ mid.map Node.amap := by simp
  rw [AmapSwap.unmark,marked.list,erase_append (marker_not_mem pre).1,← List.append_assoc,erase_append fresh,List.map_append,List.map_append]

theorem Marked.next_prev (marked : Marked list pre [] rest) : nextOf .markerPrev list = some .markerNext := by
  rw [marked.list,nextOf_append (marker_not_mem pre).1]
  rfl

theorem Marked.prev_mid (marked : Marked list pre [cur] rest) : nextOf .markerPrev list = some (.amap cur) := by
  rw [marked.list,nextOf_append (marker_not_mem pre).1]
  rfl

theorem Marked.next_next (marked : Marked list pre mid rest) : nextOf .markerNext list = (rest.map Node.amap).head? := by
  have fresh : Node.markerNext ∉ pre.map Node.amap ++ .markerPrev :: mid.map Node.amap := by simp
  have shape : list = (pre.map Node.amap ++ .markerPrev :: mid.map Node.amap) ++ .markerNext :: rest.map .amap := by
    rw [marked.list,List.append_assoc,List.cons_append]
  rw [shape,nextOf_append fresh]

theorem Marked.next_mid (marked : Marked list pre [cur] rest) : nextOf (.amap cur) list = some .markerNext := by
  have fresh : Node.amap cur ∉ pre.map Node.amap ++ [.markerPrev] := by
    have apart : cur ∉ pre := fun mem => by
      have := (List.nodup_append.mp (List.nodup_append.mp marked.nodup).1).2.2 cur mem cur List.mem_cons_self
      exact this rfl
    simpa using apart
  have shape : list = (pre.map Node.amap ++ [.markerPrev]) ++ .amap cur :: .markerNext :: rest.map .amap := by
    rw [marked.list,List.append_assoc]
    rfl
  rw [shape,nextOf_append fresh]
  rfl

theorem Marked.mid_cases (marked : Marked list pre mid rest) : mid = [] ∨ ∃ cur, mid = [cur] := by
  have one := marked.one
  match mid with
  | [] => exact .inl rfl
  | [cur] => exact .inr ⟨cur,rfl⟩
  | _ :: _ :: _ => simp at one

theorem Marked.retry (marked : Marked list pre mid rest) : retry list = some ((mid ++ rest).map Node.amap).head? := by
  rcases marked.mid_cases with rfl | ⟨cur,rfl⟩
  · rw [retry,marked.next_prev]
    rw [marked.next_next]
    rfl
  rw [retry,marked.prev_mid]
  dsimp only
  rw [marked.next_mid,if_pos rfl]
  rfl

theorem Marked.following (marked : Marked list pre mid rest) : following list = some (rest.map Node.amap).head? := by
  rcases marked.mid_cases with rfl | ⟨cur,rfl⟩
  · rw [following,marked.next_prev]
    dsimp only
    rw [if_pos (.inl rfl),marked.next_next]
  rw [following,marked.prev_mid]
  dsimp only
  rw [if_pos (.inr marked.next_mid),marked.next_next]

theorem erase_map (l : List Nat) (nodup : l.Nodup) (am : Nat) : (l.map Node.amap).erase (.amap am) = (l.erase am).map .amap := by
  induction l with
  | nil => rfl
  | cons a l ih =>
    by_cases same : a = am
    · subst same
      rw [List.map_cons,List.erase_cons_head,List.erase_cons_head]
    · rw [List.map_cons,List.erase_cons_tail (by simpa using same),ih (List.nodup_cons.mp nodup).2,List.erase_cons_tail (by simpa using same),List.map_cons]

theorem Marked.gone (marked : Marked list pre mid rest) (am : Nat) :
    ∃ pre' mid' rest', Marked (list.erase (.amap am)) pre' mid' rest' ∧ pre'.Sublist pre ∧ mid'.Sublist mid ∧ am ∉ mid' := by
  have parts := List.nodup_append.mp (List.nodup_append.mp marked.nodup).1
  have last := (List.nodup_append.mp marked.nodup).2.1
  have smaller : ∀ {pre' mid' rest' : List Nat}, pre'.Sublist pre → mid'.Sublist mid → rest'.Sublist rest →
      list.erase (.amap am) = pre'.map .amap ++ .markerPrev :: (mid'.map .amap ++ .markerNext :: rest'.map .amap) →
      Marked (list.erase (.amap am)) pre' mid' rest' := fun first second third shape =>
    ⟨shape,marked.nodup.sublist ((first.append second).append third),second.length_le.trans marked.one⟩
  rw [marked.list] at smaller ⊢
  by_cases inPre : am ∈ pre
  · refine ⟨pre.erase am,mid,rest,smaller List.erase_sublist (.refl _) (.refl _) ?_,List.erase_sublist,.refl _,fun mem => parts.2.2 am inPre am mem rfl⟩
    rw [List.erase_append_left _ (by simpa using inPre),erase_map pre parts.1]
  by_cases inMid : am ∈ mid
  · refine ⟨pre,mid.erase am,rest,smaller (.refl _) List.erase_sublist (.refl _) ?_,.refl _,List.erase_sublist,List.Nodup.not_mem_erase parts.2.1⟩
    rw [List.erase_append_right _ (by simpa using inPre),List.erase_cons_tail (by simp),List.erase_append_left _ (by simpa using inMid),
      erase_map mid parts.2.1]
  refine ⟨pre,mid,rest.erase am,smaller (.refl _) (.refl _) List.erase_sublist ?_,.refl _,.refl _,inMid⟩
  rw [List.erase_append_right _ (by simpa using inPre),List.erase_cons_tail (by simp),List.erase_append_right _ (by simpa using inMid),
    List.erase_cons_tail (by simp),erase_map rest last]

theorem Marked.edited (marked : Marked list pre mid rest) (edited : Edited list list') :
    ∃ pre' mid' rest', Marked list' pre' mid' rest' ∧ (∀ am, .amap am ∈ list → am ∈ pre' → am ∈ pre) ∧ ∀ am, am ∈ mid' → am ∈ mid := by
  cases edited with
  | same => exact ⟨pre,mid,rest,marked,fun _ _ mem => mem,fun _ mem => mem⟩
  | @gone am =>
    obtain ⟨pre',mid',rest',marked',first,second,_⟩ := marked.gone am
    exact ⟨pre',mid',rest',marked',fun _ _ mem => first.subset mem,fun _ mem => second.subset mem⟩
  | @come am fresh =>
    refine ⟨am :: pre,mid,rest,⟨by rw [marked.list]; rfl,?_,marked.one⟩,fun a listed mem => ?_,fun _ mem => mem⟩
    · rw [List.cons_append,List.cons_append,List.nodup_cons]
      refine ⟨fun mem => fresh (marked.mem.mpr ?_),marked.nodup⟩
      simpa [or_assoc] using mem
    rcases List.mem_cons.mp mem with rfl | mem
    · exact absurd listed fresh
    · exact mem

structure Elsewhere (startslot endslot : Int) (anon : Nat) (state state' : State) : Prop where
  pc : state'.pc = state.pc
  rv : state'.rv = state.rv
  edited : Edited state.amapList state'.amapList
  atTest : ¬ListUnlocked state → state'.amapList = state.amapList
  locked : ∀ am i, state.pc = .scan am i → state'.amaps am = state.amaps am
  out : Out startslot endslot anon state → Out startslot endslot anon state'

theorem Elsewhere.settled (step : Elsewhere startslot endslot anon state state') (settled : Settled startslot endslot anon state) :
    Settled startslot endslot anon state' := by
  rcases settled with error | out
  · exact .inl (step.rv.trans error)
  · exact .inr (step.out out)

theorem Searched.elsewhere (searched : Searched startslot endslot am slot anon state) (listed : .amap am ∈ state.amapList)
    (step : Elsewhere startslot endslot anon state state') : Searched startslot endslot am slot anon state' := by
  have locked := step.locked
  have atTest := step.atTest
  unfold Searched at searched ⊢
  rw [step.pc]
  cases here : state.pc with
  | test node =>
    rw [here] at searched
    obtain ⟨pre,rest,list,nodup,next,passed⟩ := searched
    have same := atTest fun unlocked => unlocked node here
    exact ⟨pre,rest,by rw [same,list],nodup,next,fun mem => step.settled (passed mem)⟩
  | preempted =>
    rw [here] at searched
    obtain ⟨pre,mid,rest,marked,passed⟩ := searched
    obtain ⟨pre',mid',rest',marked',first,_⟩ := marked.edited step.edited
    exact ⟨pre',mid',rest',marked',fun mem => step.out (passed (first am listed mem))⟩
  | scan cur i =>
    rw [here] at searched
    obtain ⟨pre,mid,rest,marked,passed,only,behind⟩ := searched
    obtain ⟨pre',mid',rest',marked',first,second⟩ := marked.edited step.edited
    refine ⟨pre',mid',rest',marked',fun mem => step.out (passed (first am listed mem)),fun m mem => only m (second m mem),fun same => ?_⟩
    rw [locked cur i here]
    exact (behind same).imp_left step.out
  | pagein cur =>
    rw [here] at searched
    obtain ⟨pre,mid,rest,marked,passed,only⟩ := searched
    obtain ⟨pre',mid',rest',marked',first,second⟩ := marked.edited step.edited
    exact ⟨pre',mid',rest',marked',fun mem => step.out (passed (first am listed mem)),fun m mem => only m (second m mem)⟩
  | relock cur =>
    rw [here] at searched
    obtain ⟨pre,mid,rest,marked,passed,only⟩ := searched
    obtain ⟨pre',mid',rest',marked',first,second⟩ := marked.edited step.edited
    exact ⟨pre',mid',rest',marked',fun mem => step.settled (passed (first am listed mem)),fun m mem => only m (second m mem)⟩
  | next =>
    rw [here] at searched
    obtain ⟨pre,mid,rest,marked,passed⟩ := searched
    obtain ⟨pre',mid',rest',marked',first,second⟩ := marked.edited step.edited
    exact ⟨pre',mid',rest',marked',fun mem => step.settled (passed (mem.imp (first am listed) (second am)))⟩
  | done =>
    rw [here] at searched
    exact step.settled searched

theorem Others.elsewhere (step : Others startslot endslot state state') (anon : Nat) : Elsewhere startslot endslot anon state state' := by
  have other : ∀ {cur : Nat} {amap : Amap}, Unlocked state cur → ∀ am i, state.pc = .scan am i →
      update state.amaps cur amap am = state.amaps am := by
    intro cur amap unlocked am i here
    refine update_of_ne ?_ _ _
    rintro rfl
    exact unlocked i here
  cases step with
  | added _ unlocked _ | unadded _ unlocked _ | referenced _ unlocked _
  | unreferenced _ unlocked _ => exact ⟨rfl,rfl,.same,fun _ => rfl,other unlocked,fun out => out⟩
  | freed _ _ listUnlocked _ => exact ⟨rfl,rfl,.gone,fun locked => absurd listUnlocked locked,fun _ _ _ => rfl,fun out => out⟩
  | listed fresh unlocked listUnlocked _ => exact ⟨rfl,rfl,.come fresh,fun locked => absurd listUnlocked locked,other unlocked,fun out => out⟩
  | moved out =>
    refine ⟨rfl,rfl,.same,fun _ => rfl,fun _ _ _ => rfl,fun before => ?_⟩
    unfold Out
    dsimp only
    rw [update_apply]
    split
    · exact out
    · exact before

theorem Soundness.set (sound : Soundness state) (sub : ∀ am, .amap am ∈ state'.amapList → am ≠ cur → .amap am ∈ state.amapList)
    (amaps : state'.amaps = update state.amaps cur amap) (made : Sound amap) : Soundness state' := by
  refine ⟨fun am listed => ?_⟩
  rw [amaps]
  by_cases same : am = cur
  · rw [same,update_self]
    exact made
  rw [update_of_ne same]
  exact sound.each am (sub am listed same)

theorem Others.sound (step : Others startslot endslot state state') (sound : Soundness state) : Soundness state' := by
  cases step with
  | added listed _ ran => exact sound.set (fun _ mem _ => mem) rfl (amapAdd_sound (sound.each _ listed) ran)
  | unadded listed _ ran => exact sound.set (fun _ mem _ => mem) rfl (amapUnadd_sound (sound.each _ listed) ran)
  | referenced listed _ ran => exact sound.set (fun _ mem _ => mem) rfl (amapRef_sound (sound.each _ listed) ran)
  | unreferenced listed _ ran => exact sound.set (fun _ mem _ => mem) rfl (amapUnref_sound (sound.each _ listed) ran)
  | freed _ _ _ _ => exact ⟨fun am listed => sound.each am (List.mem_of_mem_erase listed)⟩
  | listed _ _ _ made =>
    refine sound.set (fun am mem other => ?_) rfl made
    rcases List.mem_cons.mp mem with same | mem
    · exact absurd (Node.amap.inj same) other
    · exact mem
  | moved _ => exact ⟨sound.each⟩

theorem mem_mark (mem : .amap am ∈ mark node list) : .amap am ∈ list := by
  rcases mem_insertAfter mem with new | mem
  · cases new
  rcases mem_insertBefore mem with new | mem
  · cases new
  · exact mem

theorem mem_unmark (mem : .amap am ∈ unmark list) : .amap am ∈ list := List.mem_of_mem_erase (List.mem_of_mem_erase mem)

theorem Advance.sound (step : Advance startslot endslot guarded state state') (sound : Soundness state) : Soundness state' := by
  have flagged : ∀ {cur : Nat} {flag : Bool} {list : List Node} (am : Nat), (.amap am ∈ list → .amap am ∈ state.amapList) → .amap am ∈ list →
      Sound (setSwapoff state cur flag am) := by
    intro cur flag list am sub listed
    have made := sound.each am (sub listed)
    rw [setSwapoff,update_apply]
    split
    · next same => subst same; exact ⟨made.fits,made.indexed⟩
    · exact made
  cases step with
  | stop _ _ => exact ⟨sound.each⟩
  | busy _ _ | locked _ _ => exact ⟨fun am listed => sound.each am (mem_mark listed)⟩
  | retried _ _ | left _ _ => exact ⟨fun am listed => sound.each am (mem_unmark listed)⟩
  | passed _ _ _ _ => exact ⟨sound.each⟩
  | swapped _ _ _ _ | broke _ _ _ | restarted _ _ _ _ => exact ⟨fun am listed => flagged am (fun mem => mem) listed⟩
  | scanned _ _ => exact ⟨sound.each⟩
  | pagedIn _ => exact ⟨sound.each⟩
  | failed _ => exact ⟨sound.each⟩
  | wipedOut _ _ _ => exact ⟨fun am listed => flagged am List.mem_of_mem_erase listed⟩

theorem Present.index (present : Present am slot anon state) (sound : Soundness state) :
    (state.amaps am).amBckptr slot < (state.amaps am).amNused ∧
      anonAt (state.amaps am) ((state.amaps am).amBckptr slot) = some anon := by
  have live : Live (state.amaps am) slot := ⟨present.inside,by rw [present.held]; simp⟩
  obtain ⟨placed,back,_⟩ := (sound.each am present.listed).indexed.place live
  refine ⟨placed,?_⟩
  rw [anonAt,back,present.held]

theorem head_map {node : Node} (head : some node = (rest.map Node.amap).head?) : ∃ cur rest', rest = cur :: rest' ∧ node = .amap cur := by
  cases rest with
  | nil => cases head
  | cons cur rest =>
    cases head
    exact ⟨cur,rest,rfl,rfl⟩

theorem Searched.advance (searched : Searched startslot endslot am slot anon state) (range : 0 < startslot)
    (present : Present am slot anon state) (sound : Soundness state) (step : Advance startslot endslot true state state') :
    Searched startslot endslot am slot anon state' := by
  obtain ⟨used,there⟩ := present.index sound
  have settle : state.rv = false → Settled startslot endslot anon state → Out startslot endslot anon state := by
    rintro more (error | out)
    · rw [more] at error
      cases error
    · exact out
  unfold Searched at searched
  cases step with
  | stop at_ beyond =>
    rw [at_] at searched
    obtain ⟨pre,rest,list,_,next,passed⟩ := searched
    rcases beyond with ends | error
    · have listed := present.listed
      rw [ends] at next
      have none_ : rest = [] := by simpa using next.symm
      rw [list,none_,List.append_nil,amap_mem] at listed
      exact passed listed
    · exact .inl error
  | busy at_ more =>
    rw [at_] at searched
    obtain ⟨pre,rest,list,nodup,next,passed⟩ := searched
    obtain ⟨cur,rest,rfl,rfl⟩ := head_map next
    have marked := marked_mark nodup
    rw [← list] at marked
    exact ⟨pre,[cur],rest,marked,fun mem => settle more (passed mem)⟩
  | @locked _ cur at_ more =>
    rw [at_] at searched
    obtain ⟨pre,rest,list,nodup,next,passed⟩ := searched
    obtain ⟨other,rest,rfl,same⟩ := head_map next
    cases same
    have marked := marked_mark nodup
    rw [← list] at marked
    unfold Searched
    split_ifs with empty
    · refine ⟨pre,[cur],rest,marked,?_⟩
      rintro (mem | mem)
      · exact passed mem
      rw [List.mem_singleton] at mem
      subst mem
      omega
    · exact ⟨pre,[cur],rest,marked,fun mem => settle more (passed mem),fun m mem => List.mem_singleton.mp mem,fun _ => .inr (Nat.zero_le _)⟩
  | retried at_ found =>
    rw [at_] at searched
    obtain ⟨pre,mid,rest,marked,passed⟩ := searched
    rw [marked.retry] at found
    refine ⟨pre,mid ++ rest,?_,?_,(Option.some.inj found).symm,fun mem => .inr (passed mem)⟩
    · rw [← List.append_assoc]
      exact marked.unmark
    rw [← List.append_assoc]
    exact marked.nodup
  | passed at_ more found out =>
    rw [at_] at searched
    obtain ⟨pre,mid,rest,marked,passed,only,behind⟩ := searched
    refine ⟨pre,mid,rest,marked,passed,only,fun same => ?_⟩
    rcases behind same with done | later
    · exact .inl done
    subst same
    rcases Nat.eq_or_lt_of_le later with here | later
    · rw [← here,found] at there
      cases there
      exact .inl out
    · exact .inr later
  | swapped at_ _ _ _ =>
    rw [at_] at searched
    obtain ⟨pre,mid,rest,marked,passed,only,_⟩ := searched
    exact ⟨pre,mid,rest,marked,passed,only⟩
  | scanned at_ all =>
    rw [at_] at searched
    obtain ⟨pre,mid,rest,marked,passed,only,behind⟩ := searched
    refine ⟨pre,mid,rest,marked,?_⟩
    rintro (mem | mem)
    · exact .inr (passed mem)
    have same := only am mem
    subst same
    exact .inr ((behind rfl).resolve_right (by omega))
  | pagedIn at_ =>
    rw [at_] at searched
    obtain ⟨pre,mid,rest,marked,passed,only⟩ := searched
    refine ⟨pre,mid,rest,marked,fun mem => .inr ?_,only⟩
    have before := passed mem
    unfold Out inRange at before ⊢
    dsimp only
    rw [update_apply]
    split
    · omega
    · exact before
  | failed at_ =>
    rw [at_] at searched
    obtain ⟨pre,mid,rest,marked,_,only⟩ := searched
    exact ⟨pre,mid,rest,marked,fun _ => .inl rfl,only⟩
  | wipedOut at_ unused ran =>
    rw [at_] at searched
    obtain ⟨pre,mid,rest,marked,passed,only⟩ := searched
    obtain ⟨pre',mid',rest',marked',first,second,gone⟩ := marked.gone _
    refine ⟨pre',mid',rest',marked',?_⟩
    rintro (mem | mem)
    · exact passed (first.subset mem)
    rw [only am (second.subset mem)] at mem
    exact absurd mem gone
  | broke at_ used error =>
    rw [at_] at searched
    obtain ⟨pre,mid,rest,marked,_,_⟩ := searched
    exact ⟨pre,mid,rest,marked,fun _ => .inl error⟩
  | restarted at_ _ more covered =>
    rw [at_] at searched
    obtain ⟨pre,mid,rest,marked,passed,only⟩ := searched
    refine ⟨pre,mid,rest,marked,fun mem => settle more (passed mem),only,fun same => ?_⟩
    subst same
    have index : (setSwapoff state am false am).amBckptr = (state.amaps am).amBckptr := by rw [setSwapoff,update_self]
    rw [index]
    by_cases first : (state.amaps am).amBckptr slot = 0
    · rw [first] at there
      exact .inl (covered rfl (by omega) anon there)
    · exact .inr (by omega)
  | left at_ found =>
    rw [at_] at searched
    obtain ⟨pre,mid,rest,marked,passed⟩ := searched
    rw [marked.following] at found
    exact ⟨pre ++ mid,rest,marked.unmark,marked.nodup,(Option.some.inj found).symm,fun mem => passed (List.mem_append.mp mem)⟩

theorem Run.kept {during : State → Prop} (run : Run startslot endslot guarded during first state) : during first ∧ during state := by
  induction run with
  | start holds => exact ⟨holds,holds⟩
  | own _ _ holds ih => exact ⟨ih.1,holds⟩
  | others _ _ holds ih => exact ⟨ih.1,holds⟩

theorem Began.soundness {ams : List Nat} (began : Began ams first) : Soundness first := by
  refine ⟨fun am listed => began.sound am ?_⟩
  rwa [began.list,amap_mem] at listed

theorem Run.searched {ams : List Nat} (range : 0 < startslot) (began : Began ams first)
    (run : Run startslot endslot true (Present am slot anon) first state) :
    Soundness state ∧ Searched startslot endslot am slot anon state := by
  induction run with
  | start _ =>
    refine ⟨began.soundness,?_⟩
    unfold Searched
    rw [began.pc]
    exact ⟨[],ams,began.list,began.nodup,rfl,fun mem => by cases mem⟩
  | own run step _ ih =>
    obtain ⟨sound,searched⟩ := ih
    exact ⟨step.sound sound,searched.advance range run.kept.2 sound step⟩
  | others run step _ ih =>
    obtain ⟨sound,searched⟩ := ih
    exact ⟨step.sound sound,searched.elsewhere run.kept.2.listed (step.elsewhere anon)⟩

-- Where the anon listed first is covered at each restart of a scan: no anon that stays
-- in its slot is passed over.
theorem swap_off_complete {ams : List Nat} (range : 0 < startslot) (began : Began ams first)
    (run : Run startslot endslot true (Present am slot anon) first state) (returned : state.pc = .done) (done : state.rv = false) :
    state.anSwslot anon < startslot ∨ endslot ≤ state.anSwslot anon := by
  have searched := (run.searched range began).2
  unfold Searched at searched
  rw [returned] at searched
  rcases searched with error | out
  · rw [done] at error
    cases error
  · exact not_not.mp out

def heldFirst (used : Nat) : Amap where
  amRef := 1
  amShared := false
  amSwapoff := false
  amMaxslot := 4
  amNslot := 4
  amNused := used
  amSlots := fun i => i
  amBckptr := fun s => s
  amAnon := fun s => if s < used then some s else none
  amPpref := .absent

theorem heldFirst_live (bound : used ≤ 4) (s : Nat) : Live (heldFirst used) s ↔ s < used := by
  unfold Live heldFirst
  by_cases low : s < used
  · simp only [if_pos low,low]
    exact ⟨fun _ => trivial,fun _ => ⟨by omega,by simp⟩⟩
  · simp [low]

theorem heldFirst_sound (bound : used ≤ 4) : Sound (heldFirst used) where
  fits := Nat.le_refl 4
  indexed := {
    inside := fun i lt => Nat.lt_of_lt_of_le lt bound
    held := fun i lt => (heldFirst_live bound i).mpr lt
    back := fun _ _ => rfl
    listed := fun s live => ⟨s,(heldFirst_live bound s).mp live,rfl⟩ }

theorem swap_off_complete_one : ∃ first state : State, Began [0] first ∧ inRange 1 9 (first.anSwslot 0) ∧
    Run 1 9 true (Present 0 0 0) first state ∧ state.pc = .done ∧ (state.anSwslot 0 < 1 ∨ 9 ≤ state.anSwslot 0) := by
  let first : State := ⟨.test (some (.amap 0)),false,[.amap 0],fun _ => heldFirst 1,⟨fun _ => 1,[]⟩,fun _ => 5⟩
  have began : Began [0] first := ⟨rfl,rfl,rfl,by decide,fun _ _ => heldFirst_sound (by decide)⟩
  have begun : Run 1 9 true (Present 0 0 0) first _ := .start ⟨by decide,by decide,rfl⟩
  have locked := Run.own begun (.locked rfl rfl) ⟨by decide,by decide,rfl⟩
  have found := Run.own locked (.swapped rfl (by decide) rfl (show inRange 1 9 5 by unfold inRange; decide)) ⟨by decide,by decide,rfl⟩
  have paged := Run.own found (.pagedIn rfl) ⟨by decide,by decide,rfl⟩
  have restarted := Run.own paged (.restarted rfl (by decide) rfl fun _ _ anon held => by
    cases held
    unfold inRange
    decide) ⟨by decide,by decide,rfl⟩
  have scanned := Run.own restarted (.scanned rfl (by decide)) ⟨by decide,by decide,rfl⟩
  have left := Run.own scanned (.left rfl rfl) ⟨by decide,by decide,rfl⟩
  have stopped := Run.own left (.stop rfl (.inl rfl)) ⟨by decide,by decide,rfl⟩
  exact ⟨first,_,began,show inRange 1 9 5 by unfold inRange; decide,stopped,rfl,swap_off_complete (by decide) began stopped rfl rfl⟩

-- While the anon of slot 0 is paged in, it is removed from the amap, and slot 2 is
-- listed first. Its anon is never looked at.
theorem swap_off_passes_over : ∃ first state : State, Began [0] first ∧ Run 1 9 false (Present 0 2 2) first state ∧
    state.pc = .done ∧ state.rv = false ∧ inRange 1 9 (state.anSwslot 2) := by
  let first : State := ⟨.test (some (.amap 0)),false,[.amap 0],fun _ => heldFirst 3,⟨fun _ => 1,[]⟩,fun anon => if anon = 1 then 0 else 5⟩
  have began : Began [0] first := ⟨rfl,rfl,rfl,by decide,fun _ _ => heldFirst_sound (by decide)⟩
  have begun : Run 1 9 false (Present 0 2 2) first _ := .start ⟨by decide,by decide,rfl⟩
  have locked := Run.own begun (.locked rfl rfl) ⟨by decide,by decide,rfl⟩
  have found := Run.own locked (.swapped rfl (by decide) rfl (show inRange 1 9 5 by unfold inRange; decide)) ⟨by decide,by decide,rfl⟩
  have removed := Run.others found (.unadded (show Node.amap 0 ∈ _ by decide) (fun i here => by cases here) (show amapUnadd _ 0 = .ok _ from rfl)) ⟨by decide,by decide,rfl⟩
  have paged := Run.own removed (.pagedIn rfl) ⟨by decide,by decide,rfl⟩
  have restarted := Run.own paged (.restarted rfl (by decide) rfl fun no => by cases no) ⟨by decide,by decide,rfl⟩
  have passed := Run.own restarted (.passed rfl (by decide) rfl (show ¬inRange 1 9 0 by unfold inRange; decide)) ⟨by decide,by decide,rfl⟩
  have scanned := Run.own passed (.scanned rfl (by decide)) ⟨by decide,by decide,rfl⟩
  have left := Run.own scanned (.left rfl rfl) ⟨by decide,by decide,rfl⟩
  have stopped := Run.own left (.stop rfl (.inl rfl)) ⟨by decide,by decide,rfl⟩
  refine ⟨first,_,began,stopped,rfl,rfl,?_⟩
  unfold inRange
  decide
end NetbsdAvr32.AmapSwap
