import NetbsdAvr32.LockfStep

-- A file's list of locks as a map from owners and bytes to lock types.
namespace NetbsdAvr32.Lockf
open Function Linked Outcome List Lockf Option Nat

def lockPtrs (s : State) (f : Nat) : List Ptr := walkSlots s.lfNext (s.nextLockf + 1) (.head f)
def lockList (s : State) (f : Nat) : List Lock := (lockPtrs s f).filterMap s.lockf
abbrev LockMap := Owner → Nat → Option LockType

def lockMap (s : State) (f : Nat) : LockMap :=
  fun o x => ((lockList s f).find? (fun l => decide (l.lfId = o ∧ l.Covers x))).map Lock.lfType

variable {c : Procs} {s s' : State} {v v' : View} {mine : List Ptr} {f g t uid : Nat} {k : Ptr} {l u : Lock} {e : Entry}
  {es es' : List Entry} {sp sp' : Option Ptr} {ws : List Ptr} {ap : Args} {start fin : Int} {o : Owner} {x : Nat} {type : LockType}

theorem Rep.lockPtrs (rep : Rep s v) (f : Nat) : lockPtrs s f = ptrs (v.held f) := by
  have short := rep.length (f := f)
  exact (rep.chain f).walk (by omega)

theorem Rep.lockList (rep : Rep s v) (f : Nat) : lockList s f = (v.held f).map Prod.snd := by
  have all : ∀ es : List Entry, (∀ e ∈ es, s.lockf e.1 = some e.2) → (ptrs es).filterMap s.lockf = es.map Prod.snd := by
    intro es
    induction es with
    | nil => intro _; rfl
    | cons e es ih =>
      intro live
      rw [ptrs_cons,filterMap_cons,live e (by simp),ih (fun e member => live e (by simp [member]))]
      rfl
  rw [Lockf.lockList,rep.lockPtrs]
  exact all _ (rep.live f)

theorem Sound.lockMap (sound : Sound c s v mine) : lockMap s f o x = some type ↔ Holds (v.held f) o x type := by
  unfold Lockf.lockMap
  rw [sound.rep.lockList,find?_map,Option.map_map]
  simp only [map_eq_some_iff,Function.comp]
  constructor
  · rintro ⟨e,found,kind⟩
    have here := find?_some found
    simp only [Function.comp,decide_eq_true_eq] at here
    exact ⟨e,mem_of_find?_eq_some found,here.1,here.2,kind⟩
  rintro ⟨e,member,own,here,kind⟩
  have found : ((v.held f).find? (fun e => decide (e.2.lfId = o ∧ e.2.Covers x))).isSome := by
    rw [find?_isSome]
    exact ⟨e,member,by simp [own,here]⟩
  obtain ⟨e',found⟩ := isSome_iff_exists.mp found
  have there := find?_some found
  simp only [decide_eq_true_eq] at there
  have same := sorted_unique (sound.sorted f) (mem_of_find?_eq_some found) member (there.1.trans own.symm) there.2 here
  exact ⟨e',found,same ▸ kind⟩

theorem Sound.mapEq (sound : Sound c s v mine) (sound' : Sound c s' v' [])
    (same : ∀ o x type, Holds (v'.held g) o x type ↔ Holds (v.held g) o x type) : Lockf.lockMap s' g = Lockf.lockMap s g := by
  funext o x
  refine ext fun type => ?_
  rw [sound'.lockMap,sound.lockMap]
  exact same o x type

def InRange (start fin : Int) (x : Nat) : Prop := start ≤ x ∧ (fin = -1 ∨ (x : Int) ≤ fin)
instance (start fin : Int) (x : Nat) : Decidable (InRange start fin x) := inferInstanceAs (Decidable (_ ∧ _))

-- What a request that is carried out makes of its file's map.
def Args.applied (ap : Args) (start fin : Int) (m : LockMap) : LockMap :=
  fun o x => if o = ap.aId ∧ InRange start fin x then
      (match ap.aOp with
        | .setlk => some ap.aFl.lType
        | .unlck => none
        | _ => m o x)
    else m o x

-- Another owner holds a conflicting type on a byte of the range.
def Args.Conflicting (ap : Args) (start fin : Int) (m : LockMap) : Prop :=
  ∃ o x type, o ≠ ap.aId ∧ InRange start fin x ∧ m o x = some type ∧ (ap.aFl.lType = .wrlck ∨ type = .wrlck)

-- The answer to a request and its effect on the maps.
structure Answers (ap : Args) (uid : Nat) (start fin : Int) (s s' : State) (error : Option Errno) : Prop where
  enomem : error = some .enomem ↔ OverLimit ap uid start fin s
  eagain : error = some .eagain ↔ ¬ OverLimit ap uid start fin s ∧ ap.aOp = .setlk ∧ ap.Conflicting start fin (lockMap s ap.head)
  granted : error = none ∨ error = some .enomem ∨ error = some .eagain
  effect : ∀ g, lockMap s' g = if error = none ∧ g = ap.head then ap.applied start fin (lockMap s g) else lockMap s g

-- Each owner's locks are disjoint and in increasing order, and no two owners
-- hold conflicting types on one byte.
structure Consistent (l : List Lock) (m : LockMap) : Prop where
  ordered : l.Pairwise fun a b => a.lfId = b.lfId → a.lfEnd ≠ -1 ∧ a.lfEnd < b.lfStart
  compatible : ∀ o o' x, o ≠ o' → m o x = some .wrlck → m o' x = none

theorem Sound.consistent (sound : Sound c s v mine) (f : Nat) : Consistent (Lockf.lockList s f) (Lockf.lockMap s f) := by
  constructor
  · rw [sound.rep.lockList]
    exact pairwise_map.mpr (sound.sorted f)
  intro o o' x apart writes
  obtain ⟨e,member,own,here,kind⟩ := sound.lockMap.mp writes
  cases other : Lockf.lockMap s f o' x with
  | none => rfl
  | some type =>
    obtain ⟨e',member',own',here',_⟩ := sound.lockMap.mp other
    have ranged := (sound.proper f e member).1.shaped.ranged
    have ranged' := (sound.proper f e' member').1.shaped.ranged
    refine absurd ⟨?_,.inl kind⟩ (sound.free f e member e' member' (by rw [own,own']; exact apart))
    intro away
    exact (apart_covers ranged ranged').mp away x here here'

theorem blocks_conflicting (uid : Nat) (sound : Sound c s v mine) (range : Ranged (ap.lock start fin uid)) :
    (∃ e ∈ v.held f, Blocks (ap.lock start fin uid) e) ↔ ap.Conflicting start fin (lockMap s f) := by
  constructor
  · rintro ⟨e,member,other,meets,kinds⟩
    have ranged := (sound.proper f e member).1.shaped.ranged
    rw [apart_covers range ranged] at meets
    push Not at meets
    obtain ⟨x,here,there⟩ := meets
    exact ⟨e.2.lfId,x,e.2.lfType,other,here,sound.lockMap.mpr ⟨e,member,rfl,there,rfl⟩,kinds⟩
  rintro ⟨o,x,type,other,here,held,kinds⟩
  obtain ⟨e,member,own,there,kind⟩ := sound.lockMap.mp held
  have ranged := (sound.proper f e member).1.shaped.ranged
  refine ⟨e,member,own ▸ other,?_,kind ▸ kinds⟩
  intro away
  exact (apart_covers range ranged).mp away x here there

theorem map_edit (sound : Sound c s v []) (sound' : Sound c s' (v.edit f es' ws) []) (m : Nat → LockMap)
    (here : ∀ o x type, Holds es' o x type ↔ m f o x = some type) (g : Nat) :
    lockMap s' g = if g = f then m g else lockMap s g := by
  by_cases mine : g = f
  · subst g
    rw [if_pos rfl]
    funext o x
    refine ext fun type => ?_
    rw [sound'.lockMap,edit_held]
    exact here o x type
  rw [if_neg mine]
  refine sound.mapEq sound' ?_
  rw [edit_other v es' ws mine]
  exact fun _ _ _ => Iff.rfl

theorem applied_none {m : LockMap} (op : ap.aOp ≠ .setlk ∧ ap.aOp ≠ .unlck) : ap.applied start fin m = m := by
  funext o x
  unfold Args.applied
  split
  · cases kind : ap.aOp with
    | setlk => exact absurd kind op.1
    | unlck => exact absurd kind op.2
    | getlk => rfl
    | other => rfl
  · rfl

theorem Sound.answers {reply : Option Errno} (sound : Sound c s v []) (sound' : Sound c s' v' []) (calls : Calls c t ap) (known : ap.aOp ≠ .other)
    (range : flockRange ap.aFl ap.size = .ok (some (start,fin))) (wait : ap.aOp = .setlk → ap.aFlags.wait = false)
    (advised : Advised c s v t uid ap (.returned reply) v') : Answers ap uid start fin s s' reply := by
  have ranged : ∀ f, ∀ e ∈ v.held f, Ranged e.2 := fun f e member => (sound.proper f e member).1.shaped.ranged
  have shape := (calls.shaped range uid).ranged
  have unchanged : ∀ {v' : View}, Sound c s' v' [] → v' = v → ∀ g, Lockf.lockMap s' g = Lockf.lockMap s g := by
    rintro v' sound' rfl g
    exact sound.mapEq sound' (fun _ _ _ => Iff.rfl)
  generalize told : (Reply.returned reply) = r at advised
  cases advised with
  | invalid bad =>
    rcases bad with bad | bad
    · rw [range] at bad
      cases bad
    · exact absurd bad known
  | full start' fin' range' excess =>
    cases told
    rw [range] at range'
    cases range'
    refine ⟨by simp [excess],by simp [excess],by simp,?_⟩
    intro g
    exact unchanged sound' rfl g
  | tested start' fin' range' op =>
    cases told
    rw [range] at range'
    cases range'
    have room : ¬ OverLimit ap uid start fin s := by
      rintro ⟨_,⟨set,_⟩ | ⟨un,_⟩⟩
      · rw [op] at set; cases set
      · rw [op] at un; cases un
    refine ⟨by simp [room],by simp [op],by simp,?_⟩
    intro g
    rw [applied_none (by simp [op]),ite_self]
    exact unchanged sound' rfl g
  | unlocked start' fin' range' op room es' ws sp sp' clears =>
    cases told
    rw [range] at range'
    cases range'
    refine ⟨by simp [room],by simp [op],by simp,?_⟩
    intro g
    simp only [true_and]
    refine map_edit sound sound' (fun g => ap.applied start fin (Lockf.lockMap s g)) ?_ g
    intro o x type
    rw [clears_holds clears (ranged _) shape (sound.sorted _),← sound.lockMap]
    unfold Args.applied
    rw [op]
    split_ifs with inside
    · exact ⟨fun both => absurd inside both.2,fun gone => by cases gone⟩
    · exact ⟨And.left,fun held => ⟨held,inside⟩⟩
  | set start' fin' range' op room s₁ s₂ v' k sp r running settled =>
    rw [range] at range'
    cases range'
    have conflicting := blocks_conflicting (f := ap.head) uid sound shape
    cases settled with
    | granted sp' s₂ es' ws found grants =>
      cases told
      have calm : ¬ ap.Conflicting start fin (Lockf.lockMap s ap.head) := by
        intro bad
        obtain ⟨e,member,blocks⟩ := conflicting.mpr bad
        exact blocker_none.mp found e member blocks
      refine ⟨by simp [room],by simp [calm],by simp,?_⟩
      intro g
      simp only [true_and]
      refine map_edit sound sound' (fun g => ap.applied start fin (Lockf.lockMap s g)) ?_ g
      intro o x type
      have placed := grants_placed grants (ranged _) shape (sound.sorted _) rfl
      rw [placed_holds placed (ranged _) shape (sound.sorted _),← sound.lockMap]
      unfold Args.applied
      rw [op]
      split_ifs with inside
      · constructor
        · rintro (⟨_,_,kind⟩ | ⟨_,off⟩)
          · exact congrArg some kind.symm
          · exact absurd inside off
        intro kind
        exact .inl ⟨inside.1,inside.2,(some.inj kind).symm⟩
      constructor
      · rintro (⟨own,covers,_⟩ | ⟨held,_⟩)
        · exact absurd ⟨own,covers⟩ inside
        · exact held
      · exact fun held => .inr ⟨held,inside⟩
    | refused e found wait' =>
      cases told
      have clash := conflicting.mp ⟨e,(blocker_some found).1,(blocker_some found).2⟩
      refine ⟨by simp [room],by simp [room,op,clash],by simp,?_⟩
      intro g
      exact unchanged sound' rfl g
    | deadlock e found wait' =>
      have never := wait op
      rw [show (ap.lock start fin uid).lfFlags.wait = ap.aFlags.wait from rfl,never] at wait'
      cases wait'
    | asleep => cases told

theorem advised_returned {r : Reply} (wait : ap.aOp = .setlk → ap.aFlags.wait = false) (advised : Advised c s v t uid ap r v') :
    ∃ error, r = .returned error := by
  cases advised with
  | invalid => exact ⟨_,rfl⟩
  | full => exact ⟨_,rfl⟩
  | tested => exact ⟨_,rfl⟩
  | unlocked => exact ⟨_,rfl⟩
  | set start fin range op room s₁ s₂ v' k sp r running settled =>
    cases settled with
    | granted => exact ⟨_,rfl⟩
    | refused => exact ⟨_,rfl⟩
    | deadlock => exact ⟨_,rfl⟩
    | asleep s₁ v₁ left right e found wait' =>
      have never := wait op
      rw [show (ap.lock start fin uid).lfFlags.wait = ap.aFlags.wait from rfl,never] at wait'
      cases wait'

-- In every state of every run the lists are those of a map, and every request
-- that does not wait is answered and carried out as the map says.
theorem record_locks_refine (reached : Reached c s) :
    (∀ f, Consistent (lockList s f) (lockMap s f)) ∧
    ∀ t uid ap start fin, s.frames t = none → Calls c t ap → ap.aOp ≠ .other → (ap.aOp = .setlk → ap.aFlags.wait = false) →
      flockRange ap.aFl ap.size = .ok (some (start,fin)) →
      ∃ error s', step c s (.advlock t uid ap) = .ok (some (.returned error),s') ∧ Answers ap uid start fin s s' error := by
  obtain ⟨v,sound⟩ := reached_sound reached
  refine ⟨sound.consistent,?_⟩
  intro t uid ap start fin idle calls known wait range
  obtain ⟨reply,s',v',ran,sound',stepped⟩ := step_spec sound (.advlock t uid ap idle calls) ⟨_,range⟩
  cases stepped with
  | advlock t uid ap reply v' advised =>
    obtain ⟨error,rfl⟩ := advised_returned wait advised
    exact ⟨error,s',ran,sound.answers sound' calls known range wait advised⟩

def singles : Procs where
  pLwps := fun p => [p]
  proc := fun t => t
  member := fun t => List.mem_singleton.mpr rfl
  only := fun p t member => List.mem_singleton.mp member
  some := fun p => List.cons_ne_nil p []

def whole (type : LockType) (x : Nat) : Args :=
  ⟨.setlk,⟨0,0,0,type,.seekSet⟩,⟨false,false,true⟩,.file x,0,0⟩

theorem whole_calls (type : LockType) (known : type ≠ .unlck) (x : Nat) : Calls singles 0 (whole type x) :=
  .flock x rfl rfl rfl ⟨rfl,rfl,rfl⟩ (fun _ => known)

theorem whole_range (type : LockType) (x : Nat) : flockRange (whole type x).aFl 0 = .ok (some (0,-1)) := flockRange_whole ⟨rfl,rfl,rfl⟩

theorem record_locks_refine_first : ∃ error s', step singles initial (.advlock 0 1 (whole .wrlck 7)) = .ok (some (.returned error),s') ∧
    Answers (whole .wrlck 7) 1 0 (-1) initial s' error :=
  (record_locks_refine .initial).2 0 1 (whole .wrlck 7) 0 (-1) rfl (whole_calls _ (by decide) 7) (by decide) (fun _ => rfl) (whole_range _ _)

def reader (x : Nat) : Lock := ⟨⟨false,false,true⟩,.rdlck,0,-1,.file x,0,[],1⟩

def readers (n : Nat) : State where
  lockf := fun p => if p < n then some (reader p) else none
  lfNext := fun slot => match slot with
    | .head f => if f = 0 ∧ 0 < n then some 0 else none
    | .next p => if p + 1 < n then some (p + 1) else none
  nextLockf := n
  uiLockcnt := fun uid => if uid = 1 then n else 0
  wchan := fun _ => none
  frames := fun _ => none

theorem readers_zero : readers 0 = initial := by
  unfold readers initial
  congr 1
  · funext slot
    cases slot <;> simp
  funext uid
  simp

theorem readers_head (n f : Nat) : (readers n).lfNext (.head f) = if f = 0 ∧ 0 < n then some 0 else none := rfl
theorem readers_next (n p : Nat) : (readers n).lfNext (.next p) = if p + 1 < n then some (p + 1) else none := rfl

theorem readers_chain (n : Nat) : Chain (readers n).lfNext (.head 0) (range n) := by
  have links : ∀ k m, k + m = n → Chain (readers n).lfNext (if k = 0 then .head 0 else .next (k - 1)) (range' k m) := by
    intro k m
    induction m generalizing k with
    | zero =>
      intro whole
      refine chain_nil.mpr ?_
      split_ifs with zero
      · rw [readers_head,if_neg (by omega)]
      · rw [readers_next,if_neg (by omega)]
    | succ m ih =>
      intro whole
      refine chain_cons.mpr ⟨?_,?_⟩
      · by_cases zero : k = 0
        · rw [if_pos zero,zero,readers_head,if_pos ⟨rfl,by omega⟩]
        have next : k - 1 + 1 = k := by omega
        rw [if_neg zero,readers_next,next,if_pos (by omega)]
      have rest := ih (k + 1) (by omega)
      exact rest
  have all := links 0 n (by omega)
  rwa [if_pos rfl,← range_eq_range'] at all

theorem readers_held {v : View} (rep : Rep (readers n) v) : v.held 0 = (range n).map fun p => (p,reader p) := by
  have slots := (rep.chain 0).unique (readers_chain n)
  have same : ∀ es : List Entry, (∀ e ∈ es, (readers n).lockf e.1 = some e.2) → es = (ptrs es).map fun p => (p,reader p) := by
    intro es
    induction es with
    | nil => intro _; rfl
    | cons e es ih =>
      intro live
      have here := live e (by simp)
      have value : e.2 = reader e.1 := by
        simp only [readers] at here
        split at here
        · exact (some.inj here).symm
        · cases here
      rw [ptrs_cons,map_cons,← ih (fun e member => live e (by simp [member])),← value]
  rw [same _ (rep.live 0),slots]

theorem setLoop_last (sp : Option Ptr) (rep : Rep s v) (live : s.lockf k = some u) (ranged : ∀ e ∈ v.held f, Ranged e.2) (range : Ranged u)
    (others : ∀ e ∈ v.held f, e.2.lfId ≠ u.lfId) (n : Nat) : setLoop k (n + 1) true (s.lfNext (.head f)) (.head f) sp s =
      .ok (sp,{s with lfNext := update (update s.lfNext (lastSlot (.head f) (ptrs (v.held f))) (some k)) (.next k) none}) := by
  have whole : v.held f = [] ++ v.held f := rfl
  obtain ⟨skipped,rest,c,split,passed,stops,found⟩ := findoverlap_self rep whole ranged range _ (rep.short whole)
  simp only [ptrs_nil,lastSlot_nil,nil_append] at found
  rw [(rep.chain f).first,setLoop,get_live live,ok_bind,found,ok_bind]
  have member : ∀ e ∈ rest, e ∈ v.held f := fun e here => by rw [split]; simp [here]
  cases stops with
  | past e rest own | overlap c e rest own => exact absurd own (others e (member e (by simp)))
  | finished =>
    rw [append_nil] at split
    rw [← split]
    dsimp only
    have file : v.held f = v.held f ++ [] := (append_nil _).symm
    rw [if_pos rfl,rep.store file,ok_bind]
    rfl

theorem readers_slot (n : Nat) : lastSlot (.head 0) (ptrs ((range n).map fun p => (p,reader p))) =
    (if n = 0 then .head 0 else .next (n - 1) : LockfSlot) := by
  cases n with
  | zero => rfl
  | succ n => simp [range_succ]

theorem readers_append (n : Nat) (room : n < 1024) :
    {(((readers n).alloc 1).set n (reader n)).link n none with
      lfNext := update (update ((((readers n).alloc 1).set n (reader n)).link n none).lfNext
        (lastSlot (.head 0) (ptrs ((range n).map fun p => (p,reader p)))) (some n)) (.next n) none} = readers (n + 1) := by
  rw [readers_slot]
  have lockf : update (update (readers n).lockf n (some (rawLock 1))) n (some (reader n)) = (readers (n + 1)).lockf := by
    funext p
    rw [update_idem,update_apply]
    by_cases last : p = n
    · simp [readers,last]
    have low : p < n + 1 ↔ p < n := Nat.lt_succ_iff_lt_or_eq.trans (or_iff_left last)
    rw [if_neg last]
    simp only [readers,low]
  have count : update (readers n).uiLockcnt 1 (ulong ((readers n).uiLockcnt 1 + 1)) = (readers (n + 1)).uiLockcnt := by
    funext uid
    by_cases mine : uid = 1
    · subst uid
      exact mod_eq_of_lt (show n + 1 < 2 ^ 32 by omega)
    · simp [readers,mine]
  have links : update (update (update (readers n).lfNext (.next n) none) (if n = 0 then .head 0 else .next (n - 1)) (some n)) (.next n) none =
      (readers (n + 1)).lfNext := by
    funext slot
    cases slot with
    | head f => cases n <;> simp [readers,update_apply]
    | next p =>
      by_cases last : p = n
      · simp [readers,last]
      by_cases before : p + 1 = n
      · simp [readers,← before]
      have low : p + 1 < n + 1 ↔ p + 1 < n := Nat.lt_succ_iff_lt_or_eq.trans (or_iff_left before)
      cases n with
      | zero => simp [readers,update_apply]
      | succ n =>
        have other : p ≠ n := fun same => before (congrArg _ same)
        rw [update_of_ne (by simpa using last),if_neg (succ_ne_zero n),update_of_ne (by simpa using other),update_of_ne (by simpa using last)]
        simp only [readers,low]
  unfold State.link State.set State.alloc
  rw [show (readers n).nextLockf = n from rfl,lockf,count,links]
  rfl

theorem readers_grow (n : Nat) (room : n < 1024) (reached : Reached singles (readers n)) :
    step singles (readers n) (.advlock 0 1 (whole .rdlck n)) = .ok (some (.returned none),readers (n + 1)) := by
  obtain ⟨v,sound⟩ := reached_sound reached
  have held := readers_held sound.rep
  have idle : v.frames 0 = none := by rw [← sound.rep.frames]; rfl
  have spared : allocSpare (whole .rdlck n) 1 (readers n) = (none,readers n) := rfl
  have limit : ¬ OverLimit (whole .rdlck n) 1 0 (-1) (readers n) := by
    have count : structures (whole .rdlck n) 1 (readers n) = n + 1 := by
      show ulong (n + 1) = n + 1
      exact mod_eq_of_lt (by omega)
    unfold OverLimit
    rintro ⟨_,⟨_,excess⟩ | ⟨op,_⟩⟩
    · have : maxlocksperuid = 1024 := rfl
      omega
    · cases op
  have calls := whole_calls .rdlck (by decide) n
  have shape : Shaped (reader n) := calls.shaped (whole_range _ _) 1
  have running : Running singles ((((readers n).alloc 1).set n (reader n)).link n none) v 0 n (reader n) none :=
    Running.begin sound idle (fun q mine => by cases mine) 1 shape rfl calls.own
  have live := running.locals.lock.2
  have block : lfGetblock (reader n) ((((readers n).alloc 1).set n (reader n)).link n none) = .ok none := by
    have free : ∀ e ∈ v.held 0, ¬ Blocks (reader n) e := by
      rw [held]
      intro e member blocks
      obtain ⟨p,_,rfl⟩ := mem_map.mp member
      rcases blocks.2.2 with kind | kind
      · cases kind
      · cases kind
    rw [lfGetblock_spec running.sound.rep rfl (running.ranged _) running.shaped.ranged]
    exact congrArg (fun e => Except.ok (e.map Prod.fst)) (blocker_none.mpr free)
  have others : ∀ e ∈ v.held 0, e.2.lfId ≠ (reader n).lfId := by
    rw [held]
    intro e member same
    obtain ⟨p,below,rfl⟩ := mem_map.mp member
    cases same
    exact absurd (mem_range.mp below) (lt_irrefl _)
  have last := setLoop_last none running.sound.rep live (running.ranged 0) running.shaped.ranged others (n + 1)
  have set : lfSetlock singles 0 n none ((((readers n).alloc 1).set n (reader n)).link n none) =
      .ok (.returned none none,readers (n + 1)) := by
    unfold lfSetlock
    rw [get_live live,ok_bind,block,ok_bind]
    refine (congrArg (· >>= _) last).trans ?_
    rw [ok_bind,held,readers_append n room]
  unfold step lfAdvlock
  refine (congrArg (· >>= _) (congrArg (· >>= _) (whole_range .rdlck n))).trans ?_
  rw [ok_bind]
  dsimp only
  rw [if_neg (fun bad => by cases bad),spared]
  rw [allocLock_room limit spared]
  dsimp only
  rw [if_neg (fun both => both.2 rfl)]
  have raw : ((readers n).alloc 1).get n = .ok (rawLock 1) := get_live (update_self _ _ _)
  refine (congrArg (· >>= _) (congrArg (· >>= _) raw)).trans ?_
  rw [ok_bind]
  refine (congrArg (· >>= _) (congrArg (· >>= _) set)).trans ?_
  rfl

theorem readers_reached (n : Nat) (most : n ≤ 1024) : Reached singles (readers n) := by
  induction n with
  | zero => exact readers_zero ▸ .initial
  | succ n ih =>
    have prior := ih (by omega)
    exact .step _ _ _ _ prior (.advlock 0 1 _ rfl (whole_calls .rdlck (by decide) n)) (readers_grow n (by omega) prior)

-- At the limit a request meets ENOMEM before anybody looks for a conflict.
theorem enomem_before_conflict : Reached singles (readers 1024) ∧
    (whole .wrlck 2000).Conflicting 0 (-1) (lockMap (readers 1024) 0) ∧
    step singles (readers 1024) (.advlock 0 1 (whole .wrlck 2000)) = .ok (some (.returned (some .enomem)),readers 1024) := by
  have reached := readers_reached 1024 (le_refl _)
  refine ⟨reached,?_,?_⟩
  · obtain ⟨v,sound⟩ := reached_sound reached
    refine ⟨.file 0,0,.rdlck,by decide,by decide,sound.lockMap.mpr ⟨(0,reader 0),?_,rfl,by decide,rfl⟩,.inl rfl⟩
    rw [readers_held sound.rep]
    exact List.mem_map.mpr ⟨0,List.mem_range.mpr (by decide),rfl⟩
  have excess : OverLimit (whole .wrlck 2000) 1 0 (-1) (readers 1024) := by decide
  have spared : allocSpare (whole .wrlck 2000) 1 (readers 1024) = (none,readers 1024) := rfl
  unfold step lfAdvlock
  refine (congrArg (· >>= _) (congrArg (· >>= _) (whole_range .wrlck 2000))).trans ?_
  rw [ok_bind]
  dsimp only
  rw [if_neg (fun bad => by cases bad),spared]
  rfl

-- Sleeping requests: where they are queued, and the graph of who waits for whom.
variable {v₁ : View} {mine' : List Ptr} {t' p q : Nat} {r : Ptr}

structure QueuedOn (s : State) (r b : Ptr) (u l : Lock) : Prop where
  request : s.lockf r = some u
  next : s.lfNext (.next r) = some b
  lock : s.lockf b = some l
  file : l.lfHead = u.lfHead
  held : b ∈ lockPtrs s u.lfHead
  once : l.lfBlkhd.count r = 1
  only : ∀ p l', s.lockf p = some l' → r ∈ l'.lfBlkhd → p = b
  other : l.lfId ≠ u.lfId
  overlap : ∃ x, u.Covers x ∧ l.Covers x
  conflict : u.lfType = .wrlck ∨ l.lfType = .wrlck

theorem Sound.placed (sound : Sound c s v []) (live : s.lockf k = some l)
    (free : ∀ t fr, v.frames t = some fr → fr.lock ≠ k ∧ fr.sparelock ≠ some k) : ∃ f, (k,l) ∈ v.held f := by
  by_cases off : v.Off k
  · rcases sound.owned k l live off with ⟨t,fr,frame,spare⟩ | none
    · exact absurd spare (free t fr frame).2
    · cases none
  by_cases loose : v.loose k = none
  · have held : ∃ f, k ∈ ptrs (v.held f) := by
      by_contra none
      exact off ⟨loose,fun f member => none ⟨f,member⟩⟩
    obtain ⟨f,member⟩ := held
    obtain ⟨l',here⟩ := mem_ptrs.mp member
    have alive := sound.rep.live f _ here
    rw [live] at alive
    cases alive
    exact ⟨f,here⟩
  obtain ⟨l',here⟩ := ne_none_iff_exists'.mp loose
  obtain ⟨t,fr,frame,lock⟩ := sound.loose k l' here
  exact absurd lock (free t fr frame).1

theorem Sound.onlyHeld (sound : Sound c s v []) (live : s.lockf k = some l) (waits : r ∈ l.lfBlkhd) : ∃ f, (k,l) ∈ v.held f := by
  refine sound.placed live ?_
  intro t fr frame
  constructor
  · rintro rfl
    obtain ⟨l',loose,request,_⟩ := sound.frame t fr frame
    have alive := (sound.rep.loose _ l' loose).1
    rw [live] at alive
    cases alive
    rw [request.empty] at waits
    cases waits
  intro spare
  obtain ⟨_,l',alive,bare⟩ := sound.spare t fr k frame spare
  rw [live] at alive
  cases alive
  rw [bare] at waits
  cases waits

-- No request sleeps on anything but a held lock that still blocks it.
theorem asleep_queued (reached : Reached c s) (asleep : s.wchan t = some r) : ∃ b u l, QueuedOn s r b u l := by
  obtain ⟨v,sound⟩ := reached_sound reached
  obtain ⟨u,f,⟨b,l⟩,loose,live,member,waits,next,alive,proper⟩ := sound.queued asleep
  obtain ⟨u',loose',file,other,conflict⟩ := sound.waits f _ member r waits
  rw [loose] at loose'
  cases loose'
  obtain ⟨t',fr,frame,lock⟩ := sound.loose r u loose
  obtain ⟨u',loose',request,_⟩ := sound.frame t' fr frame
  rw [lock,loose] at loose'
  cases loose'
  have overlap : ∃ x, u.Covers x ∧ l.Covers x := by
    have meets := conflict.1
    rw [apart_covers request.proper.shaped.ranged proper.shaped.ranged] at meets
    push Not at meets
    exact meets
  refine ⟨b,u,l,live,next,alive,?_,?_,?_,?_,other.symm,overlap,conflict.2⟩
  · rw [file]
    exact (sound.proper f _ member).2
  · rw [sound.rep.lockPtrs,file]
    exact ptr_mem member
  · exact count_eq_one_of_mem (sound.rep.queued f _ member).1 waits
  · intro p l' there waits'
    obtain ⟨g,member'⟩ := sound.onlyHeld there waits'
    exact congrArg Prod.fst (sound.rep.oneQueue member' member waits' waits).2

def after (r : Except Halt (Option Reply × State)) : State :=
  match r with
  | .ok (_,s) => s
  | .error _ => initial

def waiting (x : Nat) : Args := ⟨.setlk,⟨0,0,0,.wrlck,.seekSet⟩,⟨true,false,true⟩,.file x,0,0⟩
theorem waiting_calls (t x : Nat) : Calls singles t (waiting x) := .flock x rfl rfl rfl ⟨rfl,rfl,rfl⟩ (fun _ bad => by cases bad)

theorem asleep_queued_second : ∃ s, Reached singles s ∧ s.wchan 1 = some 1 ∧ ∃ b u l, QueuedOn s 1 b u l := by
  have first : step singles initial (.advlock 0 1 (waiting 7)) =
      .ok (some (.returned none),after (step singles initial (.advlock 0 1 (waiting 7)))) := rfl
  have reached := Reached.step _ _ _ _ .initial (.advlock 0 1 _ rfl (waiting_calls 0 7)) first
  generalize state : after (step singles initial (.advlock 0 1 (waiting 7))) = s₁ at first reached
  have second : step singles s₁ (.advlock 1 1 (waiting 8)) = .ok (some .asleep,after (step singles s₁ (.advlock 1 1 (waiting 8)))) := by
    subst state
    rfl
  have idle : s₁.frames 1 = none := by
    subst state
    rfl
  have reached' := Reached.step _ _ _ _ reached (.advlock 1 1 _ idle (waiting_calls 1 8)) second
  have asleep : (after (step singles s₁ (.advlock 1 1 (waiting 8)))).wchan 1 = some 1 := by
    subst state
    rfl
  exact ⟨_,reached',asleep,asleep_queued reached' asleep⟩
end NetbsdAvr32.Lockf
