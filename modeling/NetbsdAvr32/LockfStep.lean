import NetbsdAvr32.LockfSetlock

-- lf_advlock and the steps of the system.
namespace NetbsdAvr32.Lockf
open Function Linked Outcome Nat
variable {c : Procs} {s s' : State} {v v' : View} {mine : List Ptr} {f t uid : Nat} {p k : Ptr} {l b u : Lock} {e : Entry}
  {es es' left right : List Entry} {sp sp' : Option Ptr} {ws : List Ptr} {ap : Args} {start fin : Int}

-- What do_fcntl_lock and sys_flock pass: a process with its own requests, or
-- a file with requests for the whole range.
inductive Calls (c : Procs) (t : Nat) (ap : Args) : Prop
  | posix (posix : ap.aFlags.posix = true) (flock : ap.aFlags.flock = false) (owner : ap.aId = .proc (c.proc t))
      (known : ap.aOp = .setlk → ap.aFl.lType ≠ .unlck)
  | flock (x : Nat) (posix : ap.aFlags.posix = false) (flock : ap.aFlags.flock = true) (owner : ap.aId = .file x)
      (whole : ap.aFl.lWhence = .seekSet ∧ ap.aFl.lStart = 0 ∧ ap.aFl.lLen = 0) (known : ap.aOp = .setlk → ap.aFl.lType ≠ .unlck)

inductive Allowed (c : Procs) (s : State) : Op → Prop
  | advlock (t uid : Nat) (ap : Args) (idle : s.frames t = none) (calls : Calls c t ap) : Allowed c s (.advlock t uid ap)
  | signal (t : Nat) (asleep : s.wchan t ≠ none) : Allowed c s (.signal t)
  | resume (t : Nat) (error : Option Errno) (inside : s.frames t ≠ none) (awake : s.wchan t = none)
      (which : error = none ∨ error = some .eintr ∨ error = some .erestart) : Allowed c s (.resume t error)

inductive Reached (c : Procs) : State → Prop
  | initial : Reached c initial
  | step (s s' : State) (op : Op) (reply : Option Reply) (prior : Reached c s) (allowed : Allowed c s op)
      (ran : step c s op = .ok (reply,s')) : Reached c s'

theorem offT_inv {x y : Int} (ok : offT x = .ok y) : y = x ∧ -offMax - 1 ≤ x ∧ x ≤ offMax := by
  unfold offT at ok
  split at ok
  · rename_i range
    cases ok
    exact ⟨rfl,range⟩
  · cases ok

variable {fl : Flock} {size : Int}

theorem flockStart_high (ok : flockStart fl size = .ok start) : start ≤ offMax := by
  unfold flockStart at ok
  split at ok
  · obtain ⟨rfl,_,high⟩ := offT_inv ok
    exact high
  obtain ⟨rfl,_,high⟩ := offT_inv ok
  exact high

theorem flockEnds_ranged {first : Int} (ok : flockEnds fl first = .ok (start,fin)) (high : first ≤ offMax) (low : 0 ≤ start) :
    start ≤ offMax ∧ (fin = -1 ∨ start ≤ fin ∧ fin < offMax) := by
  unfold flockEnds at ok
  split at ok
  · cases ok
    exact ⟨high,.inl rfl⟩
  split at ok
  · obtain ⟨past,one,ok⟩ := bind_ok ok
    obtain ⟨last,two,ok⟩ := bind_ok ok
    obtain ⟨rfl,_,top⟩ := offT_inv one
    obtain ⟨rfl,_,_⟩ := offT_inv two
    cases ok
    omega
  obtain ⟨last,one,ok⟩ := bind_ok ok
  obtain ⟨begin,two,ok⟩ := bind_ok ok
  obtain ⟨rfl,_,_⟩ := offT_inv one
  obtain ⟨rfl,_,top⟩ := offT_inv two
  cases ok
  omega

theorem flockRange_ranged (ok : flockRange fl size = .ok (some (start,fin))) :
    (0 ≤ start ∧ start ≤ offMax) ∧ (fin = -1 ∨ start ≤ fin ∧ fin < offMax) := by
  obtain ⟨first,got,ok⟩ := bind_ok ok
  have high := flockStart_high got
  split_ifs at ok with other
  · cases ok
  obtain ⟨⟨a,b⟩,ends,ok⟩ := bind_ok ok
  dsimp only at ok
  split_ifs at ok with low
  · cases ok
  cases ok
  have bounds := flockEnds_ranged ends high (by omega)
  exact ⟨⟨by omega,bounds.1⟩,bounds.2⟩

theorem flockRange_whole (whole : fl.lWhence = .seekSet ∧ fl.lStart = 0 ∧ fl.lLen = 0) :
    flockRange fl size = .ok (some (0,-1)) := by
  obtain ⟨whence,start,len⟩ := whole
  have first : flockStart fl size = .ok 0 := by
    unfold flockStart
    rw [whence,start]
    rfl
  have ends : flockEnds fl 0 = .ok (0,-1) := if_pos len
  unfold flockRange
  rw [first,ok_bind,whence,if_neg (by decide),ends]
  rfl

def State.alloc (s : State) (uid : Nat) : State :=
  {s with
    lockf := update s.lockf s.nextLockf (some (rawLock uid))
    nextLockf := s.nextLockf + 1
    uiLockcnt := update s.uiLockcnt uid (ulong (s.uiLockcnt uid + 1))}

theorem lfAlloc_zero (uid : Nat) (s : State) : lfAlloc uid 0 s = (some s.nextLockf,s.alloc uid) := by
  unfold lfAlloc
  rw [if_neg (by simp)]
  rfl

theorem lfAlloc_cases (uid n : Nat) (s : State) : lfAlloc uid n s = (none,s) ∨ lfAlloc uid n s = (some s.nextLockf,s.alloc uid) := by
  by_cases full : uid ≠ 0 ∧ n ≠ 0 ∧ ulong (s.uiLockcnt uid + 1) > (if n = 1 then maxlocksperuid else maxlocksperuid * 2)
  · exact .inl (if_pos full)
  · exact .inr (if_neg full)

theorem Rep.fresh (rep : Rep s v) : v.Off s.nextLockf := by
  refine ⟨?_,?_⟩
  · cases loose : v.loose s.nextLockf with
    | none => rfl
    | some l => exact absurd (rep.bound _ l (rep.loose _ l loose).1) (lt_irrefl _)
  intro f member
  obtain ⟨l,here⟩ := mem_ptrs.mp member
  exact absurd (rep.bound _ l (rep.live f _ here)) (lt_irrefl _)

theorem Sound.write {q : Ptr} {x : Option Ptr} (sound : Sound c s v mine) (off : v.Off q) (fresh : ∀ t fr, v.frames t = some fr → fr.sparelock ≠ some q)
    (lockf : s'.lockf = update s.lockf q (some l)) (lfNext : s'.lfNext = s.lfNext ∨ s'.lfNext = update s.lfNext (.next q) x)
    (bound : s.nextLockf ≤ s'.nextLockf ∧ q < s'.nextLockf) (same : s'.wchan = s.wchan ∧ s'.frames = s.frames) :
    Sound c s' v (q :: mine) := by
  have others : ∀ r, r ≠ q → s'.lockf r = s.lockf r := by
    intro r other
    rw [lockf]
    exact update_of_ne other _ _
  have links : ∀ slot, slot ≠ .next q → s'.lfNext slot = s.lfNext slot := by
    intro slot other
    rcases lfNext with here | here
    · rw [here]
    rw [here]
    exact update_of_ne other _ _
  refine ⟨?_,sound.proper,sound.sorted,sound.free,sound.waits,sound.frame,sound.loose,sound.apart,?_,sound.asleep,?_⟩
  · refine sound.rep.unseen ?_ (fun f => links _ (fun equal => by cases equal)) ?_ ?_ same.1 same.2
    · intro r seen
      exact others r (fun equal => seen (equal ▸ off))
    · intro r seen
      exact links _ (fun equal => by cases equal; exact seen off)
    intro r l' alive
    by_cases mine : r = q
    · exact mine ▸ bound.2
    · exact lt_of_lt_of_le (sound.rep.bound r l' ((others r mine).symm.trans alive)) bound.1
  · intro t fr r frame spare
    obtain ⟨away,l',alive,bare⟩ := sound.spare t fr r frame spare
    have other : r ≠ q := fun equal => fresh t fr frame (equal ▸ spare)
    exact ⟨away,l',(others r other).trans alive,bare⟩
  intro r l' alive away
  by_cases mine : r = q
  · exact .inr (by simp [mine])
  rcases sound.owned r l' ((others r mine).symm.trans alive) away with frame | own
  · exact .inl frame
  · exact .inr (by simp [own])

theorem Sound.alloc (sound : Sound c s v mine) (uid : Nat) : Sound c (s.alloc uid) v (s.nextLockf :: mine) := by
  refine sound.write (x := none) sound.rep.fresh ?_ rfl (.inl rfl) ⟨le_succ _,lt_succ_self _⟩ ⟨rfl,rfl⟩
  intro t fr frame spare
  obtain ⟨_,l,alive,_⟩ := sound.spare t fr _ frame spare
  exact absurd (sound.rep.bound _ l alive) (lt_irrefl _)

theorem Sound.release {q : Ptr} (sound : Sound c s v (q :: mine)) (spare : Spare s v q) : ∃ l, lfFree q s = .ok (s.freed q l) ∧
    Sound c (s.freed q l) v mine ∧ ∀ r, r ≠ q → (s.freed q l).lockf r = s.lockf r := by
  obtain ⟨off,⟨l,live⟩,fresh⟩ := spare
  refine ⟨l,lfFree_eq live,⟨sound.rep.freeOff off,sound.proper,sound.sorted,sound.free,sound.waits,sound.frame,sound.loose,
    sound.apart,?_,sound.asleep,?_⟩,fun r other => update_of_ne other _ _⟩
  · intro t fr r frame his
    obtain ⟨away,l',alive,bare⟩ := sound.spare t fr r frame his
    have other : r ≠ q := fun equal => fresh t fr frame (equal ▸ his)
    exact ⟨away,l',(update_of_ne other _ _).trans alive,bare⟩
  intro r l' alive away
  have other : r ≠ q := by
    rintro rfl
    rw [show (s.freed r l).lockf r = none from update_self _ _ _] at alive
    cases alive
  rcases sound.owned r l' ((update_of_ne other _ _).symm.trans alive) away with frame | own
  · exact .inl frame
  rcases List.mem_cons.mp own with equal | rest
  · exact absurd equal other
  · exact .inr rest

theorem Sound.freeIf (sound : Sound c s v sp.toList) (spare : ∀ q, sp = some q → Spare s v q) :
    ∃ s', Lockf.freeIf sp s = .ok s' ∧ Sound c s' v [] := by
  cases sp with
  | none => exact ⟨s,rfl,sound⟩
  | some q =>
    have whole : Sound c s v [q] := sound
    obtain ⟨l,freed,sound',_⟩ := whole.release (spare q rfl)
    exact ⟨_,freed,sound'⟩

theorem Running.begin (sound : Sound c s v sp.toList) (idle : v.frames t = none)
    (spare : ∀ q, sp = some q → Spare s v q ∧ ∀ l, s.lockf q = some l → l.lfBlkhd = []) (uid : Nat) (shaped : Shaped l) (empty : l.lfBlkhd = [])
    (own : l.lfFlags.posix = true → l.lfId = .proc (c.proc t)) :
    Running c (((s.alloc uid).set s.nextLockf l).link s.nextLockf none) v t s.nextLockf l sp := by
  have off := sound.rep.fresh
  have fresh : ∀ t fr, v.frames t = some fr → fr.sparelock ≠ some s.nextLockf := by
    intro t fr frame his
    obtain ⟨_,l,alive,_⟩ := sound.spare t fr _ frame his
    exact absurd (sound.rep.bound _ l alive) (lt_irrefl _)
  have lockf : (((s.alloc uid).set s.nextLockf l).link s.nextLockf none).lockf = update s.lockf s.nextLockf (some l) :=
    update_idem ..
  have below : ∀ q, sp = some q → q ≠ s.nextLockf := by
    intro q mine
    obtain ⟨l,alive⟩ := (spare q mine).1.live
    exact Nat.ne_of_lt (sound.rep.bound q l alive)
  have others : ∀ q, sp = some q → (((s.alloc uid).set s.nextLockf l).link s.nextLockf none).lockf q = s.lockf q := by
    intro q mine
    rw [lockf]
    exact update_of_ne (below q mine) _ _
  refine ⟨sound.write (x := none) off fresh lockf (.inr rfl) ⟨le_succ _,lt_succ_self _⟩ ⟨rfl,rfl⟩,idle,
    ⟨⟨off,by rw [lockf]; exact update_self _ _ _⟩,?_⟩,shaped,empty,own,?_,?_⟩
  · intro q mine
    obtain ⟨⟨away,⟨l,alive⟩,_⟩,_⟩ := spare q mine
    exact ⟨away,below q mine,l,(others q mine).trans alive⟩
  · intro t' fr q frame his
    refine ⟨fun equal => fresh t' fr frame (equal ▸ his),?_⟩
    intro mine
    exact (spare q mine).1.fresh t' fr frame his
  intro q l' mine alive
  exact (spare q mine).2 l' ((others q mine).symm.trans alive)

theorem allocSpare_spec (sound : Sound c s v []) (ap : Args) (uid : Nat) :
    ∃ sp s₁, allocSpare ap uid s = (sp,s₁) ∧ Sound c s₁ v sp.toList ∧ s₁.lfNext = s.lfNext ∧
      (∀ q, sp = some q → Spare s₁ v q ∧ ∀ l, s₁.lockf q = some l → l.lfBlkhd = []) ∧
      (sp = none ↔ ap.aOp = .getlk ∨ ap.aFlags.flock = true) := by
  unfold allocSpare
  split_ifs with brings
  · rw [lfAlloc_zero]
    have live : (s.alloc uid).lockf s.nextLockf = some (rawLock uid) := update_self _ _ _
    refine ⟨_,_,rfl,sound.alloc uid,rfl,?_,by simpa using brings⟩
    intro q mine
    cases mine
    refine ⟨⟨sound.rep.fresh,⟨_,live⟩,?_⟩,?_⟩
    · intro t fr frame his
      obtain ⟨_,l,alive,_⟩ := sound.spare t fr _ frame his
      exact absurd (sound.rep.bound _ l alive) (lt_irrefl _)
    intro l alive
    rw [live] at alive
    cases alive
    rfl
  refine ⟨none,s,rfl,sound,rfl,fun q mine => (by cases mine),?_⟩
  simp only [true_iff]
  by_cases op : ap.aOp = .getlk
  · exact .inl op
  · exact .inr (by simpa [op] using brings)

def structures (ap : Args) (uid : Nat) (s : State) : Nat :=
  if ap.aOp ≠ .getlk ∧ ap.aFlags.flock = false then ulong (ulong (s.uiLockcnt uid + 1) + 1) else ulong (s.uiLockcnt uid + 1)

def OverLimit (ap : Args) (uid : Nat) (start fin : Int) (s : State) : Prop :=
  uid ≠ 0 ∧ (ap.aOp = .setlk ∧ structures ap uid s > maxlocksperuid ∨
    ap.aOp = .unlck ∧ start ≠ 0 ∧ fin ≠ -1 ∧ structures ap uid s > maxlocksperuid * 2)

instance (ap : Args) (uid : Nat) (start fin : Int) (s : State) : Decidable (OverLimit ap uid start fin s) :=
  inferInstanceAs (Decidable (_ ∧ _))

theorem allocSpare_count (ap : Args) (uid : Nat) (s : State) : ulong ((allocSpare ap uid s).2.uiLockcnt uid + 1) = structures ap uid s := by
  unfold allocSpare structures
  split_ifs with brings
  · rw [lfAlloc_zero]
    exact congrArg (fun n => ulong (n + 1)) (update_self _ _ _)
  · rfl

theorem lfAlloc_some {n : Nat} (room : ¬ (uid ≠ 0 ∧ n ≠ 0 ∧ ulong (s.uiLockcnt uid + 1) > if n = 1 then maxlocksperuid else maxlocksperuid * 2)) :
    lfAlloc uid n s = (some s.nextLockf,s.alloc uid) := if_neg room

theorem lfAlloc_none {n : Nat} (full : uid ≠ 0 ∧ n ≠ 0 ∧ ulong (s.uiLockcnt uid + 1) > if n = 1 then maxlocksperuid else maxlocksperuid * 2) :
    lfAlloc uid n s = (none,s) := if_pos full

theorem allocLock_full (full : OverLimit ap uid start fin s) (spare : allocSpare ap uid s = (sp,s')) :
    allocLock ap uid start fin s' = (none,s') := by
  have count := allocSpare_count ap uid s
  rw [spare] at count
  obtain ⟨other,⟨op,excess⟩ | ⟨op,inside,ends,excess⟩⟩ := full
  · unfold allocLock
    rw [op]
    refine lfAlloc_none ⟨other,Nat.one_ne_zero,?_⟩
    rw [count]
    exact excess
  unfold allocLock
  rw [op]
  rw [if_neg (by tauto)]
  refine lfAlloc_none ⟨other,by decide,?_⟩
  rw [count]
  exact excess

theorem allocLock_room (room : ¬ OverLimit ap uid start fin s) (spare : allocSpare ap uid s = (sp,s')) :
    allocLock ap uid start fin s' = (some s'.nextLockf,s'.alloc uid) := by
  have count := allocSpare_count ap uid s
  rw [spare] at count
  unfold allocLock
  cases op : ap.aOp with
  | setlk =>
    refine lfAlloc_some ?_
    rintro ⟨other,_,excess⟩
    rw [count] at excess
    exact room ⟨other,.inl ⟨op,excess⟩⟩
  | unlck =>
    split_ifs with never
    · exact lfAlloc_zero uid s'
    refine lfAlloc_some ?_
    rintro ⟨other,_,excess⟩
    rw [count] at excess
    exact room ⟨other,.inr ⟨op,by tauto,by tauto,excess⟩⟩
  | getlk | other => exact lfAlloc_zero uid s'

def Args.lock (ap : Args) (start fin : Int) (uid : Nat) : Lock := ⟨ap.aFlags,ap.aFl.lType,start,fin,ap.aId,ap.head,[],uid⟩

theorem Calls.shaped (calls : Calls c t ap) (range : flockRange ap.aFl ap.size = .ok (some (start,fin))) (uid : Nat) :
    Shaped (ap.lock start fin uid) := by
  obtain ⟨low,high⟩ := flockRange_ranged range
  refine ⟨⟨low,high⟩,?_⟩
  cases calls with
  | posix posix flock owner => exact .posix (c.proc t) posix flock owner
  | flock x posix flock owner whole =>
    rw [flockRange_whole whole] at range
    cases range
    exact .flock x posix flock owner ⟨rfl,rfl⟩

theorem Calls.own (calls : Calls c t ap) : ap.aFlags.posix = true → ap.aId = .proc (c.proc t) := by
  intro yes
  cases calls with
  | posix _ _ owner => exact owner
  | flock _ posix =>
    rw [posix] at yes
    cases yes

theorem Calls.known (calls : Calls c t ap) (op : ap.aOp = .setlk) : ap.aFl.lType ≠ .unlck := by
  cases calls with
  | posix _ _ _ known => exact known op
  | flock _ _ _ _ _ known => exact known op

theorem Calls.room (calls : Calls c t ap) (range : flockRange ap.aFl ap.size = .ok (some (start,fin))) (uid : Nat)
    (spare : sp = none ↔ ap.aOp = .getlk ∨ ap.aFlags.flock = true) (op : ap.aOp ≠ .getlk) : Room (ap.lock start fin uid) sp := by
  refine ⟨?_,fun flock => spare.mpr (.inr flock)⟩
  intro none
  rcases spare.mp none with get | flock
  · exact absurd get op
  cases calls with
  | posix _ other =>
    rw [other] at flock
    cases flock
  | flock _ _ _ _ whole =>
    rw [flockRange_whole whole] at range
    cases range
    rfl

def Setlock.reply : Setlock → Reply
  | .returned error _ => .returned error
  | .asleep => .asleep

inductive Advised (c : Procs) (s : State) (v : View) (t uid : Nat) (ap : Args) : Reply → View → Prop
  | invalid (bad : flockRange ap.aFl ap.size = .ok none ∨ ap.aOp = .other) : Advised c s v t uid ap (.returned (some .einval)) v
  | full (start fin : Int) (range : flockRange ap.aFl ap.size = .ok (some (start,fin))) (excess : OverLimit ap uid start fin s) :
      Advised c s v t uid ap (.returned (some .enomem)) v
  | tested (start fin : Int) (range : flockRange ap.aFl ap.size = .ok (some (start,fin))) (op : ap.aOp = .getlk) :
      Advised c s v t uid ap (.returned none) v
  | unlocked (start fin : Int) (range : flockRange ap.aFl ap.size = .ok (some (start,fin))) (op : ap.aOp = .unlck)
      (room : ¬ OverLimit ap uid start fin s) (es' : List Entry) (ws : List Ptr) (sp sp' : Option Ptr)
      (clears : Clears (ap.lock start fin uid) wakesAll sp (v.held ap.head) es' ws [] sp') :
      Advised c s v t uid ap (.returned none) (v.edit ap.head es' ws)
  | set (start fin : Int) (range : flockRange ap.aFl ap.size = .ok (some (start,fin))) (op : ap.aOp = .setlk)
      (room : ¬ OverLimit ap uid start fin s) (s₁ s₂ : State) (v' : View) (k : Ptr) (sp : Option Ptr) (r : Setlock)
      (running : Running c s₁ v t k (ap.lock start fin uid) sp) (settled : Settled c s₁ v t k (ap.lock start fin uid) sp r s₂ v') :
      Advised c s v t uid ap r.reply v'

theorem afterSetlock_spec {r : Setlock} (sound : Sound c s v r.spare.toList) (spare : ∀ q, r.spare = some q → Spare s v q) :
    ∃ s', afterSetlock r s = .ok (r.reply,s') ∧ Sound c s' v [] := by
  cases r with
  | asleep => exact ⟨s,rfl,sound⟩
  | returned error sp =>
    obtain ⟨s',freed,sound'⟩ := sound.freeIf spare
    change freeIf sp s = .ok s' at freed
    refine ⟨s',?_,sound'⟩
    unfold afterSetlock
    dsimp only
    rw [freed,ok_bind]
    rfl

theorem Running.finish (running : Running c s v t k u sp) : ∃ s₁ s₂, lfFree k s = .ok s₁ ∧ freeIf sp s₁ = .ok s₂ ∧ Sound c s₂ v [] := by
  obtain ⟨sound,spare⟩ := running.refuse
  obtain ⟨s₂,freed,sound₂⟩ := sound.freeIf spare
  exact ⟨_,s₂,lfFree_eq running.locals.lock.2,freed,sound₂⟩

theorem lfGetlock_ok (sound : Sound c s v mine) (head : u.lfHead = f) (range : Ranged u) (fl : Flock) : ∃ fl', lfGetlock u fl s = .ok fl' := by
  unfold lfGetlock
  rw [lfGetblock_spec sound.rep head (fun e member => (sound.proper f e member).1.shaped.ranged) range,ok_bind]
  cases found : blocker u (v.held f) with
  | none => exact ⟨_,rfl⟩
  | some e =>
    obtain ⟨member,_⟩ := blocker_some found
    obtain ⟨⟨low,high⟩,order⟩ := (sound.proper f e member).1.shaped.ranged
    dsimp only [Option.map_some]
    rw [get_live (sound.rep.live f e member),ok_bind]
    split_ifs with whole
    · exact ⟨_,rfl⟩
    rw [offT_ok (by omega) (by omega),ok_bind,offT_ok (by omega) (by omega)]
    exact ⟨_,rfl⟩

theorem advlockLocked_spec {s₁ : State} (running : Running c ((s₁.set k (ap.lock start fin uid)).link k none) v t k (ap.lock start fin uid) sp)
    (raw : s₁.lockf k = some (rawLock uid)) (calls : Calls c t ap) (range : flockRange ap.aFl ap.size = .ok (some (start,fin)))
    (limit : ¬ OverLimit ap uid start fin s) (spare : sp = none ↔ ap.aOp = .getlk ∨ ap.aFlags.flock = true) (known : ap.aOp ≠ .other) :
    ∃ reply fl s' v', advlockLocked c t ap start fin k sp s₁ = .ok (reply,fl,s') ∧ Sound c s' v' [] ∧ Advised c s v t uid ap reply v' := by
  unfold advlockLocked
  rw [get_live raw,ok_bind]
  rw [if_neg (fun bad => bad.2 (calls.own bad.1))]
  cases op : ap.aOp with
  | setlk =>
    have room := calls.room range uid spare (by rw [op]; decide)
    obtain ⟨r,s₂,v',ran,settled,sound,left⟩ := lfSetlock_spec running (calls.known op) room
    obtain ⟨s₃,after,sound'⟩ := afterSetlock_spec sound left
    refine ⟨r.reply,ap.aFl,s₃,v',?_,sound',.set start fin range op limit _ s₂ v' k sp r running settled⟩
    refine (congrArg (· >>= _) ran).trans ?_
    rw [ok_bind]
    dsimp only
    rw [after,ok_bind]
  | unlck =>
    have room := calls.room range uid spare (by rw [op]; decide)
    obtain ⟨sp',s₂,es',ws,ran,clears,_,running'⟩ := running.clear room rfl
    obtain ⟨s₃,s₄,freed,freed',sound⟩ := running'.finish
    refine ⟨_,ap.aFl,s₄,_,?_,sound,.unlocked start fin range op limit es' ws sp sp' clears⟩
    refine (congrArg (· >>= _) ran).trans ?_
    rw [ok_bind]
    dsimp only
    rw [freed,ok_bind,freed',ok_bind]
  | getlk =>
    obtain ⟨fl,got⟩ := lfGetlock_ok running.sound rfl running.shaped.ranged ap.aFl
    obtain ⟨s₂,s₃,freed,freed',sound⟩ := running.finish
    refine ⟨_,fl,s₃,v,?_,sound,.tested start fin range op⟩
    refine (congrArg (· >>= _) got).trans ?_
    rw [ok_bind]
    refine (congrArg (· >>= _) freed).trans ?_
    rw [ok_bind,freed',ok_bind]
  | other => exact absurd op known

theorem idle_free (sound : Sound c s v sp.toList) (spare : ∀ q, sp = some q → Spare s v q) (uid : Nat) :
    ∃ s₁ s₂, lfFree s.nextLockf (s.alloc uid) = .ok s₁ ∧ freeIf sp s₁ = .ok s₂ ∧ Sound c s₂ v [] := by
  have fresh : Spare (s.alloc uid) v s.nextLockf := by
    refine ⟨sound.rep.fresh,⟨_,update_self _ _ _⟩,?_⟩
    intro t fr frame his
    obtain ⟨_,l,alive,_⟩ := sound.spare t fr _ frame his
    exact absurd (sound.rep.bound _ l alive) (lt_irrefl _)
  obtain ⟨l,freed,sound₁,same⟩ := (sound.alloc uid).release fresh
  have spares : ∀ q, sp = some q → Spare ((s.alloc uid).freed s.nextLockf l) v q := by
    intro q mine
    obtain ⟨off,⟨l',alive⟩,mineOnly⟩ := spare q mine
    have other : q ≠ s.nextLockf := Nat.ne_of_lt (sound.rep.bound q l' alive)
    exact ⟨off,⟨l',(same q other).trans ((update_of_ne other _ _).trans alive)⟩,mineOnly⟩
  obtain ⟨s₂,freed',sound₂⟩ := sound₁.freeIf spares
  exact ⟨_,s₂,freed,freed',sound₂⟩

theorem held_nil (rep : Rep s v) (none : s.lfNext (.head f) = none) : v.held f = [] := by
  have first := (rep.chain f).first
  rw [none] at first
  simpa [ptrs] using first.symm

theorem lfAdvlock_spec (sound : Sound c s v []) (idle : v.frames t = none) (calls : Calls c t ap)
    (defined : ∃ r, flockRange ap.aFl ap.size = .ok r) (uid : Nat) :
    ∃ reply fl s' v', lfAdvlock c t uid ap s = .ok (reply,fl,s') ∧ Sound c s' v' [] ∧ Advised c s v t uid ap reply v' := by
  obtain ⟨r,range⟩ := defined
  unfold lfAdvlock
  rw [range,ok_bind]
  cases r with
  | none => exact ⟨_,_,s,v,rfl,sound,.invalid (.inl range)⟩
  | some ends =>
    obtain ⟨start,fin⟩ := ends
    dsimp only
    split_ifs with other
    · exact ⟨_,_,s,v,rfl,sound,.invalid (.inr other)⟩
    obtain ⟨sp,s₁,spared,sound₁,links,spare,brings⟩ := allocSpare_spec sound ap uid
    have spares : ∀ q, sp = some q → Spare s₁ v q := fun q mine => (spare q mine).1
    rw [spared]
    by_cases excess : OverLimit ap uid start fin s
    · rw [allocLock_full excess spared]
      obtain ⟨s₂,freed,sound₂⟩ := sound₁.freeIf spares
      refine ⟨_,ap.aFl,s₂,v,?_,sound₂,.full start fin range excess⟩
      dsimp only
      rw [freed,ok_bind]
    rw [allocLock_room excess spared]
    dsimp only
    have running := Running.begin sound₁ idle spare uid (calls.shaped range uid) rfl calls.own
    have raw : (s₁.alloc uid).lockf s₁.nextLockf = some (rawLock uid) := update_self _ _ _
    split_ifs with nothing
    · obtain ⟨s₂,s₃,freed,freed',sound₃⟩ := idle_free sound₁ spares uid
      rw [freed,ok_bind,freed',ok_bind]
      refine ⟨_,_,s₃,v,rfl,sound₃,?_⟩
      have empty : v.held ap.head = [] := held_nil sound.rep (links ▸ nothing.1)
      cases op : ap.aOp with
      | setlk => exact absurd op nothing.2
      | other => exact absurd op other
      | getlk => exact .tested start fin range op
      | unlck =>
        have unlocked : Advised c s v t uid ap (.returned none) (v.edit ap.head [] []) :=
          .unlocked start fin range op excess [] [] none none (by rw [empty]; exact .nil none)
        rw [edit_same empty] at unlocked
        exact unlocked
    · exact advlockLocked_spec running raw calls range excess brings other

inductive Left (v : View) (t : Nat) (fr : Frame) : View → Prop
  | alone (free : ∀ g e, e ∈ v.held g → fr.lock ∉ e.2.lfBlkhd) :
      Left v t fr {v with loose := update v.loose fr.lock none, frames := update v.frames t none}
  | queued (f : Nat) (left right : List Entry) (p : Ptr) (b : Lock) (file : v.held f = left ++ (p,b) :: right)
      (waits : fr.lock ∈ b.lfBlkhd) : Left v t fr {v.edit f (left ++ (p,{b with lfBlkhd := b.lfBlkhd.erase fr.lock}) :: right) [] with
        loose := update v.loose fr.lock none, frames := update v.frames t none}

theorem leaveQueue_spec {fr : Frame} (sound : Sound c s v []) (frame : v.frames t = some fr) (awake : v.wchan t = none) :
    ∃ s₁ v₁ u, leaveQueue fr.lock {s with frames := update s.frames t none} = .ok s₁ ∧ Left v t fr v₁ ∧
      Running c s₁ v₁ t fr.lock u fr.sparelock ∧ v.loose fr.lock = some u ∧ u.lfType ≠ .unlck ∧ Room u fr.sparelock := by
  obtain ⟨u,loose,_,_⟩ := sound.frame t fr frame
  have live := (sound.rep.loose _ u loose).1
  have still : ({s with frames := update s.frames t none} : State).get fr.lock = .ok u := get_live live
  unfold leaveQueue
  rw [still,ok_bind,sound.rep.frames]
  by_cases queued : ∃ f e, e ∈ v.held f ∧ fr.lock ∈ e.2.lfBlkhd
  · obtain ⟨f,⟨p,b⟩,member,waits⟩ := queued
    obtain ⟨left,right,file⟩ := List.append_of_mem member
    have awake' : ∀ t', v.wchan t' ≠ some fr.lock := by
      intro t' asleep
      obtain ⟨⟨fr',here,lock⟩,_⟩ := sound.asleep t' _ asleep
      by_cases same : t' = t
      · subst t'
        rw [awake] at asleep
        cases asleep
      · exact (sound.apart t' t fr' fr here frame same).1 lock
    have sound' := sound.dequeue file waits awake'
    have wchan : (v.edit f (left ++ (p,{b with lfBlkhd := b.lfBlkhd.erase fr.lock}) :: right) []).wchan = v.wchan := rouse_nil _
    have gone : ∀ g e, e ∈ (v.edit f (left ++ (p,{b with lfBlkhd := b.lfBlkhd.erase fr.lock}) :: right) []).held g → fr.lock ∉ e.2.lfBlkhd := by
      intro g e here waits'
      rcases mem_requeue sound.rep file here with ⟨_,rfl⟩ | ⟨old,other⟩
      · exact ((sound.rep.queued f _ member).1.mem_erase_iff.mp waits').1 rfl
      · exact other (congrArg Prod.fst (sound.rep.oneQueue old member waits' waits).2)
    obtain ⟨u',loose',known,room,running⟩ := sound'.claim frame (wchan ▸ awake) gone
    refine ⟨_,_,u',?_,.queued f left right p b file waits,running,loose',known,room⟩
    have next := ((sound.rep.queued f _ member).2 _ waits).2
    rw [next]
    dsimp only
    have alive : ({s with frames := update v.frames t none} : State).get p = .ok b := get_live (sound.rep.live f _ member)
    rw [alive,ok_bind]
    rfl
  have free : ∀ g e, e ∈ v.held g → fr.lock ∉ e.2.lfBlkhd := fun g e member waits => queued ⟨g,e,member,waits⟩
  obtain ⟨u',loose',known,room,running⟩ := sound.claim frame awake free
  refine ⟨_,_,u',?_,.alone free,running,loose',known,room⟩
  have next := sound.rep.unqueued _ u loose free
  rw [next]

inductive Stepped (c : Procs) (s : State) (v : View) : Op → Option Reply → View → Prop
  | advlock (t uid : Nat) (ap : Args) (reply : Reply) (v' : View) (advised : Advised c s v t uid ap reply v') :
      Stepped c s v (.advlock t uid ap) (some reply) v'
  | signal (t : Nat) : Stepped c s v (.signal t) none {v with wchan := update v.wchan t none}
  | interrupted (t : Nat) (e : Errno) (fr : Frame) (v₁ : View) (left : Left v t fr v₁) (which : e = .eintr ∨ e = .erestart) :
      Stepped c s v (.resume t (some e)) (some (.returned (some e))) v₁
  | again (t : Nat) (s₁ s₂ : State) (v₁ v' : View) (fr : Frame) (u : Lock) (r : Setlock) (frame : v.frames t = some fr)
      (loose : v.loose fr.lock = some u) (awake : v.wchan t = none) (left : Left v t fr v₁) (running : Running c s₁ v₁ t fr.lock u fr.sparelock)
      (settled : Settled c s₁ v₁ t fr.lock u fr.sparelock r s₂ v') : Stepped c s v (.resume t none) (some r.reply) v'

-- The only thing a step can run into is an overflow of off_t in its arguments.
def Op.Defined : Op → Prop
  | .advlock _ _ ap => ∃ r, flockRange ap.aFl ap.size = .ok r
  | _ => True

theorem step_spec {op : Op} (sound : Sound c s v []) (allowed : Allowed c s op) (defined : op.Defined) :
    ∃ reply s' v', step c s op = .ok (reply,s') ∧ Sound c s' v' [] ∧ Stepped c s v op reply v' := by
  cases allowed with
  | advlock t uid ap idle calls =>
    rw [sound.rep.frames] at idle
    obtain ⟨reply,fl,s',v',ran,sound',advised⟩ := lfAdvlock_spec sound idle calls defined uid
    refine ⟨some reply,s',v',?_,sound',.advlock t uid ap reply v' advised⟩
    unfold step
    dsimp only
    rw [ran,ok_bind]
  | signal t asleep =>
    refine ⟨none,_,_,rfl,?_,.signal t⟩
    rw [sound.rep.wchan]
    refine ⟨sound.rep.setWchan _,sound.proper,sound.sorted,sound.free,sound.waits,sound.frame,sound.loose,sound.apart,sound.spare,?_,
      sound.owned⟩
    intro t' r asleep'
    by_cases mine : t' = t
    · rw [mine] at asleep'
      change update v.wchan t none t = some r at asleep'
      rw [update_self] at asleep'
      cases asleep'
    · exact sound.asleep t' r ((update_of_ne mine _ _).symm.trans asleep')
  | resume t error inside awake which =>
    rw [sound.rep.frames] at inside
    rw [sound.rep.wchan] at awake
    obtain ⟨fr,frame⟩ := Option.ne_none_iff_exists'.mp inside
    obtain ⟨s₁,v₁,u,leaves,left,running,loose,known,room⟩ := leaveQueue_spec sound frame awake
    unfold step lfSetlockResume
    dsimp only
    rw [sound.rep.frames,frame]
    dsimp only
    rw [sound.rep.frames] at leaves
    rw [leaves,ok_bind]
    cases error with
    | some e =>
      obtain ⟨s₂,s₃,freed,freed',sound'⟩ := running.finish
      refine ⟨_,s₃,v₁,?_,sound',.interrupted t e fr v₁ left (by simpa using which)⟩
      dsimp only
      rw [freed,ok_bind,ok_bind]
      dsimp only [afterSetlock]
      rw [freed',ok_bind,ok_bind]
    | none =>
      obtain ⟨r,s₂,v',ran,settled,sound₂,spare⟩ := lfSetlock_spec running known room
      obtain ⟨s₃,after,sound'⟩ := afterSetlock_spec sound₂ spare
      refine ⟨_,s₃,v',?_,sound',.again t s₁ s₂ v₁ v' fr u r frame loose awake left running settled⟩
      rw [ran,ok_bind]
      rw [after,ok_bind]

theorem step_defined {op : Op} {r : Option Reply × State} (ran : step c s op = .ok r) : op.Defined := by
  cases op with
  | signal => trivial
  | resume => trivial
  | advlock t uid ap =>
    obtain ⟨_,ran,_⟩ := bind_ok ran
    obtain ⟨r,range,_⟩ := bind_ok ran
    exact ⟨r,range⟩

theorem reached_sound (reached : Reached c s) : ∃ v, Sound c s v [] := by
  induction reached with
  | initial => exact ⟨_,initial_sound c⟩
  | step s s' op reply prior allowed ran ih =>
    obtain ⟨v,sound⟩ := ih
    obtain ⟨reply',s'',v',done,sound',_⟩ := step_spec sound allowed (step_defined ran)
    rw [ran] at done
    cases done
    exact ⟨v',sound'⟩
end NetbsdAvr32.Lockf
