import NetbsdAvr32.CopyStr

-- The routines of arch/avr32/avr32/copy.S that access user memory: which user
-- addresses a call reads or writes. No access faults.
namespace NetbsdAvr32.CopyUser
open ByteSpace CopyStr BitVec Nat List

def vmMaxuserAddress : Nat := 0x80000000

-- A call: the user addresses it accesses, r12 on return (none where it panics), and
-- the memory it leaves.
structure Ran where
  user : List Word
  r12 : Option Word
  mem : Space 32

def bytesFrom (a : Word) (n : Nat) : List Word := (List.range n).map (place a)

-- PANIC at copyerr and at fswberr.
def panics (s : Cpu) : Ran := ⟨[],none,s.mem⟩
def memcpy (s : Cpu) : Cpu := {s with mem := moveUp 1 s.r10.toNat s.r11 s.r12 s.mem}

-- The arguments are r12 (uaddr), r11 (kaddr) and r10 (len).
def copyin (s : Cpu) : Ran :=
  if s.r12.sle 0 then panics s
  else ⟨bytesFrom s.r12 s.r10.toNat,some 0,(memcpy {s with r8 := s.r12,r12 := s.r11,r11 := s.r12}).mem⟩

-- r12 (kaddr), r11 (uaddr) and r10 (len)
def copyout (s : Cpu) : Ran :=
  if s.r11.slt 0 then panics s
  else ⟨bytesFrom s.r11 s.r10.toNat,some 0,(memcpy {s with r8 := s.r12,r12 := s.r11,r11 := s.r12}).mem⟩

-- What label 1 of copyinstr and of copyoutstr loads from, or stores to, round by round.
def walk (pointer : Cpu → Word) (nul full : Cpu → Cpu) (s : Cpu) : List Word × Cpu :=
  let r8 := ldUb s.mem s.r12
  let next : Cpu := {s with r8, r10 := s.r10 - 1, mem := stB s.mem s.r11 r8}
  if r8 = 0 then ([pointer s],nul next)
  else if more : s.r10 - 1 = 0 then ([pointer s],full {next with r12 := next.r12 + 1, r11 := next.r11 + 1})
  else
    let rest := walk pointer nul full {next with r12 := next.r12 + 1, r11 := next.r11 + 1}
    (pointer s :: rest.1,rest.2)
termination_by (s.r10 - 1).toNat
decreasing_by exact count_down s.r10 more

-- r12 (uaddr), r11 (kaddr), r10 (maxlen) and r9 (lencopied)
def copyinstr (s : Cpu) : Ran :=
  let s := {s with r7 := s.r10}
  let left := if s.r10 = 0 then ([],copyinstr.label4 s) else walk Cpu.r12 copyinstr.label2 copyinstr.label2 s
  ⟨left.1,some left.2.r12,left.2.mem⟩

-- r12 (kaddr), r11 (uaddr), r10 (maxlen) and r9 (lencopied)
def copyoutstr (s : Cpu) : Ran :=
  let s := {s with r7 := s.r10}
  let left := if s.r10 = 0 then ([],copyoutstr.label4 s)
    else walk Cpu.r11 (fun s => copyoutstr.label2 {s with r12 := 0}) copyoutstr.label4 s
  ⟨left.1,some left.2.r12,left.2.mem⟩

-- r12 (uaddr) and r11 (the value)
def suword (s : Cpu) : Ran := if s.r12.sle 0 then panics s else ⟨bytesFrom s.r12 4,some 0,stW s.mem s.r12 s.r11⟩
def subyte (s : Cpu) : Ran := ⟨bytesFrom s.r12 1,some 0,stB s.mem s.r12 s.r11⟩

def Inside (u : Word) (n : Nat) : Prop := n = 0 ∨ u.toNat + n ≤ vmMaxuserAddress

-- What is asked of a call for the n bytes from u on, that writes the bytes of `to`.
structure Keeps (s : Cpu) (ran : Ran) (u : Word) (n : Nat) (dest : Word → Prop) : Prop where
  user : ∀ a ∈ ran.user, a.toNat < vmMaxuserAddress
  error : ¬Inside u n → ∃ e, ran.r12 = some e ∧ e ≠ 0
  kernel : ¬Inside u n → ∀ x, vmMaxuserAddress ≤ x.toNat → ¬dest x → ran.mem x = s.mem x

variable {s : Cpu} {ran : Ran} {u : Word} {n : Nat} {dest : Word → Prop} {pointer : Cpu → Word} {nul full : Cpu → Cpu}

theorem bytes_inside : (∀ a ∈ bytesFrom u n, a.toNat < vmMaxuserAddress) ↔ Inside u n := by
  have value (i : Nat) : (place u i).toNat = (u.toNat + i) % 4294967296 := by
    unfold place
    rw [toNat_add,toNat_ofNat,add_mod_mod]
  unfold Inside vmMaxuserAddress
  constructor
  · intro low
    by_contra outside
    have last := low (place u (2147483648 - u.toNat)) (mem_map_of_mem (mem_range.mpr (by omega)))
    rw [value] at last
    omega
  intro inside a member
  obtain ⟨i,below,rfl⟩ := mem_map.mp member
  have := mem_range.mp below
  rw [value]
  omega

theorem keeps_iff (touches : ran.user = bytesFrom u n ∨ ran.user = [] ∧ ran.r12 = none) : Keeps s ran u n dest ↔ Inside u n := by
  rcases touches with all | ⟨none_,stuck⟩
  · constructor
    · intro keeps
      exact bytes_inside.mp (all ▸ keeps.user)
    intro inside
    exact ⟨all ▸ bytes_inside.mpr inside,fun outside => absurd inside outside,fun outside => absurd inside outside⟩
  constructor
  · intro keeps
    by_contra outside
    obtain ⟨e,returned,_⟩ := keeps.error outside
    rw [stuck] at returned
    cases returned
  intro inside
  refine ⟨fun a member => ?_,fun outside => absurd inside outside,fun outside => absurd inside outside⟩
  rw [none_] at member
  cases member

-- The bytes of a string up to and with its NUL, at most maxlen, each read once the
-- bytes before it have been copied.
def reach : Nat → Word → Word → Space 32 → Nat
  | 0,_,_,_ => 0
  | n+1,source,target,mem => if mem source = 0 then 1 else reach n (place source 1) (place target 1) (store 1 target (load mem 1 source) mem) + 1

theorem walk_loop (pointer : Cpu → Word) (s : Cpu) : (walk pointer nul full s).2 = loop nul full s := by
  fun_induction walk pointer nul full s with
  | case1 s r8 next zero =>
    rw [loop]
    rw [if_pos zero]
  | case2 s r8 next other last =>
    rw [loop]
    rw [if_neg other,dif_pos last]
  | case3 s r8 next other more rest ih =>
    rw [loop]
    rw [if_neg other,dif_neg more]
    exact ih

theorem bytes_succ (a : Word) (n : Nat) : bytesFrom a (n + 1) = a :: bytesFrom (place a 1) n := by
  unfold bytesFrom
  rw [range_succ_eq_map,map_cons,map_map,place_zero]
  refine congrArg (a :: ·) (map_congr_left fun i _ => ?_)
  rw [place_place,add_comm 1 i]
  rfl

theorem walk_bytes (moves : ∀ (s : Cpu) (r8 r10 : Word) (mem : Space 32), pointer {s with r8,r10,mem,r12 := s.r12 + 1,r11 := s.r11 + 1} = pointer s + 1)
    (n : Nat) (s : Cpu) (count : s.r10.toNat = n + 1) :
    (walk pointer nul full s).1 = bytesFrom (pointer s) (reach (n + 1) s.r12 s.r11 s.mem) := by
  induction n generalizing s with
  | zero =>
    have one : s.r10 = 1 := eq_of_toNat_eq count
    have single : reach (0 + 1) s.r12 s.r11 s.mem = 1 := by
      unfold reach
      split <;> rfl
    rw [single,bytes_succ,walk]
    split
    · rfl
    rw [dif_pos (by rw [one]; rfl)]
    rfl
  | succ n ih =>
    by_cases zero : s.mem s.r12 = 0
    · rw [walk]
      rw [if_pos ((ldUb_zero _ _).mpr zero),reach,if_pos zero,bytes_succ]
      rfl
    have more : s.r10 - 1 ≠ 0 := by
      intro zero
      have one : s.r10 = 1 := by
        rw [← BitVec.sub_add_cancel s.r10 1,zero]
        rfl
      rw [one] at count
      cases count
    have down : (s.r10 - 1).toNat = n + 1 := by
      rw [toNat_sub,count]
      show (4294967296 - 1 + (n + 1 + 1)) % 4294967296 = _
      omega
    rw [walk]
    rw [if_neg fun null => zero ((ldUb_zero _ _).mp null),dif_neg more,reach,if_neg zero,bytes_succ]
    have rest := ih {s with r8 := ldUb s.mem s.r12,r10 := s.r10 - 1,mem := stB s.mem s.r11 (ldUb s.mem s.r12),r12 := s.r12 + 1,r11 := s.r11 + 1} down
    rw [moves,stB_ldUb] at rest
    refine congrArg (pointer s :: ·) ?_
    rw [stB_ldUb]
    exact rest

theorem copyinstr_user (s : Cpu) : (copyinstr s).user = bytesFrom s.r12 (reach s.r10.toNat s.r12 s.r11 s.mem) := by
  unfold copyinstr
  dsimp only
  by_cases none_ : s.r10 = 0
  · rw [if_pos none_,none_]
    rfl
  obtain ⟨n,count⟩ := exists_eq_succ_of_ne_zero fun zero => none_ (eq_of_toNat_eq zero)
  rw [if_neg none_,count]
  exact walk_bytes (fun _ _ _ _ => rfl) n {s with r7 := s.r10} count

theorem copyoutstr_user (s : Cpu) : (copyoutstr s).user = bytesFrom s.r11 (reach s.r10.toNat s.r12 s.r11 s.mem) := by
  unfold copyoutstr
  dsimp only
  by_cases none_ : s.r10 = 0
  · rw [if_pos none_,none_]
    rfl
  obtain ⟨n,count⟩ := exists_eq_succ_of_ne_zero fun zero => none_ (eq_of_toNat_eq zero)
  rw [if_neg none_,count]
  exact walk_bytes (fun _ _ _ _ => rfl) n {s with r7 := s.r10} count

theorem copyinstr_same (s : Cpu) : (copyinstr s).r12 = some (CopyStr.copyinstr s).r12 ∧ (copyinstr s).mem = (CopyStr.copyinstr s).mem := by
  unfold copyinstr CopyStr.copyinstr
  dsimp only
  split
  · exact ⟨rfl,rfl⟩
  rw [walk_loop]
  exact ⟨rfl,rfl⟩

theorem copyoutstr_same (s : Cpu) : (copyoutstr s).r12 = some (CopyStr.copyoutstr s).r12 ∧ (copyoutstr s).mem = (CopyStr.copyoutstr s).mem := by
  unfold copyoutstr CopyStr.copyoutstr
  dsimp only
  split
  · exact ⟨rfl,rfl⟩
  rw [walk_loop]
  exact ⟨rfl,rfl⟩

theorem copyin_exact (s : Cpu) (dest : Word → Prop) : Keeps s (copyin s) s.r12 s.r10.toNat dest ↔ Inside s.r12 s.r10.toNat := by
  refine keeps_iff ?_
  unfold copyin
  split
  · exact .inr ⟨rfl,rfl⟩
  · exact .inl rfl

-- Every one of the six keeps to user space for the requests that lie in it, and for
-- no others.
theorem user_access_exact (s : Cpu) :
    (Keeps s (copyin s) s.r12 s.r10.toNat (· ∈ bytesFrom s.r11 s.r10.toNat) ↔ Inside s.r12 s.r10.toNat) ∧
    (Keeps s (copyout s) s.r11 s.r10.toNat (· ∈ bytesFrom s.r11 s.r10.toNat) ↔ Inside s.r11 s.r10.toNat) ∧
    (Keeps s (copyinstr s) s.r12 (reach s.r10.toNat s.r12 s.r11 s.mem) (· ∈ bytesFrom s.r11 s.r10.toNat) ↔
      Inside s.r12 (reach s.r10.toNat s.r12 s.r11 s.mem)) ∧
    (Keeps s (copyoutstr s) s.r11 (reach s.r10.toNat s.r12 s.r11 s.mem) (· ∈ bytesFrom s.r11 s.r10.toNat) ↔
      Inside s.r11 (reach s.r10.toNat s.r12 s.r11 s.mem)) ∧
    (Keeps s (suword s) s.r12 4 (· ∈ bytesFrom s.r12 4) ↔ Inside s.r12 4) ∧
    (Keeps s (subyte s) s.r12 1 (· ∈ bytesFrom s.r12 1) ↔ Inside s.r12 1) := by
  refine ⟨copyin_exact s _,keeps_iff ?_,keeps_iff (.inl (copyinstr_user s)),keeps_iff (.inl (copyoutstr_user s)),keeps_iff ?_,keeps_iff (.inl rfl)⟩
  · unfold copyout
    split
    · exact .inr ⟨rfl,rfl⟩
    · exact .inl rfl
  unfold suword
  split
  · exact .inr ⟨rfl,rfl⟩
  · exact .inl rfl

theorem copyin_runs_past : ¬ ∀ s : Cpu, Keeps s (copyin s) s.r12 s.r10.toNat (· ∈ bytesFrom s.r11 s.r10.toNat) := by
  intro keeps
  have inside := (copyin_exact ⟨0,0,0,32,0xC0000000,0x7FFFFFF0,fun _ => 0⟩ _).mp (keeps _)
  exact absurd inside (by unfold Inside vmMaxuserAddress; decide)
end NetbsdAvr32.CopyUser
