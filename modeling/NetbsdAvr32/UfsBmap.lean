import Mathlib.Tactic.IntervalCases
import Mathlib.Tactic.Ring
import NetbsdAvr32.Outcome

-- sys/ufs/ufs/ufs_bmap.c: the path of indirect blocks to a block of a file.
namespace NetbsdAvr32.UfsBmap
open Outcome Nat List

def ndaddr : Nat := 12
def niaddr : Nat := 3
def efbig : Nat := 27

-- struct indir, without in_exists.
structure Indir where
  inLbn : Int
  inOff : Nat
  deriving DecidableEq, Repr

def blockcnt (lbc : Nat) : Except Halt Int :=
  if 64 ≤ lbc then .error (.fault "shift") else .ok ((2 ^ lbc + 2 ^ 63) % 2 ^ 64 - 2 ^ 63)

def level (lognindir : Nat) : Nat → Int → Nat → Except Halt (Option (Nat × Int × Nat))
  | 0, _, _ => .ok none
  | i + 1, bn, lbc => do
    let lbc := lbc + lognindir
    let blocks ← blockcnt lbc
    if bn < blocks then .ok (some (i + 1,bn,lbc)) else level lognindir i (bn - blocks) lbc

-- The loop over the levels that are left. It quits at the meta-data block it looks for.
def offsets (lognindir : Nat) (realbn : Int) (bn : Nat) : Nat → Int → Nat → List Indir
  | 0, _, _ => []
  | left + 1, metalbn, lbc =>
    if metalbn = realbn then []
    else
      let lbc := lbc - lognindir
      let off := (bn >>> lbc) &&& (2 ^ lognindir - 1)
      ⟨metalbn,off⟩ :: offsets lognindir realbn bn left (metalbn - (-1 + (off <<< lbc : Nat))) lbc

-- The path, or an error.
def ufsGetlbns (lognindir : Nat) (realbn : Int) : Except Halt (Except Nat (List Indir)) :=
  let bn := realbn.natAbs
  if bn < ndaddr then .error (.panic "bn >= NDADDR")
  else do
    match ← level lognindir niaddr (bn - ndaddr) 0 with
    | none => .ok (.error efbig)
    | some (i,pos,lbc) =>
      let metalbn := -(bn - pos + niaddr - i)
      .ok (.ok (⟨metalbn,niaddr - i⟩ :: offsets lognindir realbn pos.toNat (niaddr + 1 - i) metalbn lbc))

-- The blocks of the levels before v, the digits of a position, and the number of the
-- indirect block that the first k digits lead to.
def base (n v : Nat) : Nat := ((List.range v).map fun j => n ^ (j + 1)).sum
def digit (n v q k : Nat) : Nat := q / n ^ (v - k) % n
def reach (n v q k : Nat) : Nat := q / n ^ (v - k + 1) * n ^ (v - k + 1)
def number (n v q k : Nat) : Int := -(ndaddr + base n v + (v - k : Nat) + reach n v q k : Nat)
def entry (n v q k : Nat) : Indir := ⟨number n v q k,digit n v q k⟩
def path (n v q : Nat) : List Indir := ⟨number n v q 0,v⟩ :: (List.range (v + 1)).map (entry n v q)

variable {lognindir n v q k l j left : Nat} {realbn : Int}

theorem base_zero (n : Nat) : base n 0 = 0 := rfl
theorem base_succ (n v : Nat) : base n (v + 1) = base n v + n ^ (v + 1) := by simp [base,range_succ]

theorem base_values (n : Nat) : base n 1 = n ^ (0 + 1) ∧ base n 2 = base n 1 + n ^ (1 + 1) ∧ base n 3 = base n 2 + n ^ (2 + 1) :=
  ⟨(base_succ n 0).trans (zero_add _),base_succ n 1,base_succ n 2⟩

theorem reach_succ (less : k < v) : reach n v q (k + 1) = reach n v q k + digit n v q k * n ^ (v - k) := by
  have exponent : v - (k + 1) + 1 = v - k := by omega
  have split := div_add_mod (q / n ^ (v - k)) n
  rw [Nat.div_div_eq_div_mul,← pow_succ] at split
  unfold reach digit
  rw [exponent]
  calc q / n ^ (v - k) * n ^ (v - k) = (n * (q / n ^ (v - k + 1)) + q / n ^ (v - k) % n) * n ^ (v - k) := by rw [split]
    _ = _ := by ring

theorem number_succ (less : k < v) : number n v q (k + 1) = number n v q k - (-1 + (digit n v q k * n ^ (v - k) : Nat)) := by
  unfold number
  rw [reach_succ less]
  omega

theorem offsets_spec (le : k ≤ v) : offsets lognindir realbn q (v + 1 - k) (number (2 ^ lognindir) v q k) (lognindir * (v + 1 - k)) =
    ((range' k (v + 1 - k)).map (entry (2 ^ lognindir) v q)).takeWhile (·.inLbn ≠ realbn) := by
  generalize rounds : v + 1 - k = left
  induction left generalizing k with
  | zero => omega
  | succ left ih =>
    rw [offsets,range'_succ,map_cons,takeWhile_cons]
    by_cases here : number (2 ^ lognindir) v q k = realbn
    · simp [here,entry]
    have shift : lognindir * (left + 1) - lognindir = lognindir * left := by rw [mul_succ]; omega
    have digit_ : (q >>> (lognindir * left)) &&& (2 ^ lognindir - 1) = digit (2 ^ lognindir) v q k := by
      rw [and_two_pow_sub_one_eq_mod,shiftRight_eq_div_pow,pow_mul,digit,show v - k = left by omega]
    have shifted : digit (2 ^ lognindir) v q k <<< (lognindir * left) = digit (2 ^ lognindir) v q k * (2 ^ lognindir) ^ (v - k) := by
      rw [shiftLeft_eq,pow_mul,show v - k = left by omega]
    simp only [here,if_false,shift,digit_,shifted,entry,ne_eq,not_false_eq_true,decide_true,if_true]
    congr 1
    cases left with
    | zero => rfl
    | succ left =>
      rw [← number_succ (by omega)]
      exact ih (by omega) (by omega)

theorem number_zero (within : q < n ^ (v + 1)) : number n v q 0 = -(ndaddr + base n v + v : Nat) := by
  unfold number reach
  rw [Nat.sub_zero,Nat.div_eq_of_lt within,Nat.zero_mul]
  rfl

theorem blockcnt_eq {lbc : Nat} (small : lbc ≤ 62) : blockcnt lbc = .ok (2 ^ lbc : Nat) := by
  have most : 2 ^ lbc ≤ 2 ^ 62 := Nat.pow_le_pow_right (by decide) small
  unfold blockcnt
  rw [if_neg (by omega)]
  have cast : (2 : Int) ^ lbc = (2 ^ lbc : Nat) := by push_cast; rfl
  rw [cast]
  generalize 2 ^ lbc = blocks at most ⊢
  exact congrArg Except.ok (by omega)

section Levels
variable (low : 1 ≤ lognindir) (fits : 3 * lognindir ≤ 62)
include low fits

theorem level_round (i k : Nat) (le : v ≤ 2) : level lognindir (i + 1) (k : Nat) (lognindir * v) =
    if k < (2 ^ lognindir) ^ (v + 1) then .ok (some (i + 1,k,lognindir * (v + 1)))
    else level lognindir i (k - (2 ^ lognindir) ^ (v + 1) : Nat) (lognindir * (v + 1)) := by
  have small : lognindir * (v + 1) ≤ 62 := by
    have := mul_le_mul_left lognindir (show v + 1 ≤ 3 by omega)
    omega
  rw [level,← mul_succ]
  simp only [succ_eq_add_one,blockcnt_eq small,ok_bind,← pow_mul]
  by_cases less : k < 2 ^ (lognindir * (v + 1))
  · rw [if_pos (Int.ofNat_lt.mpr less),if_pos less]
  · rw [if_neg (fun less' => less (Int.ofNat_lt.mp less')),if_neg less,Int.ofNat_sub (not_lt.mp less)]

theorem level_at (le : v ≤ 2) (within : q < (2 ^ lognindir) ^ (v + 1)) :
    level lognindir niaddr (base (2 ^ lognindir) v + q : Nat) 0 = .ok (some (niaddr - v,q,lognindir * (v + 1))) := by
  have first := level_round low fits 2 (base (2 ^ lognindir) v + q) (show 0 ≤ 2 by decide)
  have second := level_round low fits 1 (base (2 ^ lognindir) v + q - (2 ^ lognindir) ^ (0 + 1)) (show 1 ≤ 2 by decide)
  have third := level_round low fits 0 (base (2 ^ lognindir) v + q - (2 ^ lognindir) ^ (0 + 1) - (2 ^ lognindir) ^ (1 + 1)) (show 2 ≤ 2 by decide)
  refine first.trans ?_
  interval_cases v
  · rw [base_zero,zero_add,if_pos within]
    rfl
  · have left : base (2 ^ lognindir) 1 + q - (2 ^ lognindir) ^ (0 + 1) = q := by
      rw [base_succ,base_zero]
      omega
    rw [if_neg (by rw [base_succ]; omega),second,left,if_pos within]
    rfl
  have all : base (2 ^ lognindir) 2 = (2 ^ lognindir) ^ (0 + 1) + (2 ^ lognindir) ^ (1 + 1) := by
    rw [base_succ,base_succ,base_zero,zero_add]
  rw [if_neg (by omega),second,if_neg (by omega),third,if_pos (by omega)]
  have left : base (2 ^ lognindir) 2 + q - (2 ^ lognindir) ^ (0 + 1) - (2 ^ lognindir) ^ (1 + 1) = q := by omega
  rw [left]
  rfl

theorem level_none (beyond : base (2 ^ lognindir) 3 ≤ k) : level lognindir niaddr k 0 = .ok none := by
  rw [base_succ,base_succ,base_succ,base_zero] at beyond
  refine (level_round low fits 2 k (show 0 ≤ 2 by decide)).trans ?_
  rw [if_neg (by omega),level_round low fits 1 _ (show 1 ≤ 2 by decide),if_neg (by omega),level_round low fits 0 _ (show 2 ≤ 2 by decide),if_neg (by omega)]
  rfl

theorem ufsGetlbns_at (le : v ≤ 2) (within : q < (2 ^ lognindir) ^ (v + 1)) (block : realbn.natAbs = ndaddr + base (2 ^ lognindir) v + q) :
    ufsGetlbns lognindir realbn = .ok (.ok (⟨number (2 ^ lognindir) v q 0,v⟩ ::
      ((range (v + 1)).map (entry (2 ^ lognindir) v q)).takeWhile (·.inLbn ≠ realbn))) := by
  have enough : ¬realbn.natAbs < ndaddr := by omega
  have position : ((realbn.natAbs : Int) - ndaddr) = (base (2 ^ lognindir) v + q : Nat) := by omega
  have first : -((realbn.natAbs : Int) - q + niaddr - (niaddr - v : Nat)) = number (2 ^ lognindir) v q 0 := by
    rw [number_zero within,block]
    unfold niaddr
    omega
  have count : niaddr + 1 - (niaddr - v) = v + 1 := by unfold niaddr; omega
  have index : niaddr - (niaddr - v) = v := by unfold niaddr; omega
  have rest := @offsets_spec lognindir v q 0 realbn (zero_le v)
  rw [Nat.sub_zero,← range_eq_range'] at rest
  simp only [ufsGetlbns,enough,if_false,position,level_at low fits le within,ok_bind,first,count,index,Int.toNat_natCast,rest]
end Levels

theorem inner_lt (some_ : 1 < n) (le : k ≤ v) (within : q < n ^ (v + 1)) : v - k + reach n v q k < n ^ (v + 1) := by
  have small : v - k < n ^ (v - k + 1) := Nat.lt_of_lt_of_le (Nat.lt_pow_self some_) (Nat.pow_le_pow_right (by omega) (Nat.le_succ _))
  have whole : n ^ (v + 1) = n ^ k * n ^ (v - k + 1) := by
    rw [← pow_add]
    congr 1
    omega
  have less : q / n ^ (v - k + 1) < n ^ k := Nat.div_lt_of_lt_mul (by rw [Nat.mul_comm,← whole]; exact within)
  have := Nat.mul_le_mul_right (n ^ (v - k + 1)) (Nat.succ_le_of_lt less)
  rw [← whole,Nat.succ_mul] at this
  unfold reach
  omega

theorem inner_div (some_ : 1 < n) {m : Nat} (le : v - k + 1 ≤ m) : (v - k + reach n v q k) / n ^ m = q / n ^ m := by
  have small : v - k < n ^ (v - k + 1) := Nat.lt_of_lt_of_le (Nat.lt_pow_self some_) (Nat.pow_le_pow_right (by omega) (Nat.le_succ _))
  obtain ⟨more,rfl⟩ := Nat.exists_eq_add_of_le le
  rw [pow_add,← Nat.div_div_eq_div_mul,← Nat.div_div_eq_div_mul]
  congr 1
  rw [reach,Nat.add_mul_div_right _ _ (Nat.pow_pos (by omega)),Nat.div_eq_of_lt small,Nat.zero_add]

theorem inner_number (some_ : 1 < n) (le : j ≤ k) (le' : k ≤ v) : number n v (v - k + reach n v q k) j = number n v q j := by
  have same : reach n v (v - k + reach n v q k) j = reach n v q j := congrArg (· * n ^ (v - j + 1)) (inner_div some_ (by omega))
  unfold number
  rw [same]

theorem inner_entry (some_ : 1 < n) (less : j < k) (le : k ≤ v) : entry n v (v - k + reach n v q k) j = entry n v q j := by
  unfold entry
  rw [inner_number some_ (le_of_lt less) le,digit,inner_div some_ (by omega)]
  rfl

theorem number_ne (le : v < n) (less : j < k) (le' : k ≤ v) : number n v q j ≠ number n v q k := by
  intro same
  have rest : ∀ i,(v - i + reach n v q i) % n = v - i := fun i => by
    rw [reach,pow_succ,← mul_assoc,add_mul_mod_self_right]
    exact mod_eq_of_lt (by omega)
  have equal : v - j + reach n v q j = v - k + reach n v q k := by
    unfold number at same
    omega
  have := rest j
  rw [equal,rest k] at this
  omega

theorem path_take (le : k ≤ v) : (path n v q).take (k + 1) = ⟨number n v q 0,v⟩ :: (range k).map (entry n v q) := by
  unfold path
  rw [take_succ_cons,← map_take,take_range,min_eq_left (by omega)]

section Paths
variable (low : 2 ≤ lognindir) (fits : 3 * lognindir ≤ 62)
include low fits

theorem getlbns_data (le : v ≤ 2) (within : q < (2 ^ lognindir) ^ (v + 1)) :
    ufsGetlbns lognindir (ndaddr + base (2 ^ lognindir) v + q : Nat) = .ok (.ok (path (2 ^ lognindir) v q)) := by
  have all : ∀ e ∈ (range (v + 1)).map (entry (2 ^ lognindir) v q),decide (e.inLbn ≠ (ndaddr + base (2 ^ lognindir) v + q : Nat)) = true := by
    intro e mem
    obtain ⟨k,_,rfl⟩ := mem_map.mp mem
    have negative : (entry (2 ^ lognindir) v q k).inLbn ≤ 0 := Int.neg_nonpos_of_nonneg (Int.natCast_nonneg _)
    unfold ndaddr
    exact decide_eq_true (by omega)
  have whole := @takeWhile_append_of_pos _ _ _ [] all
  rw [takeWhile_nil,append_nil] at whole
  rw [ufsGetlbns_at (by omega) fits le within (Int.natAbs_natCast _),whole]
  rfl

theorem getlbns_meta (le : v ≤ 2) (within : q < (2 ^ lognindir) ^ (v + 1)) (le' : k ≤ v) :
    ufsGetlbns lognindir (number (2 ^ lognindir) v q k) = .ok (.ok ((path (2 ^ lognindir) v q).take (k + 1))) := by
  have four : 2 ^ 2 ≤ 2 ^ lognindir := Nat.pow_le_pow_right (by decide) low
  have some_ : 1 < 2 ^ lognindir := by omega
  have block : (number (2 ^ lognindir) v q k).natAbs = ndaddr + base (2 ^ lognindir) v + (v - k + reach (2 ^ lognindir) v q k) := by
    unfold number
    omega
  rw [ufsGetlbns_at (by omega) fits le (inner_lt some_ le' within) block,path_take le',inner_number some_ (zero_le k) le']
  have split : v + 1 = k + (v - k + 1) := by omega
  have before : ∀ e ∈ (range k).map (entry (2 ^ lognindir) v q),decide (e.inLbn ≠ number (2 ^ lognindir) v q k) = true := by
    intro e mem
    obtain ⟨j,less,rfl⟩ := mem_map.mp mem
    exact decide_eq_true (number_ne (by omega) (mem_range.mp less) le')
  have same : (range k).map (entry (2 ^ lognindir) v (v - k + reach (2 ^ lognindir) v q k)) = (range k).map (entry (2 ^ lognindir) v q) :=
    map_congr_left fun j less => inner_entry some_ (mem_range.mp less) le'
  have here : (entry (2 ^ lognindir) v (v - k + reach (2 ^ lognindir) v q k) k).inLbn = number (2 ^ lognindir) v q k :=
    inner_number some_ (le_refl k) le'
  rw [split,range_add,map_append,same,takeWhile_append_of_pos before,range_succ_eq_map]
  simp [here]

theorem getlbns_cases (bn : Nat) (enough : ndaddr ≤ bn) :
    (∃ v q,v ≤ 2 ∧ q < (2 ^ lognindir) ^ (v + 1) ∧ bn = ndaddr + base (2 ^ lognindir) v + q) ∨
      ndaddr + base (2 ^ lognindir) 3 ≤ bn ∧ ufsGetlbns lognindir bn = .ok (.error efbig) := by
  obtain ⟨k,rfl⟩ := Nat.exists_eq_add_of_le enough
  obtain ⟨first,second,third⟩ := base_values (2 ^ lognindir)
  by_cases beyond : base (2 ^ lognindir) 3 ≤ k
  · refine .inr ⟨by omega,?_⟩
    have position : (((ndaddr + k : Nat) : Int).natAbs : Int) - ndaddr = k := by omega
    have enough : ¬((ndaddr + k : Nat) : Int).natAbs < ndaddr := by omega
    simp only [ufsGetlbns,enough,if_false,position,level_none (by omega) fits beyond,ok_bind]
  refine .inl ?_
  by_cases one : k < base (2 ^ lognindir) 1
  · exact ⟨0,k,by decide,by omega,by rw [base_zero]; rfl⟩
  by_cases two : k < base (2 ^ lognindir) 2
  · exact ⟨1,k - base (2 ^ lognindir) 1,by decide,by omega,by omega⟩
  · exact ⟨2,k - base (2 ^ lognindir) 2,by decide,by omega,by omega⟩
end Paths

theorem position_eq {q' : Nat} (within : q < n ^ (v + 1)) (within' : q' < n ^ (v + 1)) (digits : ∀ k ≤ v,digit n v q k = digit n v q' k) : q = q' := by
  have reached : ∀ k ≤ v,reach n v q k = reach n v q' k := by
    intro k
    induction k with
    | zero =>
      intro _
      unfold reach
      rw [Nat.sub_zero,Nat.div_eq_of_lt within,Nat.div_eq_of_lt within']
    | succ k ih =>
      intro less
      rw [reach_succ less,reach_succ less,ih (le_of_lt less),digits k (le_of_lt less)]
  have last := digits v (le_refl v)
  have all := reached v (le_refl v)
  unfold digit at last
  unfold reach at all
  rw [Nat.sub_self,pow_zero,Nat.div_one,Nat.div_one] at last
  rw [Nat.sub_self,Nat.zero_add,pow_one] at all
  rw [← div_add_mod' q n,← div_add_mod' q' n,all,last]

-- The path to a data block: the level, the digits of the position in it, and indirect blocks whose
-- numbers are decoded to the path that leads to them.
structure Addresses (lognindir bn : Nat) (p : List Indir) : Prop where
  offsets : ∃ v q,v ≤ 2 ∧ q < (2 ^ lognindir) ^ (v + 1) ∧ bn = ndaddr + base (2 ^ lognindir) v + q ∧
    p.map (·.inOff) = v :: (List.range (v + 1)).map (digit (2 ^ lognindir) v q)
  small : ∀ e ∈ p.tail,e.inOff < 2 ^ lognindir
  negative : ∀ e ∈ p,e.inLbn < 0
  decoded : ∀ i e,1 ≤ i → p[i]? = some e → ufsGetlbns lognindir e.inLbn = .ok (.ok (p.take i))

theorem number_neg : number n v q k < 0 := by
  unfold number ndaddr
  omega

theorem path_addresses (low : 2 ≤ lognindir) (fits : 3 * lognindir ≤ 62) (le : v ≤ 2) (within : q < (2 ^ lognindir) ^ (v + 1)) :
    Addresses lognindir (ndaddr + base (2 ^ lognindir) v + q) (path (2 ^ lognindir) v q) := by
  refine ⟨⟨v,q,le,within,rfl,?_⟩,fun e mem => ?_,fun e mem => ?_,fun i e some_ at_ => ?_⟩
  · simp [path,Function.comp_def,entry]
  · obtain ⟨k,_,rfl⟩ := mem_map.mp mem
    exact Nat.mod_lt _ (Nat.two_pow_pos _)
  · rcases mem_cons.mp mem with rfl | later
    · exact number_neg
    obtain ⟨k,_,rfl⟩ := mem_map.mp later
    exact number_neg
  obtain ⟨k,rfl⟩ := exists_eq_succ_of_ne_zero (ne_of_gt some_)
  obtain ⟨j,here,rfl⟩ := getElem?_map .. ▸ at_ |> Option.map_eq_some_iff.mp
  obtain ⟨less,rfl⟩ := List.getElem?_eq_some_iff.mp here
  rw [length_range] at less
  rw [getElem_range]
  exact getlbns_meta low fits le within (le_of_lt_succ less)

-- The addressing is right where an indirect block has at least four addresses and three levels fit an int64_t.
theorem getlbns_exact (lognindir : Nat) (low : 2 ≤ lognindir) (fits : 3 * lognindir ≤ 62) :
    (∀ bn : Nat,ndaddr ≤ bn → if ndaddr + base (2 ^ lognindir) 3 ≤ bn then ufsGetlbns lognindir bn = .ok (.error efbig)
      else ∃ p,ufsGetlbns lognindir bn = .ok (.ok p) ∧ Addresses lognindir bn p) ∧
    (∀ bn bn' p p',Addresses lognindir bn p → Addresses lognindir bn' p' → p.map (·.inOff) = p'.map (·.inOff) → bn = bn') ∧
    ∀ bn bn' p p',Addresses lognindir bn p → Addresses lognindir bn' p' → ∀ i i' e e',1 ≤ i → 1 ≤ i' → p[i]? = some e → p'[i']? = some e' →
      e.inLbn = e'.inLbn → p.take i = p'.take i' := by
  refine ⟨fun bn enough => ?_,fun bn bn' p p' first second same => ?_,fun bn bn' p p' first second i i' e e' some_ some' at_ at' same => ?_⟩
  · rcases getlbns_cases low fits bn enough with ⟨v,q,le,within,rfl⟩ | ⟨beyond,failed⟩
    · have last : base (2 ^ lognindir) v + q < base (2 ^ lognindir) 3 := by
        obtain ⟨first,second,third⟩ := base_values (2 ^ lognindir)
        have zero := base_zero (2 ^ lognindir)
        interval_cases v
        · omega
        · omega
        · omega
      rw [if_neg (by omega)]
      exact ⟨_,getlbns_data low fits le within,path_addresses low fits le within⟩
    · rw [if_pos beyond]
      exact failed
  · obtain ⟨v,q,_,within,rfl,offs⟩ := first.offsets
    obtain ⟨v',q',_,within',rfl,offs'⟩ := second.offsets
    rw [offs,offs'] at same
    obtain ⟨rfl,digits⟩ := cons.inj same
    have equal := position_eq within within' fun k le => map_inj_left.mp digits k (mem_range.mpr (lt_succ_of_le le))
    rw [equal]
  · have decoded := first.decoded i e some_ at_
    rw [same,second.decoded i' e' some' at'] at decoded
    exact (Except.ok.inj (Except.ok.inj decoded)).symm

theorem getlbns_exact_four : ∃ p,ufsGetlbns 2 (17 : Nat) = .ok (.ok p) ∧ Addresses 2 17 p := by
  have found := (getlbns_exact 2 (by decide) (by decide)).1 17 (by decide)
  rwa [if_neg (by decide)] at found

-- With two addresses in an indirect block, the number of the triple indirect block is also that of an
-- indirect block it leads to. With 2^21, the blocks of the third level are too many for an int64_t.
theorem getlbns_clash : (¬∀ lognindir ≥ 1,∀ (bn : Nat) p,ufsGetlbns lognindir bn = .ok (.ok p) →
      ∀ i e,1 ≤ i → p[i]? = some e → ufsGetlbns lognindir e.inLbn = .ok (.ok (p.take i))) ∧
    ¬∀ lognindir ≥ 1,∀ bn : Nat,ndaddr ≤ bn → bn < ndaddr + base (2 ^ lognindir) 3 → ufsGetlbns lognindir bn ≠ .ok (.error efbig) := by
  refine ⟨fun claim => ?_,fun claim => ?_⟩
  · have found : ufsGetlbns 1 (20 : Nat) = .ok (.ok [⟨-20,2⟩,⟨-20,0⟩,⟨-19,1⟩,⟨-20,0⟩]) := by decide
    have decoded := claim 1 (by decide) 20 _ found 3 ⟨-20,0⟩ (by decide) rfl
    revert decoded
    decide
  · exact claim 21 (by decide) (ndaddr + base (2 ^ 21) 2) (by decide) (by decide) (by decide)
end NetbsdAvr32.UfsBmap
