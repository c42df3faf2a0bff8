import Mathlib.Tactic.Ring
import NetbsdAvr32.FfsBlock

-- The tables agree with the runs of a block, and ffs_mapsearch finds a run if the group has one.
namespace NetbsdAvr32.FfsBlock
open ByteMap RingBuffer BoolRuns Nat List Bool
variable {fs : Fs} {a : Nat → Byte} {h i j k n x siz pos start : Nat}

def shifted (s : Fin 4) : Fs := ⟨s,0,0,0,0,0⟩

def RunAt (n x siz pos : Nat) : Prop :=
  pos + siz ≤ n ∧ (∀ i < siz,x.testBit (pos + i) = true) ∧ (pos = 0 ∨ x.testBit (pos - 1) = false) ∧ (pos + siz = n ∨ x.testBit (pos + siz) = false)

instance (n x siz pos : Nat) : Decidable (RunAt n x siz pos) := inferInstanceAs (Decidable (_ ∧ _ ∧ _ ∧ _))

def RunIn (fs : Fs) (a : Nat → Byte) (h siz pos : Nat) : Prop :=
  pos + siz ≤ fs.frag ∧ (∀ i < siz,isset a (h * fs.frag + (pos + i)) = true) ∧ (pos = 0 ∨ isset a (h * fs.frag + (pos - 1)) = false) ∧
    (pos + siz = fs.frag ∨ isset a (h * fs.frag + (pos + siz)) = false)

def siftRight (fs : Fs) (x siz : Nat) : Bool :=
  match siftBlock fs x siz with
  | none => siz ∉ runs (bitsOf fs.frag x)
  | some pos => RunAt fs.frag x siz pos

theorem fragHits_table : ∀ s : Fin 4,∀ x < 2 ^ (2 ^ s.val),∀ siz < 2 ^ s.val,1 ≤ siz →
    fragHits (shifted s) x siz = if x = 2 ^ (2 ^ s.val) - 1 then 0 else (runs (bitsOf (2 ^ s.val) x)).count siz := by
  decide +kernel

theorem fragtbl_table : ∀ s : Fin 4,∀ y < 256,∀ siz < 9,1 ≤ siz → siz ≤ 2 ^ s.val →
    (fragtbl (shifted s) y &&& 1 <<< (siz - 1 + 2 ^ s.val % NBBY) ≠ 0 ↔
      ((range (NBBY / 2 ^ s.val)).any fun j => siz ∈ runs (bitsOf (2 ^ s.val) (y >>> (j * 2 ^ s.val) &&& 0xff >>> (NBBY - 2 ^ s.val)))) = true) := by
  decide +kernel

theorem sift_table : ∀ s : Fin 4,∀ x < 2 ^ (2 ^ s.val),∀ siz < 9,1 ≤ siz → siz ≤ 2 ^ s.val → siftRight (shifted s) x siz = true := by
  decide +kernel

theorem frag_le (fs : Fs) : fs.frag ≤ NBBY := by
  rcases frag_cases fs with ⟨-,frag⟩ | ⟨-,frag⟩ | ⟨-,frag⟩ | ⟨-,frag⟩ <;> rw [frag] <;> decide

theorem frag_dvd (fs : Fs) : NBBY / fs.frag * fs.frag = NBBY := by
  rcases frag_cases fs with ⟨-,frag⟩ | ⟨-,frag⟩ | ⟨-,frag⟩ | ⟨-,frag⟩ <;> rw [frag] <;> rfl

def full (fs : Fs) (a : Nat → Byte) (h : Nat) : Bool := (bits fs a h).all id

theorem full_iff : full fs a h = true ↔ ∀ i < fs.frag,isset a (h * fs.frag + i) = true := by
  unfold full bits slice
  simp [all_map]

theorem full_eq_isblock (fs : Fs) (a : Nat → Byte) (h : Nat) : isblock fs a h = full fs a h :=
  eq_iff_iff.mpr (isblock_iff.trans full_iff.symm)

theorem blkmap_full : blkmap fs a (h * fs.frag) = 2 ^ fs.frag - 1 ↔ full fs a h = true := by
  rw [full_iff]
  constructor
  · intro same i low
    have bit := blkmap_testBit fs a h i
    rw [same,testBit_two_pow_sub_one,decide_eq_true low,Bool.true_and] at bit
    exact bit.symm
  intro set
  apply eq_of_testBit_eq
  intro i
  rw [blkmap_testBit,testBit_two_pow_sub_one]
  by_cases low : i < fs.frag
  · rw [decide_eq_true low,Bool.true_and,set i low]
  · rw [decide_eq_false low,Bool.false_and]

theorem fragHits_eq (fs : Fs) (a : Nat → Byte) (h : Nat) (pos : 1 ≤ siz) (low : siz < fs.frag) :
    fragHits fs (blkmap fs a (h * fs.frag)) siz = if full fs a h then 0 else (runs (bits fs a h)).count siz := by
  have table := fragHits_table fs.fragshift (blkmap fs a (h * fs.frag)) (blkmap_lt fs a h) siz low pos
  rw [show (2 : Nat) ^ fs.fragshift.val = fs.frag from rfl,blkmap_bits] at table
  rw [show fragHits fs = fragHits (shifted fs.fragshift) from rfl,table]
  by_cases whole : full fs a h = true
  · rw [if_pos whole,if_pos (blkmap_full.mpr whole)]
  · rw [if_neg whole,if_neg (fun same => whole (blkmap_full.mp same))]

theorem sift_spec (fs : Fs) (a : Nat → Byte) (h : Nat) (pos : 1 ≤ siz) (low : siz ≤ fs.frag) :
    match siftBlock fs (blkmap fs a (h * fs.frag)) siz with
    | none => siz ∉ runs (bits fs a h)
    | some pos => RunIn fs a h siz pos := by
  have frag := frag_le fs
  have table := sift_table fs.fragshift (blkmap fs a (h * fs.frag)) (blkmap_lt fs a h) siz (lt_succ_of_le (le_trans low frag)) pos low
  unfold siftRight at table
  rw [show siftBlock (shifted fs.fragshift) = siftBlock fs from rfl,show (shifted fs.fragshift).frag = fs.frag from rfl] at table
  revert table
  cases siftBlock fs (blkmap fs a (h * fs.frag)) siz with
  | none =>
    intro table
    rw [← blkmap_bits]
    exact of_decide_eq_true table
  | some pos =>
    intro table
    obtain ⟨within,run,left,right⟩ := of_decide_eq_true table
    refine ⟨within,fun i few => ?_,left.imp_right fun clear => ?_,?_⟩
    · have bit := run i few
      rw [blkmap_testBit,and_eq_true] at bit
      exact bit.2
    · rw [blkmap_testBit,decide_eq_true (show pos - 1 < fs.frag by omega),Bool.true_and] at clear
      exact clear
    rcases lt_or_ge (pos + siz) fs.frag with below | last
    · refine right.imp_right fun clear => ?_
      rw [blkmap_testBit,decide_eq_true below,Bool.true_and] at clear
      exact clear
    · exact .inl (le_antisymm within last)

theorem fragtbl_eq (fs : Fs) (a : Nat → Byte) (q : Nat) (pos : 1 ≤ siz) (low : siz ≤ fs.frag) :
    fragtbl fs (a q).toNat &&& 1 <<< (siz - 1 + fs.frag % NBBY) ≠ 0 ↔ ∃ j < NBBY / fs.frag,siz ∈ runs (bits fs a (q * (NBBY / fs.frag) + j)) := by
  have frag := frag_le fs
  have table := fragtbl_table fs.fragshift (a q).toNat (a q).isLt siz (lt_succ_of_le (le_trans low frag)) pos low
  rw [show (2 : Nat) ^ fs.fragshift.val = fs.frag from rfl] at table
  rw [show fragtbl fs = fragtbl (shifted fs.fragshift) from rfl,table,any_eq_true]
  have block {j : Nat} (few : j < NBBY / fs.frag) :
      bitsOf fs.frag ((a q).toNat >>> (j * fs.frag) &&& 0xff >>> (NBBY - fs.frag)) = bits fs a (q * (NBBY / fs.frag) + j) := by
    have whole := frag_dvd fs
    have place : (q * (NBBY / fs.frag) + j) * fs.frag = q * NBBY + j * fs.frag := by
      rw [add_mul,mul_assoc,whole]
    have inside : j * fs.frag < NBBY := by
      rw [← whole]
      exact mul_lt_mul_of_pos_right few (frag_pos fs)
    have byte : (q * NBBY + j * fs.frag) / NBBY = q := by
      rw [mul_comm,mul_add_div (by decide),div_eq_of_lt inside,add_zero]
    have rest : (q * NBBY + j * fs.frag) % NBBY = j * fs.frag := by
      rw [mul_comm,mul_add_mod,mod_eq_of_lt inside]
    rw [← blkmap_bits,place,blkmap,byte,rest]
  constructor
  · rintro ⟨j,mem,run⟩
    have few := mem_range.mp mem
    refine ⟨j,few,?_⟩
    rw [decide_eq_true_iff,block few] at run
    exact run
  rintro ⟨j,few,run⟩
  refine ⟨j,mem_range.mpr few,?_⟩
  rw [decide_eq_true_iff,block few]
  exact run

theorem scan_stop {skipped : Byte → Bool} {cp : Nat → Byte} {size : Nat} (found : skip skipped size cp ≠ 0) :
    size - skip skipped size cp < size ∧ skipped (cp (size - skip skipped size cp)) = false := by
  have le := skip_le skipped size cp
  exact ⟨by omega,skip_stops found⟩

theorem scanMap_spec {q last : Nat} (whole : howmany fs.fpg NBBY = last) (low : q < last) (early : start < last)
    (stop : fragtbl fs (a q).toNat &&& 1 <<< (siz - 1 + fs.frag % NBBY) ≠ 0) :
    ∃ q' < last,scanMap fs a start siz = some q' ∧ fragtbl fs (a q').toNat &&& 1 <<< (siz - 1 + fs.frag % NBBY) ≠ 0 := by
  unfold scanMap scanc
  rw [whole]
  dsimp only
  have stops {b : Byte} : (fragtbl fs b.toNat &&& 1 <<< (siz - 1 + fs.frag % NBBY) == 0) = false ↔
      fragtbl fs b.toNat &&& 1 <<< (siz - 1 + fs.frag % NBBY) ≠ 0 := beq_eq_false_iff_ne
  split
  · rename_i none_
    have before : q < start := by
      refine Nat.lt_of_not_le fun high => ?_
      refine skip_found (i := q - start) (show q - start < last - start by omega) ?_ none_
      rw [Nat.add_sub_cancel' high]
      exact stops.mpr stop
    have found : skip (fun b => fragtbl fs b.toNat &&& 1 <<< (siz - 1 + fs.frag % NBBY) == 0) (start + 1) a ≠ 0 :=
      skip_found (i := q) (by omega) (stops.mpr stop)
    obtain ⟨inside,here⟩ := scan_stop found
    rw [if_neg found]
    exact ⟨_,by omega,rfl,stops.mp here⟩
  rename_i found
  obtain ⟨inside,here⟩ := scan_stop found
  have le := skip_le (fun b => fragtbl fs b.toNat &&& 1 <<< (siz - 1 + fs.frag % NBBY) == 0) (last - start) fun i => a (start + i)
  refine ⟨_,?_,rfl,?_⟩
  · omega
  rw [Nat.add_sub_assoc le]
  exact stops.mp here

theorem siftByte_spec {q : Nat} (pos : 1 ≤ siz) (low : siz ≤ fs.frag) (run : ∃ j < NBBY / fs.frag,siz ∈ runs (bits fs a (q * (NBBY / fs.frag) + j))) :
    ∃ j < NBBY / fs.frag,∃ p,siftByte fs a (q * NBBY) siz = some ((q * (NBBY / fs.frag) + j) * fs.frag + p) ∧
      RunIn fs a (q * (NBBY / fs.frag) + j) siz p := by
  have place (j : Nat) : (q * (NBBY / fs.frag) + j) * fs.frag = q * NBBY + j * fs.frag := by
    rw [add_mul,mul_assoc,frag_dvd fs]
  obtain ⟨j,few,here⟩ := run
  unfold siftByte
  have some_ : ((range (NBBY / fs.frag)).findSome? fun j =>
      (siftBlock fs (blkmap fs a (q * NBBY + j * fs.frag)) siz).map fun pos => q * NBBY + j * fs.frag + pos).isSome = true := by
    rw [findSome?_isSome_iff]
    refine ⟨j,mem_range.mpr few,?_⟩
    have sifts := sift_spec fs a (q * (NBBY / fs.frag) + j) pos low
    rw [place] at sifts
    revert sifts
    cases siftBlock fs (blkmap fs a (q * NBBY + j * fs.frag)) siz with
    | none => exact fun none_ => absurd here none_
    | some p => exact fun _ => rfl
  obtain ⟨bno,found⟩ := Option.isSome_iff_exists.mp some_
  obtain ⟨j,mem,found_⟩ := exists_of_findSome?_eq_some found
  have sifts := sift_spec fs a (q * (NBBY / fs.frag) + j) pos low
  rw [place] at sifts
  revert found_ sifts
  cases siftBlock fs (blkmap fs a (q * NBBY + j * fs.frag)) siz with
  | none => exact fun none_ => nomatch none_
  | some p =>
    intro same run
    cases same
    exact ⟨j,mem_range.mp mem,p,by rw [found,place],run⟩

theorem mem_runs_set (mem : siz ∈ runs (bits fs a h)) (pos : 1 ≤ siz) (low : siz ≤ fs.frag) : ∃ p,RunIn fs a h siz p := by
  have sifts := sift_spec fs a h pos low
  revert sifts
  cases siftBlock fs (blkmap fs a (h * fs.frag)) siz with
  | none => exact fun none_ => absurd mem none_
  | some p => exact fun run => ⟨p,run⟩

theorem mapsearch_spec {cg : Cg} {bpref : Nat} (some_ : 0 < fs.fpg) (rotor : cg.frotor < fs.fpg) (tail : ∀ i,fs.fpg ≤ i → isset cg.blksfree i = false)
    (pos : 1 ≤ siz) (low : siz ≤ fs.frag) (run : siz ∈ runs (bits fs cg.blksfree h)) :
    ∃ b p frotor,mapsearch fs cg bpref siz = some (b * fs.frag + p,{ cg with frotor := frotor }) ∧ frotor < fs.fpg ∧
      RunIn fs cg.blksfree b siz p := by
  have inside {b p : Nat} (here : RunIn fs cg.blksfree b siz p) : b * fs.frag + p < fs.fpg := by
    refine Nat.lt_of_not_le fun high => ?_
    have set := here.2.1 0 pos
    rw [add_zero,tail _ high] at set
    cases set
  have bytes {i : Nat} (few : i < fs.fpg) : i / NBBY < howmany fs.fpg NBBY := by
    unfold howmany NBBY
    omega
  have block (b : Nat) : b = b / (NBBY / fs.frag) * (NBBY / fs.frag) + b % (NBBY / fs.frag) := (div_add_mod' ..).symm
  have count : 0 < NBBY / fs.frag := div_pos (frag_le fs) (frag_pos fs)
  have start : (if bpref ≠ 0 then dtogd fs bpref else cg.frotor) / NBBY < howmany fs.fpg NBBY := by
    refine bytes ?_
    split
    · exact mod_lt _ some_
    · exact rotor
  obtain ⟨p,here⟩ := mem_runs_set run pos low
  have stop : fragtbl fs (cg.blksfree (h / (NBBY / fs.frag))).toNat &&& 1 <<< (siz - 1 + fs.frag % NBBY) ≠ 0 := by
    rw [fragtbl_eq fs cg.blksfree _ pos low]
    refine ⟨h % (NBBY / fs.frag),mod_lt _ count,?_⟩
    rw [← block]
    exact run
  have byte : h / (NBBY / fs.frag) < howmany fs.fpg NBBY := by
    have same : h * fs.frag / NBBY = h / (NBBY / fs.frag) := by
      rw [← frag_dvd fs,Nat.mul_div_mul_right _ _ (frag_pos fs)]
      congr 1
      rw [frag_dvd fs]
    rw [← same]
    exact bytes (Nat.lt_of_le_of_lt (Nat.le_add_right ..) (inside here))
  obtain ⟨q,few,scan,stops⟩ := scanMap_spec rfl byte start stop
  obtain ⟨j,-,p,found,runs⟩ := siftByte_spec (q := q) pos low ((fragtbl_eq fs cg.blksfree q pos low).mp stops)
  refine ⟨_,p,q * NBBY,?_,?_,runs⟩
  · unfold mapsearch
    rw [scan]
    dsimp only
    rw [found]
    rfl
  have := inside runs
  rw [add_mul,mul_assoc,frag_dvd fs] at this
  omega

open ByteMap RingBuffer BoolRuns
variable {fs : Fs} {m : Nat → Byte} {i k n b f blkno last : Nat} {l p q : List Bool}

theorem low_bit (i : Nat) : ByteMap.bit i = 1#8 <<< (i % NBBY) := rfl

theorem clear_iff {map bit_ : Byte} (map_eq : map = m (i / NBBY)) (bit_eq : bit_ = 1#8 <<< (i % NBBY)) : map &&& bit_ = 0 ↔ isset m i = false := by
  rw [map_eq,bit_eq,← low_bit,← decide_eq_true_iff (p := m (i / NBBY) &&& ByteMap.bit i = 0)]
  show isclr m i = true ↔ _
  rw [isclr_eq,not_eq_true']

theorem forward_spec {map bit : Byte} (map_eq : map = m (i / NBBY)) (bit_eq : bit = 1#8 <<< (i % NBBY)) :
    forward m n i map bit ≤ n ∧ (∀ k < forward m n i map bit,isset m (i + k) = true) ∧
      (forward m n i map bit = n ∨ isset m (i + forward m n i map bit) = false) := by
  induction n generalizing i map bit with
  | zero => exact ⟨le_refl 0,nofun,.inl rfl⟩
  | succ n ih =>
    unfold forward
    split
    · rename_i clear
      exact ⟨zero_le _,nofun,.inr ((clear_iff map_eq bit_eq).mp clear)⟩
    rename_i set
    rw [clear_iff map_eq bit_eq,not_eq_false] at set
    have goes {map' bit' : Byte} (map_eq : map' = m ((i + 1) / NBBY)) (bit_eq : bit' = 1#8 <<< ((i + 1) % NBBY)) :
        forward m n (i + 1) map' bit' + 1 ≤ n + 1 ∧ (∀ k < forward m n (i + 1) map' bit' + 1,isset m (i + k) = true) ∧
          (forward m n (i + 1) map' bit' + 1 = n + 1 ∨ isset m (i + (forward m n (i + 1) map' bit' + 1)) = false) := by
      obtain ⟨le,all,stop⟩ := ih map_eq bit_eq
      refine ⟨succ_le_succ le,fun k low => ?_,stop.imp (congrArg succ) fun clear => ?_⟩
      · cases k with
        | zero => exact set
        | succ k =>
          have later := all k (lt_of_succ_lt_succ low)
          rw [add_assoc,add_comm 1 k] at later
          exact later
      rw [add_assoc,add_comm 1] at clear
      exact clear
    split
    · rename_i inner
      unfold NBBY at inner map_eq bit_eq
      refine goes ?_ ?_
      · rw [map_eq]
        congr 1
        unfold NBBY
        omega
      rw [bit_eq,← BitVec.shiftLeft_add]
      congr 1
      unfold NBBY
      omega
    rename_i outer
    refine goes rfl ?_
    have wrapped : (i + 1) % NBBY = 0 := by
      unfold NBBY at *
      omega
    rw [wrapped]
    rfl

theorem backward_spec {map bit : Byte} (map_eq : map = m (i / NBBY)) (bit_eq : bit = 1#8 <<< (i % NBBY)) (few : n ≤ i + 1) :
    backward m n i map bit ≤ n ∧ (∀ k < backward m n i map bit,isset m (i - k) = true) ∧
      (backward m n i map bit = n ∨ isset m (i - backward m n i map bit) = false) := by
  induction n generalizing i map bit with
  | zero => exact ⟨le_refl 0,nofun,.inl rfl⟩
  | succ n ih =>
    unfold backward
    split
    · rename_i clear
      exact ⟨zero_le _,nofun,.inr ((clear_iff map_eq bit_eq).mp clear)⟩
    rename_i set
    rw [clear_iff map_eq bit_eq,not_eq_false] at set
    have goes {map' bit' : Byte} (result : backward m n (i - 1) map' bit' ≤ n ∧ (∀ k < backward m n (i - 1) map' bit',isset m (i - 1 - k) = true) ∧
          (backward m n (i - 1) map' bit' = n ∨ isset m (i - 1 - backward m n (i - 1) map' bit') = false)) :
        backward m n (i - 1) map' bit' + 1 ≤ n + 1 ∧ (∀ k < backward m n (i - 1) map' bit' + 1,isset m (i - k) = true) ∧
          (backward m n (i - 1) map' bit' + 1 = n + 1 ∨ isset m (i - (backward m n (i - 1) map' bit' + 1)) = false) := by
      obtain ⟨le,all,stop⟩ := result
      refine ⟨succ_le_succ le,fun k low => ?_,stop.imp (congrArg succ) fun clear => ?_⟩
      · cases k with
        | zero => exact set
        | succ k =>
          have later := all k (lt_of_succ_lt_succ low)
          rw [Nat.sub_sub,Nat.add_comm 1 k] at later
          exact later
      rw [Nat.sub_sub,Nat.add_comm 1] at clear
      exact clear
    rcases Nat.eq_zero_or_pos i with rfl | some_
    · -- block 0 is the last one to be read
      have done : n = 0 := by omega
      subst done
      split
      · exact goes ⟨le_refl 0,nofun,.inl rfl⟩
      · exact goes ⟨le_refl 0,nofun,.inl rfl⟩
    split
    · rename_i inner
      unfold NBBY at inner map_eq bit_eq
      refine goes (ih ?_ ?_ (by omega))
      · rw [map_eq]
        congr 1
        unfold NBBY
        omega
      have shift : ∀ k < 8,0 < k → BitVec.ushiftRight (1#8 <<< k) 1 = 1#8 <<< (k - 1) := by decide
      rw [bit_eq]
      refine (shift _ (mod_lt _ (by decide)) (by omega)).trans ?_
      congr 1
      unfold NBBY
      omega
    rename_i outer
    refine goes (ih rfl ?_ (by omega))
    have wrapped : (i - 1) % NBBY = NBBY - 1 := by
      unfold NBBY at *
      omega
    rw [wrapped]

structure Around (m : Nat → Byte) (last blkno b f : Nat) : Prop where
  low : b ≤ blkno
  behind : ∀ i,blkno - b ≤ i → i < blkno → isset m i = true
  first : b = blkno ∨ isset m (blkno - b - 1) = false
  high : blkno + 1 + f ≤ last
  ahead : ∀ i < f,isset m (blkno + 1 + i) = true
  end_ : blkno + 1 + f = last ∨ isset m (blkno + 1 + f) = false

theorem exists_around (m : Nat → Byte) (low : blkno < last) : ∃ b f,Around m last blkno b f := by
  obtain ⟨b,few,behind,first⟩ := run_behind (isset m) blkno
  obtain ⟨f,high,ahead,end_⟩ := run_ahead (isset m) (show blkno + 1 ≤ last from low)
  exact ⟨b,f,few,behind,first,high,ahead,end_⟩

theorem run_bound {r : Nat → Bool} {n left f : Nat} (le : n ≤ left) (all : ∀ i < n,r i = true) (stop : n = left ∨ r n = false)
    (run : ∀ i < f,r i = true) (end_ : left ≤ f ∨ r f = false) : n = min f left := by
  rcases lt_trichotomy n f with short | same | long
  · rcases stop with last | clear
    · omega
    rw [run n short] at clear
    cases clear
  · omega
  rcases end_ with last | clear
  · omega
  rw [all f long] at clear
  cases clear

theorem forw_eq (around : Around m last blkno b f) : forw fs m last blkno = min f fs.contigsumsize := by
  unfold forw
  have high := around.high
  obtain ⟨le,all,stop⟩ := forward_spec (m := m) (i := blkno + 1) (n := min (blkno + 1 + fs.contigsumsize) last - (blkno + 1)) rfl rfl
  have bound := run_bound (r := fun i => isset m (blkno + 1 + i)) (f := f) le all stop around.ahead
    (around.end_.imp (fun end_ => by omega) id)
  omega

theorem back_eq (around : Around m last blkno b f) : back fs m blkno = min b fs.contigsumsize := by
  unfold back
  have low := around.low
  have first := around.first
  obtain ⟨le,all,stop⟩ := backward_spec (m := m) (i := blkno - 1) (n := min fs.contigsumsize blkno) rfl rfl (by omega)
  have bound := run_bound (r := fun i => isset m (blkno - 1 - i)) (f := b) le all stop
    (fun i few => around.behind _ (by omega) (by omega)) (first.imp (fun same => by omega) fun clear => by
      rw [Nat.sub_sub,Nat.add_comm] at clear
      rw [Nat.sub_sub]
      exact clear)
  omega

def sumOf (last : Nat) (k : Nat) (l : List Nat) : Nat := (l.map fun n => min n last).count k

theorem sumOf_append (last k : Nat) (l r : List Nat) : sumOf last k (l ++ r) = sumOf last k l + sumOf last k r := by
  rw [sumOf,map_append,count_append]
  rfl

theorem sumOf_one (last n : Nat) (pos : 0 < k) : sumOf last k (one n) = if min n last = k then 1 else 0 := by
  unfold sumOf one
  split
  · rename_i zero
    rw [zero,if_neg (by omega)]
    rfl
  rw [map_singleton,count_singleton]
  simp

section
variable (around : Around m last blkno b f)
include around

theorem slice_around :
    slice (isset m) 0 last = slice (isset m) 0 (blkno - b) ++ (replicate b true ++ (isset m blkno ::
      (replicate f true ++ slice (isset m) (blkno + 1 + f) (last - (blkno + 1 + f))))) := by
  have low := around.low
  have high := around.high
  have whole : last = (blkno - b) + (b + (1 + (f + (last - (blkno + 1 + f))))) := by omega
  have behind : slice (isset m) (0 + (blkno - b)) b = replicate b true :=
    slice_const fun i few => around.behind _ (by omega) (by omega)
  have ahead : slice (isset m) (blkno + 1) f = replicate f true := slice_const around.ahead
  calc slice (isset m) 0 last
    _ = slice (isset m) 0 ((blkno - b) + (b + (1 + (f + (last - (blkno + 1 + f)))))) := by rw [← whole]
    _ = _ := by
      rw [slice_append,slice_append,slice_append,slice_append,behind,slice_one,show 0 + (blkno - b) + b = blkno by omega,ahead]
      rfl

theorem ends_around : (slice (isset m) 0 (blkno - b)).getLast? ≠ some true := by
  rw [slice_last]
  split
  · exact nofun
  rename_i some_
  rcases around.first with same | clear
  · omega
  rw [zero_add,clear]
  exact nofun

theorem starts_around : (slice (isset m) (blkno + 1 + f) (last - (blkno + 1 + f))).head? ≠ some true := by
  rw [slice_head]
  split
  · exact nofun
  rename_i some_
  rcases around.end_ with same | clear
  · omega
  rw [clear]
  exact nofun

theorem sumOf_free (free : isset m blkno = true) {c : Nat} (pos : 0 < k) :
    sumOf c k (runs (slice (isset m) 0 last)) = sumOf c k (runs (slice (isset m) 0 (blkno - b))) +
      ((if min (b + f + 1) c = k then 1 else 0) + sumOf c k (runs (slice (isset m) (blkno + 1 + f) (last - (blkno + 1 + f))))) := by
  have run (q : List Bool) : replicate b true ++ (true :: (replicate f true ++ q)) = replicate (b + f + 1) true ++ q := by
    rw [add_assoc,replicate_add,replicate_succ,append_assoc,cons_append]
  rw [slice_around around,free,run,runs_run (ends_around around) _ (starts_around around),sumOf_append,sumOf_append,sumOf_one _ _ pos]

theorem sumOf_used (used : isset m blkno = false) {c : Nat} (pos : 0 < k) :
    sumOf c k (runs (slice (isset m) 0 last)) = sumOf c k (runs (slice (isset m) 0 (blkno - b))) +
      ((if min b c = k then 1 else 0) + ((if min f c = k then 1 else 0) +
        sumOf c k (runs (slice (isset m) (blkno + 1 + f) (last - (blkno + 1 + f)))))) := by
  have left : runs (slice (isset m) 0 (blkno - b) ++ replicate b true) = runs (slice (isset m) 0 (blkno - b)) ++ one b := by
    rw [runs_left (ends_around around),runs_replicate]
  have right : runs (replicate f true ++ slice (isset m) (blkno + 1 + f) (last - (blkno + 1 + f))) =
      one f ++ runs (slice (isset m) (blkno + 1 + f) (last - (blkno + 1 + f))) := by
    rw [runs_right _ (starts_around around),runs_replicate]
  have hole : runs (slice (isset m) 0 last) = runs (slice (isset m) 0 (blkno - b) ++ replicate b true) ++
      runs (replicate f true ++ slice (isset m) (blkno + 1 + f) (last - (blkno + 1 + f))) := by
    rw [slice_around around,used,← append_assoc]
    exact runsFrom_false 0 _ _
  rw [hole,left,right,sumOf_append,sumOf_append,sumOf_append,sumOf_one _ _ pos,sumOf_one _ _ pos,add_assoc]
end

theorem addTo_eq (s : Nat → Int) (i : Nat) (c : Int) (k : Nat) : addTo s i c k = s k + if k = i then c else 0 := by
  unfold addTo
  by_cases same : k = i
  · rw [same,Function.update_self,if_pos rfl]
  · rw [Function.update_of_ne same,if_neg same,Int.add_zero]

theorem moveSum_eq (s : Nat → Int) (b f : Nat) (cnt : Int) (pos : 0 < k) :
    moveSum fs s (min b fs.contigsumsize) (min f fs.contigsumsize) cnt k = s k +
      cnt * ((if min (b + f + 1) fs.contigsumsize = k then 1 else 0) - (if min b fs.contigsumsize = k then 1 else 0) -
        (if min f fs.contigsumsize = k then 1 else 0)) := by
  have middle : min (min b fs.contigsumsize + min f fs.contigsumsize + 1) fs.contigsumsize = min (b + f + 1) fs.contigsumsize := by omega
  unfold moveSum
  rw [middle]
  have part (s : Nat → Int) (n : Nat) : (if 0 < n then addTo s n (-cnt) else s) k = s k - cnt * (if n = k then 1 else 0) := by
    split
    · rw [addTo_eq]
      split
      · next same =>
        rw [if_pos same.symm]
        ring
      next same =>
      rw [if_neg (Ne.symm same)]
      ring
    rw [if_neg (by omega)]
    ring
  rw [part,part,addTo_eq]
  split
  · next same =>
    rw [if_pos same.symm]
    ring
  next same =>
  rw [if_neg (Ne.symm same)]
  ring

structure Clusters (fs : Fs) (cg : Cg) : Prop where
  sums : ∀ k,0 < k → k ≤ fs.contigsumsize → cg.clustersum k = sumOf fs.contigsumsize k (runs (slice (isset cg.clustersfree) 0 cg.nclusterblks))

theorem Around.congr {m' : Nat → Byte} (around : Around m last blkno b f) (same : ∀ i,i ≠ blkno → isset m' i = isset m i) : Around m' last blkno b f where
  low := around.low
  behind i high low := (same i (by omega)).trans (around.behind i high low)
  first := by
    have low := around.low
    by_cases whole : b = blkno
    · exact .inl whole
    · exact .inr ((same _ (by omega)).trans (around.first.resolve_left whole))
  high := around.high
  ahead i low := (same _ (by omega)).trans (around.ahead i low)
  end_ := around.end_.imp_right fun clear => (same _ (by omega)).trans clear

theorem clusteracct_spec {g : Group} (clusters : Clusters fs g.cg) (low : blkno < g.cg.nclusterblks) (some_ : fs.contigsumsize ≠ 0)
    (free : Bool) (was : isset g.cg.clustersfree blkno = !free) :
    ∃ map sums maxcluster,clusteracct fs g blkno (if free then 1 else -1) =
        { g with cg := { g.cg with clustersfree := map, clustersum := sums }, maxcluster := maxcluster } ∧
      (∀ i,isset map i = if i = blkno then free else isset g.cg.clustersfree i) ∧
      ∀ k,0 < k → k ≤ fs.contigsumsize → sums k = sumOf fs.contigsumsize k (runs (slice (isset map) 0 g.cg.nclusterblks)) := by
  unfold clusteracct
  rw [if_neg some_]
  have bits (i : Nat) : isset (if (0 : Int) < if free then 1 else -1 then setbit g.cg.clustersfree blkno else clrbit g.cg.clustersfree blkno) i =
      if i = blkno then free else isset g.cg.clustersfree i := by
    cases free <;> by_cases same : i = blkno <;> simp [isset_setbit,isset_clrbit,same]
  refine ⟨_,_,_,rfl,bits,fun k pos top => ?_⟩
  generalize (if (0 : Int) < if free then 1 else -1 then setbit g.cg.clustersfree blkno else clrbit g.cg.clustersfree blkno) = map at bits ⊢
  obtain ⟨b,f,around⟩ := exists_around g.cg.clustersfree low
  have new : Around map g.cg.nclusterblks blkno b f := around.congr fun i other => (bits i).trans (if_neg other)
  have left : slice (isset map) 0 (blkno - b) = slice (isset g.cg.clustersfree) 0 (blkno - b) :=
    slice_congr fun i few => (bits _).trans (if_neg (by omega))
  have right : slice (isset map) (blkno + 1 + f) (g.cg.nclusterblks - (blkno + 1 + f)) =
      slice (isset g.cg.clustersfree) (blkno + 1 + f) (g.cg.nclusterblks - (blkno + 1 + f)) :=
    slice_congr fun i few => (bits _).trans (if_neg (by omega))
  have here : isset map blkno = free := (bits _).trans (if_pos rfl)
  rw [back_eq new,forw_eq new,moveSum_eq _ b f _ pos,clusters.sums k pos top]
  cases free with
  | true =>
    rw [sumOf_used around was pos,sumOf_free new here pos,left,right,if_pos rfl]
    push_cast
    ring
  | false =>
    rw [sumOf_free around was pos,sumOf_used new here pos,left,right,if_neg Bool.false_ne_true]
    push_cast
    ring
end NetbsdAvr32.FfsBlock
