import NetbsdAvr32.FfsCluster

-- The counts and sums of a group, and what they become when one block changes.
namespace NetbsdAvr32.FfsBlock
open ByteMap RingBuffer BoolRuns Nat List Bool

def wholes (l : List Bool) : Int := if l.all id then 1 else 0
def frags (l : List Bool) : Int := if l.all id then 0 else l.count true
def runsOf (k : Nat) (l : List Bool) : Int := if l.all id then 0 else (runs l).count k

-- A group of at most fs_fpg fragments in blocks of fs_frag.
structure Shape (fs : Fs) : Prop where
  fsize : 0 < fs.fsize
  bsize : fs.bsize = fs.frag * fs.fsize
  fpg : 0 < fs.fpg
  blocks : fs.frag ∣ fs.fpg

structure Kept (fs : Fs) (others : Csum) (g : Group) : Prop where
  size : g.cg.ndblk ≤ fs.fpg
  tail : ∀ i,g.cg.ndblk ≤ i → isset g.cg.blksfree i = false
  rotor : g.cg.frotor < fs.fpg
  nbfree : g.cg.cs.nbfree = ∑ b ∈ Finset.range (fs.fpg / fs.frag),wholes (bits fs g.cg.blksfree b)
  nffree : g.cg.cs.nffree = ∑ b ∈ Finset.range (fs.fpg / fs.frag),frags (bits fs g.cg.blksfree b)
  frsum : ∀ k,1 ≤ k → k < fs.frag → g.cg.frsum k = ∑ b ∈ Finset.range (fs.fpg / fs.frag),runsOf k (bits fs g.cg.blksfree b)
  nclusterblks : g.cg.nclusterblks = g.cg.ndblk / fs.frag
  map : fs.contigsumsize ≠ 0 → ∀ b < g.cg.nclusterblks,isset g.cg.clustersfree b = full fs g.cg.blksfree b
  clusters : fs.contigsumsize ≠ 0 → Clusters fs g.cg
  cs : g.cs = g.cg.cs
  total : g.cstotal = ⟨g.cs.nbfree + others.nbfree,g.cs.nffree + others.nffree⟩

structure Change (fs : Fs) (g g' : Group) (b : Nat) : Prop where
  others : ∀ i,¬InBlock fs b i → isset g'.cg.blksfree i = isset g.cg.blksfree i
  inside : ∀ i,InBlock fs b i → isset g'.cg.blksfree i = true → i < g.cg.ndblk
  fixed : g'.cg.cgx = g.cg.cgx ∧ g'.cg.ndblk = g.cg.ndblk ∧ g'.cg.nclusterblks = g.cg.nclusterblks
  rotor : g'.cg.frotor < fs.fpg
  nbfree : g'.cg.cs.nbfree = g.cg.cs.nbfree + (wholes (bits fs g'.cg.blksfree b) - wholes (bits fs g.cg.blksfree b))
  nffree : g'.cg.cs.nffree = g.cg.cs.nffree + (frags (bits fs g'.cg.blksfree b) - frags (bits fs g.cg.blksfree b))
  frsum : ∀ k,1 ≤ k → k < fs.frag → g'.cg.frsum k = g.cg.frsum k + (runsOf k (bits fs g'.cg.blksfree b) - runsOf k (bits fs g.cg.blksfree b))
  map : fs.contigsumsize ≠ 0 → ∀ b < g.cg.nclusterblks,isset g'.cg.clustersfree b = full fs g'.cg.blksfree b
  clusters : fs.contigsumsize ≠ 0 → Clusters fs g'.cg
  cs : ∃ x y,g'.cg.cs = g.cg.cs.add x y ∧ g'.cs = g.cs.add x y ∧ g'.cstotal = g.cstotal.add x y

variable {fs : Fs} {others : Csum} {g g' : Group} {a : Nat → Byte} {b h i j k n p siz : Nat} {l : List Bool}

theorem bits_congr {a' : Nat → Byte} (same : ∀ i,InBlock fs b i → isset a' i = isset a i) : bits fs a' b = bits fs a b :=
  slice_congr fun i low => same _ (inBlock_at fs b low)

theorem inBlock_apart (here : InBlock fs b i) (ne : b ≠ h) : ¬InBlock fs h i := by
  intro there
  obtain ⟨low,high⟩ := here
  obtain ⟨low',high'⟩ := there
  rcases lt_or_gt_of_ne ne with less | more
  · have := mul_le_mul_right fs.frag (succ_le_of_lt less)
    rw [succ_mul] at this
    omega
  have := mul_le_mul_right fs.frag (succ_le_of_lt more)
  rw [succ_mul] at this
  omega

theorem Change.sum (change : Change fs g g' b) (low : b < n) (v : List Bool → Int) :
    ∑ i ∈ Finset.range n,v (bits fs g'.cg.blksfree i) = ∑ i ∈ Finset.range n,v (bits fs g.cg.blksfree i) +
      (v (bits fs g'.cg.blksfree b) - v (bits fs g.cg.blksfree b)) :=
  sum_change (f := fun i => v (bits fs g.cg.blksfree i)) (g := fun i => v (bits fs g'.cg.blksfree i)) low fun i ne => by
    rw [bits_congr fun j here => change.others j (inBlock_apart here ne)]

theorem Kept.change (kept : Kept fs others g) (low : b < fs.fpg / fs.frag) (change : Change fs g g' b) : Kept fs others g' where
  size := by
    rw [change.fixed.2.1]
    exact kept.size
  tail i high := by
    rw [change.fixed.2.1] at high
    by_cases here : InBlock fs b i
    · rw [← not_eq_true]
      exact fun set => absurd (change.inside i here set) (Nat.not_lt_of_le high)
    rw [change.others i here]
    exact kept.tail i high
  rotor := change.rotor
  nbfree := by
    rw [change.nbfree,kept.nbfree]
    exact (change.sum low _).symm
  nffree := by
    rw [change.nffree,kept.nffree]
    exact (change.sum low _).symm
  frsum k pos few := by
    rw [change.frsum k pos few,kept.frsum k pos few]
    exact (change.sum low _).symm
  nclusterblks := by
    rw [change.fixed.2.1,change.fixed.2.2]
    exact kept.nclusterblks
  map some_ := by
    rw [change.fixed.2.2]
    exact change.map some_
  clusters := change.clusters
  cs := by
    obtain ⟨x,y,mine,ours,-⟩ := change.cs
    rw [mine,ours,kept.cs]
  total := by
    obtain ⟨x,y,-,ours,all⟩ := change.cs
    rw [all,ours,kept.total]
    dsimp only [Csum.add]
    congr 1 <;> ring

theorem wholes_full (all : l.all id = true) : wholes l = 1 ∧ frags l = 0 ∧ ∀ k,runsOf k l = 0 :=
  ⟨if_pos all,if_pos all,fun _ => if_pos all⟩

theorem wholes_part (part : l.all id = false) : wholes l = 0 ∧ frags l = l.count true ∧ ∀ k,runsOf k l = (runs l).count k := by
  have no : ¬l.all id = true := eq_false_iff.mp part
  exact ⟨if_neg no,if_neg no,fun _ => if_neg no⟩

theorem full_false_of (low : i < fs.frag) (clear : isset a (h * fs.frag + i) = false) : full fs a h = false := by
  rw [← not_eq_true,full_iff]
  intro all
  rw [all i low] at clear
  cases clear

theorem Kept.inside (kept : Kept fs others g) (whole : full fs g.cg.blksfree h = true) : h < g.cg.nclusterblks := by
  have last := full_iff.mp whole (fs.frag - 1) (sub_lt (frag_pos fs) one_pos)
  have low : h * fs.frag + (fs.frag - 1) < g.cg.ndblk := by
    refine Nat.lt_of_not_le fun high => ?_
    rw [kept.tail _ high] at last
    cases last
  rw [kept.nclusterblks]
  have pos := frag_pos fs
  refine (le_div_iff_mul_le pos).mpr ?_
  rw [succ_mul]
  omega

theorem Kept.block (shape : Shape fs) (kept : Kept fs others g) (set : isset g.cg.blksfree (h * fs.frag + i) = true) : h < fs.fpg / fs.frag := by
  obtain ⟨m,whole⟩ := shape.blocks
  have low : h * fs.frag + i < fs.fpg := by
    refine Nat.lt_of_not_le fun high => ?_
    rw [kept.tail _ (Nat.le_trans kept.size high)] at set
    cases set
  rw [whole,Nat.mul_div_cancel_left _ (frag_pos fs)]
  rw [whole,mul_comm fs.frag] at low
  exact Nat.lt_of_mul_lt_mul_right (Nat.lt_of_le_of_lt (Nat.le_add_right ..) low)

open ByteMap RingBuffer BoolRuns
variable {fs : Fs} {others : Csum} {g g' : Group} {a z : Nat → Byte} {b h i j k n p siz : Nat} {l : List Bool}

structure Acct (fs : Fs) (g g' : Group) (h : Nat) (free : Bool) : Prop where
  same : ∃ map sums top,g' = { g with cg := { g.cg with clustersfree := map, clustersum := sums }, maxcluster := top }
  map : fs.contigsumsize ≠ 0 → ∀ i,isset g'.cg.clustersfree i = if i = h then free else isset g.cg.clustersfree i
  clusters : fs.contigsumsize ≠ 0 → Clusters fs g'.cg

theorem acct_spec (free : Bool) (clusters : fs.contigsumsize ≠ 0 → Clusters fs g.cg) (low : h < g.cg.nclusterblks)
    (was : fs.contigsumsize ≠ 0 → isset g.cg.clustersfree h = !free) : Acct fs g (clusteracct fs g h (if free then 1 else -1)) h free := by
  by_cases none_ : fs.contigsumsize = 0
  · have idle : clusteracct fs g h (if free then 1 else -1) = g := if_pos none_
    rw [idle]
    exact ⟨⟨_,_,_,rfl⟩,fun some_ => absurd none_ some_,fun some_ => absurd none_ some_⟩
  obtain ⟨map,sums,top,result,flips,counts⟩ := clusteracct_spec (clusters none_) low none_ free (was none_)
  rw [result]
  exact ⟨⟨map,sums,top,rfl⟩,fun _ => flips,fun _ => ⟨counts⟩⟩

theorem Kept.map_flip (kept : Kept fs others g) (others_ : ∀ i,¬InBlock fs b i → isset z i = isset a i) (from_ : g.cg.blksfree = a)
    (some_ : fs.contigsumsize ≠ 0) (map : ∀ i,isset g'.cg.clustersfree i = if i = b then full fs z b else isset g.cg.clustersfree i) :
    ∀ i < g.cg.nclusterblks,isset g'.cg.clustersfree i = full fs z i := by
  intro i low
  rw [map]
  split
  · rename_i same
    rw [same]
  rename_i ne
  rw [kept.map some_ i low,from_]
  unfold full
  rw [bits_congr fun j here => others_ j (inBlock_apart here ne)]

theorem wholes_free : wholes (replicate fs.frag true) = 1 ∧ frags (replicate fs.frag true) = 0 ∧
    ∀ k,runsOf k (replicate fs.frag true) = 0 := wholes_full (by simp)

theorem wholes_used : wholes (replicate fs.frag false) = 0 ∧ frags (replicate fs.frag false) = 0 ∧
    ∀ k,runsOf k (replicate fs.frag false) = 0 := by
  have part : (replicate fs.frag false).all id = false := by
    have := frag_pos fs
    simp
    omega
  obtain ⟨nbfree,nffree,sums⟩ := wholes_part part
  refine ⟨nbfree,?_,fun k => ?_⟩
  · rw [nffree,count_replicate]
    rfl
  rw [sums,runs_none]
  rfl

theorem bits_const {x : Bool} (same : ∀ i < fs.frag,isset a (h * fs.frag + i) = x) : bits fs a h = replicate fs.frag x := slice_const same

theorem flip_change (kept : Kept fs others g) (free : Bool) (low : h < g.cg.nclusterblks)
    (others_ : ∀ i,¬InBlock fs h i → isset z i = isset g.cg.blksfree i) (was : ∀ i < fs.frag,isset g.cg.blksfree (h * fs.frag + i) = !free)
    (now : ∀ i < fs.frag,isset z (h * fs.frag + i) = free) (q : Nat) {r : Nat} (rotor : r < fs.fpg) :
    Change fs g ((clusteracct fs ({ g with cg := { g.cg with rotor := q, frotor := r } }.map z) h (if free then 1 else -1)).count (if free then 1 else -1) 0) h := by
  have full_was : full fs g.cg.blksfree h = !free := by
    cases free with
    | true => exact full_false_of (frag_pos fs) (was 0 (frag_pos fs))
    | false => exact full_iff.mpr was
  have full_now : full fs z h = free := by
    cases free with
    | true => exact full_iff.mpr now
    | false => exact full_false_of (frag_pos fs) (now 0 (frag_pos fs))
  have acct : Acct fs ({ g with cg := { g.cg with rotor := q, frotor := r } }.map z) _ h free := acct_spec free (fun some_ => ⟨(kept.clusters some_).sums⟩) low
    fun some_ => (kept.map some_ h low).trans full_was
  obtain ⟨map,sums,top,result⟩ := acct.same
  have flips := acct.map
  have clusters := acct.clusters
  rw [result] at flips clusters ⊢
  have agree (i : Nat) : (if i = h then free else isset g.cg.clustersfree i) = if i = h then full fs z h else isset g.cg.clustersfree i := by
    rw [full_now]
  have counts : wholes (bits fs z h) - wholes (bits fs g.cg.blksfree h) = (if free then 1 else -1) ∧
      frags (bits fs z h) - frags (bits fs g.cg.blksfree h) = 0 ∧ ∀ k,runsOf k (bits fs z h) - runsOf k (bits fs g.cg.blksfree h) = 0 := by
    obtain ⟨one_,none_,runs_⟩ : wholes (replicate fs.frag true) = 1 ∧ _ := wholes_free
    obtain ⟨zero_,none,runs⟩ : wholes (replicate fs.frag false) = 0 ∧ _ := wholes_used
    rw [bits_const now,bits_const was]
    cases free with
    | true => exact ⟨by rw [Bool.not_true,one_,zero_]; rfl,by rw [Bool.not_true,none_,none]; rfl,fun k => by rw [Bool.not_true,runs_,runs]; rfl⟩
    | false => exact ⟨by rw [Bool.not_false,one_,zero_]; rfl,by rw [Bool.not_false,none_,none]; rfl,fun k => by rw [Bool.not_false,runs_,runs]; rfl⟩
  constructor
  · exact others_
  · intro i here _
    have whole := div_mul_le_self g.cg.ndblk fs.frag
    rw [kept.nclusterblks] at low
    have := mul_le_mul_right fs.frag (succ_le_of_lt low)
    rw [succ_mul] at this
    have := here.2
    omega
  · exact ⟨rfl,rfl,rfl⟩
  · exact rotor
  · exact congrArg (g.cg.cs.nbfree + ·) counts.1.symm
  · exact congrArg (g.cg.cs.nffree + ·) counts.2.1.symm
  · intro k _ _
    show g.cg.frsum k = g.cg.frsum k + (runsOf k (bits fs z h) - runsOf k (bits fs g.cg.blksfree h))
    rw [counts.2.2,Int.add_zero]
  · exact fun some_ => kept.map_flip others_ rfl some_ fun i => (flips some_ i).trans (agree i)
  · exact fun some_ => ⟨(clusters some_).sums⟩
  · exact ⟨_,_,rfl,rfl,rfl⟩

theorem part_change (kept : Kept fs others g) (others_ : ∀ i,¬InBlock fs b i → isset z i = isset g.cg.blksfree i)
    (inside : ∀ i,InBlock fs b i → isset z i = true → i < g.cg.ndblk) (was : full fs g.cg.blksfree b = false) (now : full fs z b = false)
    {r : Nat} (rotor : r < fs.fpg) {y : Int} (count : y = (bits fs z b).count true - (bits fs g.cg.blksfree b).count true) {f : Nat → Int}
    (sums : ∀ k,1 ≤ k → k < fs.frag → f k = g.cg.frsum k + ((runs (bits fs z b)).count k - (runs (bits fs g.cg.blksfree b)).count k)) :
    Change fs g ((({ g with cg := { g.cg with frotor := r } }.map z).count 0 y).sums f) b := by
  obtain ⟨zero,old,old_runs⟩ := wholes_part was
  obtain ⟨zero_,new,new_runs⟩ := wholes_part now
  constructor
  · exact others_
  · exact inside
  · exact ⟨rfl,rfl,rfl⟩
  · exact rotor
  · show g.cg.cs.nbfree + 0 = g.cg.cs.nbfree + (wholes (bits fs z b) - wholes (bits fs g.cg.blksfree b))
    rw [zero,zero_]
    rfl
  · show g.cg.cs.nffree + y = g.cg.cs.nffree + (frags (bits fs z b) - frags (bits fs g.cg.blksfree b))
    rw [old,new,count]
  · intro k pos low
    show f k = g.cg.frsum k + (runsOf k (bits fs z b) - runsOf k (bits fs g.cg.blksfree b))
    rw [old_runs,new_runs,sums k pos low]
  · intro some_ i low
    show isset g.cg.clustersfree i = full fs z i
    rw [kept.map some_ i low]
    by_cases same : i = b
    · rw [same,was,now]
    unfold full
    rw [bits_congr fun j here => others_ j (inBlock_apart here same)]
  · exact fun some_ => ⟨(kept.clusters some_).sums⟩
  · exact ⟨_,_,rfl,rfl,rfl⟩

theorem cross_change (kept : Kept fs others g) (free : Bool) (others_ : ∀ i,¬InBlock fs h i → isset z i = isset g.cg.blksfree i)
    (inside : ∀ i,InBlock fs h i → isset z i = true → i < g.cg.ndblk) (was : full fs g.cg.blksfree h = !free) (now : full fs z h = free)
    (map : g'.cg.blksfree = z) (rotor : g'.cg.frotor = g.cg.frotor)
    (fixed : g'.cg.cgx = g.cg.cgx ∧ g'.cg.ndblk = g.cg.ndblk ∧ g'.cg.nclusterblks = g.cg.nclusterblks)
    (sums : ∀ k,1 ≤ k → k < fs.frag → g'.cg.frsum k = g.cg.frsum k + (runsOf k (bits fs z h) - runsOf k (bits fs g.cg.blksfree h)))
    (flips : fs.contigsumsize ≠ 0 → ∀ i,isset g'.cg.clustersfree i = if i = h then free else isset g.cg.clustersfree i)
    (clusters : fs.contigsumsize ≠ 0 → Clusters fs g'.cg) {y : Int} (count : y = frags (bits fs z h) - frags (bits fs g.cg.blksfree h))
    (cs : g'.cg.cs = g.cg.cs.add (if free then 1 else -1) y ∧ g'.cs = g.cs.add (if free then 1 else -1) y ∧
      g'.cstotal = g.cstotal.add (if free then 1 else -1) y) : Change fs g g' h := by
  have whole : wholes (bits fs z h) - wholes (bits fs g.cg.blksfree h) = if free then 1 else -1 := by
    cases free with
    | true =>
      rw [(wholes_full now).1,(wholes_part was).1]
      rfl
    | false =>
      rw [(wholes_part now).1,(wholes_full was).1]
      rfl
  subst map
  constructor
  · exact others_
  · exact inside
  · exact fixed
  · rw [rotor]
    exact kept.rotor
  · rw [cs.1,whole]
    rfl
  · rw [cs.1,← count]
    rfl
  · exact sums
  · refine fun some_ => kept.map_flip others_ rfl some_ fun i => (flips some_ i).trans ?_
    rw [now]
  · exact clusters
  · exact ⟨_,_,cs⟩

section
variable (within : p + n ≤ fs.frag)
include within

theorem bits_split : bits fs a h = slice (isset a) (h * fs.frag) p ++
    (slice (isset a) (h * fs.frag + p) n ++ slice (isset a) (h * fs.frag + p + n) (fs.frag - p - n)) := by
  calc slice (isset a) (h * fs.frag) fs.frag
    _ = slice (isset a) (h * fs.frag) (p + (n + (fs.frag - p - n))) := by rw [show p + (n + (fs.frag - p - n)) = fs.frag by omega]
    _ = _ := by rw [slice_append,slice_append]

theorem clrbits_split : bits fs (clrbits a (h * fs.frag + p) n) h = slice (isset a) (h * fs.frag) p ++
    (replicate n false ++ slice (isset a) (h * fs.frag + p + n) (fs.frag - p - n)) := by
  rw [bits_split within]
  congr 1
  · exact slice_congr fun i low => by rw [isset_clrbits,decide_eq_false (by omega),Bool.not_false,Bool.and_true]
  congr 1
  · exact slice_const fun i low => by rw [isset_clrbits,decide_eq_true (by omega),Bool.not_true,Bool.and_false]
  · exact slice_congr fun i low => by rw [isset_clrbits,decide_eq_false (by omega),Bool.not_false,Bool.and_true]

theorem setbits_split : bits fs (setbits a (h * fs.frag + p) n) h = slice (isset a) (h * fs.frag) p ++
    (replicate n true ++ slice (isset a) (h * fs.frag + p + n) (fs.frag - p - n)) := by
  rw [bits_split within]
  congr 1
  · exact slice_congr fun i low => by rw [isset_setbits,decide_eq_false (by omega),Bool.or_false]
  congr 1
  · exact slice_const fun i low => by rw [isset_setbits,decide_eq_true (by omega),Bool.or_true]
  · exact slice_congr fun i low => by rw [isset_setbits,decide_eq_false (by omega),Bool.or_false]

theorem clrbits_others (i : Nat) (out : ¬InBlock fs h i) : isset (clrbits a (h * fs.frag + p) n) i = isset a i := by
  rw [isset_clrbits,decide_eq_false (fun here => out ⟨by omega,by omega⟩),Bool.not_false,Bool.and_true]

theorem setbits_others (i : Nat) (out : ¬InBlock fs h i) : isset (setbits a (h * fs.frag + p) n) i = isset a i := by
  rw [isset_setbits,decide_eq_false (fun here => out ⟨by omega,by omega⟩),Bool.or_false]

theorem clrbits_count (set : ∀ i < n,isset a (h * fs.frag + p + i) = true) :
    (bits fs (clrbits a (h * fs.frag + p) n) h).count true + n = (bits fs a h).count true := by
  rw [clrbits_split within,bits_split (p := p) (a := a) within,slice_const set]
  simp only [count_append,count_replicate_self,count_replicate,beq_iff_eq,false_eq_true,if_false]
  omega

theorem setbits_count (clear : ∀ i < n,isset a (h * fs.frag + p + i) = false) :
    (bits fs (setbits a (h * fs.frag + p) n) h).count true = (bits fs a h).count true + n := by
  rw [setbits_split within,bits_split (p := p) (a := a) within,slice_const clear]
  simp only [count_append,count_replicate_self,count_replicate,beq_iff_eq,false_eq_true,if_false]
  omega
end

theorem cut_runs (run : RunIn fs a h siz p) (few : n ≤ siz) (pos : 1 ≤ k) :
    ((runs (bits fs (clrbits a (h * fs.frag + p) n) h)).count k : Int) - (runs (bits fs a h)).count k =
      (if siz - n = k then 1 else 0) - (if siz = k then 1 else 0) := by
  obtain ⟨within,set,left,right⟩ := run
  have ends : (slice (isset a) (h * fs.frag) p).getLast? ≠ some true := by
    rw [slice_last]
    split
    · exact nofun
    rename_i some_
    rw [left.resolve_left some_]
    exact nofun
  have starts : (slice (isset a) (h * fs.frag + p + siz) (fs.frag - p - siz)).head? ≠ some true := by
    rw [slice_head]
    split
    · exact nofun
    rename_i some_
    rw [add_assoc,right.resolve_left (by omega)]
    exact nofun
  have middle : slice (isset a) (h * fs.frag + p) siz = replicate siz true := slice_const fun i low => by rw [add_assoc]; exact set i low
  have old : runs (bits fs a h) = runs (slice (isset a) (h * fs.frag) p) ++ (one siz ++ runs (slice (isset a) (h * fs.frag + p + siz) (fs.frag - p - siz))) := by
    rw [bits_split (p := p) within,middle,runs_run ends _ starts]
  have new : runs (bits fs (clrbits a (h * fs.frag + p) n) h) =
      runs (slice (isset a) (h * fs.frag) p) ++ (one (siz - n) ++ runs (slice (isset a) (h * fs.frag + p + siz) (fs.frag - p - siz))) := by
    have rest : slice (isset a) (h * fs.frag + p + n) (fs.frag - p - n) =
        replicate (siz - n) true ++ slice (isset a) (h * fs.frag + p + siz) (fs.frag - p - siz) := by
      have tail : slice (isset a) (h * fs.frag + p + n) (siz - n) = replicate (siz - n) true :=
        slice_const fun i low => by rw [add_assoc,add_assoc,← add_assoc p,add_assoc p]; exact set (n + i) (by omega)
      rw [show fs.frag - p - n = (siz - n) + (fs.frag - p - siz) by omega,slice_append,tail,
        show h * fs.frag + p + n + (siz - n) = h * fs.frag + p + siz by omega]
    rw [clrbits_split (by omega),rest]
    rcases Nat.eq_zero_or_pos n with rfl | some_
    · exact runs_run ends _ starts
    · rw [runs_hole _ some_,runs_right _ starts,runs_replicate]
  rw [old,new,count_append,count_append,count_append,count_append,count_one _ _ pos,count_one _ _ pos]
  push_cast
  ring

theorem changeFrags_sums (fs : Fs) (a z : Nat → Byte) (h : Nat) (f : Nat → Int) (pos : 1 ≤ k) (low : k < fs.frag) :
    fragacct fs (blkmap fs z (h * fs.frag)) (fragacct fs (blkmap fs a (h * fs.frag)) f (-1)) 1 k =
      f k + (runsOf k (bits fs z h) - runsOf k (bits fs a h)) := by
  have hits (a : Nat → Byte) : (fragHits fs (blkmap fs a (h * fs.frag)) k : Int) = runsOf k (bits fs a h) := by
    rw [fragHits_eq fs a h pos low]
    unfold runsOf full
    split <;> rfl
  unfold fragacct
  rw [if_pos ⟨pos,low⟩,if_pos ⟨pos,low⟩,hits,hits]
  ring

-- Every operation keeps the counts of its group, and allocates fragments that were free.
variable {bno bpref size osize nsize : Nat}

theorem Shape.split (shape : Shape fs) (bno : Nat) : dtogd fs bno = dtogd fs bno / fs.frag * fs.frag + fragnum fs bno ∧
    fragnum fs (dtogd fs bno) = fragnum fs bno := by
  have same : fragnum fs (dtogd fs bno) = fragnum fs bno := mod_mod_of_dvd _ shape.blocks
  refine ⟨?_,same⟩
  rw [← same]
  exact (div_add_mod' ..).symm

theorem Shape.first (shape : Shape fs) (bpref : Nat) : dtogd fs (blknum fs bpref) = fragstoblks fs (dtogd fs (blknum fs bpref)) * fs.frag := by
  have none_ : fragnum fs (blknum fs bpref) = 0 := by
    exact sub_mod_eq_zero_of_mod_eq (mod_mod ..).symm
  have split := (shape.split (blknum fs bpref)).1
  rw [none_] at split
  exact split

theorem Kept.fragments (kept : Kept fs others g) (whole : full fs g.cg.blksfree h = true) : h * fs.frag + fs.frag ≤ fs.fpg := by
  have low := kept.inside whole
  rw [kept.nclusterblks] at low
  have le := mul_le_mul_right fs.frag (succ_le_of_lt low)
  have size := div_mul_le_self g.cg.ndblk fs.frag
  have := kept.size
  rw [succ_mul] at le
  omega

theorem Kept.low (kept : Kept fs others g) (whole : full fs g.cg.blksfree h = true) : h < fs.fpg / fs.frag := by
  refine (le_div_iff_mul_le (frag_pos fs)).mpr ?_
  rw [succ_mul]
  exact kept.fragments whole

structure Took (fs : Fs) (others : Csum) (g g' : Group) (h : Nat) : Prop where
  kept : Kept fs others g'
  cgx : g'.cg.cgx = g.cg.cgx
  ndblk : g'.cg.ndblk = g.cg.ndblk
  was : ∀ i < fs.frag,isset g.cg.blksfree (h * fs.frag + i) = true
  now : ∀ i < fs.frag,isset g'.cg.blksfree (h * fs.frag + i) = false
  fits : h * fs.frag + fs.frag ≤ g.cg.ndblk

theorem takeBlock_took (kept : Kept fs others g) (whole : full fs g.cg.blksfree h = true) (q : Nat) {r : Nat} (rotor : r < fs.fpg) :
    Took fs others g (takeBlock fs { g with cg := { g.cg with rotor := q, frotor := r } } (h * fs.frag)).2 h := by
  have was := full_iff.mp whole
  have now (i : Nat) (low : i < fs.frag) : isset (clrblock fs g.cg.blksfree h) (h * fs.frag + i) = false := by
    rw [isset_clrblock,decide_eq_true (inBlock_at fs h low),Bool.not_true,Bool.and_false]
  have change := flip_change kept false (kept.inside whole) (z := clrblock fs g.cg.blksfree h)
    (fun i out => by rw [isset_clrblock,decide_eq_false out,Bool.not_false,Bool.and_true]) was now q rotor
  have same : fragstoblks fs (h * fs.frag) = h := Nat.mul_div_cancel _ (frag_pos fs)
  have result : (takeBlock fs { g with cg := { g.cg with rotor := q, frotor := r } } (h * fs.frag)).2 =
      (clusteracct fs ({ g with cg := { g.cg with rotor := q, frotor := r } }.map (clrblock fs g.cg.blksfree h)) h (-1)).count (-1) 0 := by
    unfold takeBlock
    rw [same]
  rw [result]
  refine ⟨kept.change (kept.low whole) change,change.fixed.1,change.fixed.2.1,was,?_,?_⟩
  · intro i low
    obtain ⟨map,sums,top,only⟩ := (acct_spec (g := { g with cg := { g.cg with rotor := q, frotor := r } }.map (clrblock fs g.cg.blksfree h)) (h := h) false
      (fun some_ => ⟨(kept.clusters some_).sums⟩) (kept.inside whole) fun some_ => (kept.map some_ h (kept.inside whole)).trans whole).same
    have only : clusteracct fs ({ g with cg := { g.cg with rotor := q, frotor := r } }.map (clrblock fs g.cg.blksfree h)) h (-1) = _ := only
    rw [only]
    exact now i low
  have low := kept.inside whole
  rw [kept.nclusterblks] at low
  have le := mul_le_mul_right fs.frag (succ_le_of_lt low)
  have size := div_mul_le_self g.cg.ndblk fs.frag
  rw [succ_mul] at le
  omega

theorem Kept.block_of_run (shape : Shape fs) (kept : Kept fs others g) (pos : 1 ≤ siz) (run : RunIn fs g.cg.blksfree b siz p) : b < fs.fpg / fs.frag := by
  have set := run.2.1 0 pos
  exact kept.block shape set

theorem Kept.search (shape : Shape fs) (kept : Kept fs others g) (pos : 1 ≤ siz) (low : siz ≤ fs.frag) (run : siz ∈ runs (bits fs g.cg.blksfree h)) (bpref : Nat) :
    ∃ b p frotor,mapsearch fs g.cg bpref siz = some (b * fs.frag + p,{ g.cg with frotor := frotor }) ∧ frotor < fs.fpg ∧ RunIn fs g.cg.blksfree b siz p :=
  mapsearch_spec shape.fpg kept.rotor (fun i high => kept.tail i (le_trans kept.size high)) pos low run

theorem searchBlock_took (shape : Shape fs) (kept : Kept fs others g) (some_ : g.cg.cs.nbfree ≠ 0) (bpref : Nat) :
    ∃ h g',searchBlock fs g bpref = some (g.cg.cgx * fs.fpg + h * fs.frag,g') ∧ Took fs others g g' h := by
  rw [kept.nbfree] at some_
  obtain ⟨b,-,whole⟩ := Finset.exists_ne_zero_of_sum_ne_zero some_
  have all : full fs g.cg.blksfree b = true := by
    by_contra no
    exact whole (if_neg no)
  have run : fs.frag ∈ runs (bits fs g.cg.blksfree b) := by
    rw [bits_const (full_iff.mp all),runs_replicate,one,if_neg (ne_of_gt (frag_pos fs))]
    exact mem_singleton.mpr rfl
  obtain ⟨h,p,frotor,found,rotor,within,set,-⟩ := kept.search shape (frag_pos fs) (le_refl _) run bpref
  have first : p = 0 := by omega
  subst first
  have whole : full fs g.cg.blksfree h = true := full_iff.mpr fun i low => by
    have here := set i low
    rw [zero_add] at here
    exact here
  refine ⟨h,_,?_,takeBlock_took kept whole (h * fs.frag + 0) rotor⟩
  unfold searchBlock
  rw [found]
  rfl

theorem alloccgblk_took (shape : Shape fs) (kept : Kept fs others g) (some_ : g.cg.cs.nbfree ≠ 0) (bpref : Nat) :
    ∃ h g',alloccgblk fs g bpref false = some (g.cg.cgx * fs.fpg + h * fs.frag,g') ∧ Took fs others g g' h := by
  unfold alloccgblk
  split
  · exact searchBlock_took shape kept some_ _
  split
  · rename_i whole
    rw [full_eq_isblock] at whole
    have took := takeBlock_took kept whole g.cg.rotor kept.rotor
    refine ⟨_,_,?_,took⟩
    congr 1
    rw [← shape.first bpref]
    exact Prod.ext rfl rfl
  · exact searchBlock_took shape kept some_ _

-- n fragments of one block of the group, which are in use now and, from the one at start on, were free.
structure Allocates (fs : Fs) (g g' : Group) (bno start n : Nat) : Prop where
  group : dtog fs bno = g.cg.cgx
  block : fragnum fs bno + n ≤ fs.frag
  was : ∀ i,start ≤ i → i < n → isset g.cg.blksfree (dtogd fs bno + i) = true
  now : ∀ i < n,isset g'.cg.blksfree (dtogd fs bno + i) = false

theorem dtogd_at (c : Nat) {d : Nat} (low : d < fs.fpg) : dtogd fs (c * fs.fpg + d) = d ∧ dtog fs (c * fs.fpg + d) = c := by
  constructor
  · unfold dtogd
    rw [mul_comm,mul_add_mod,mod_eq_of_lt low]
  unfold dtog
  rw [mul_comm,mul_add_div (zero_lt_of_lt low),div_eq_of_lt low,add_zero]

theorem fragnum_at (shape : Shape fs) (c h : Nat) {p : Nat} (low : p < fs.frag) : fragnum fs (c * fs.fpg + (h * fs.frag + p)) = p := by
  obtain ⟨m,whole⟩ := shape.blocks
  unfold fragnum
  have even : c * (fs.frag * m) + (h * fs.frag + p) = fs.frag * (c * m + h) + p := by ring
  rw [whole,even,mul_add_mod,mod_eq_of_lt low]

theorem Took.allocates (took : Took fs others g g' h) (kept : Kept fs others g) (shape : Shape fs) :
    Allocates fs g g' (g.cg.cgx * fs.fpg + h * fs.frag) 0 fs.frag := by
  have low : h * fs.frag < fs.fpg := by
    have := took.fits
    have := kept.size
    have := frag_pos fs
    omega
  obtain ⟨place,group⟩ := dtogd_at g.cg.cgx low
  refine ⟨group,?_,?_,?_⟩
  · have first := fragnum_at shape g.cg.cgx h (frag_pos fs)
    rw [add_zero] at first
    rw [first,zero_add]
  · rw [place]
    exact fun i _ low => took.was i low
  rw [place]
  exact took.now

theorem hackBlock_kept (shape : Shape fs) (kept : Kept fs others g) (took : Took fs others g g' h) (pos : 0 < n) (low : n < fs.frag) :
    Kept fs others (hackBlock fs n (g.cg.cgx * fs.fpg + h * fs.frag,g')).2 ∧
      Allocates fs g (hackBlock fs n (g.cg.cgx * fs.fpg + h * fs.frag,g')).2 (g.cg.cgx * fs.fpg + h * fs.frag) 0 n := by
  have whole := took.allocates kept shape
  have inside : h * fs.frag < fs.fpg := by
    have := took.fits
    have := kept.size
    omega
  have place := (dtogd_at g.cg.cgx inside).1
  have within : n + (fs.frag - n) ≤ fs.frag := by omega
  have after (i : Nat) (few : i < n) : isset (setbits g'.cg.blksfree (h * fs.frag + n) (fs.frag - n)) (h * fs.frag + i) = false := by
    rw [isset_setbits,took.now i (by omega),decide_eq_false (by omega)]
    rfl
  have old : bits fs g'.cg.blksfree h = replicate fs.frag false := bits_const took.now
  have new : bits fs (setbits g'.cg.blksfree (h * fs.frag + n) (fs.frag - n)) h = [] ++ (replicate n false ++ replicate (fs.frag - n) true) := by
    have start : slice (isset g'.cg.blksfree) (h * fs.frag) n = replicate n false := slice_const fun i few => took.now i (by omega)
    rw [setbits_split within,start,show fs.frag - n - (fs.frag - n) = 0 by omega]
    exact congrArg _ (append_nil _)
  have change := part_change (b := h) (z := setbits g'.cg.blksfree (h * fs.frag + n) (fs.frag - n)) took.kept (setbits_others within)
    (fun i here _ => by
      have := here.2
      have := took.fits
      rw [took.ndblk]
      omega)
    (full_false_of (frag_pos fs) (took.now 0 (frag_pos fs))) (full_false_of (frag_pos fs) (after 0 pos)) took.kept.rotor
    (y := (fs.frag - n : Nat)) (f := addTo g'.cg.frsum (fs.frag - n) 1)
    (by
      rw [old,new]
      simp [count_replicate])
    (fun k first _ => by
      rw [old,new,runs_none,runs_hole [] pos,runs_replicate,count_append,count_one _ _ first,addTo_eq]
      simp [runs,runsFrom,one,eq_comm])
  have result : hackBlock fs n (g.cg.cgx * fs.fpg + h * fs.frag,g') = (g.cg.cgx * fs.fpg + h * fs.frag,
      ((g'.map (setbits g'.cg.blksfree (h * fs.frag + n) (fs.frag - n))).count 0 (fs.frag - n : Nat)).sums (addTo g'.cg.frsum (fs.frag - n) 1)) := by
    unfold hackBlock
    rw [place]
  rw [result]
  refine ⟨took.kept.change ?_ change,whole.group,?_,fun i from_ few => whole.was i from_ (by omega),fun i few => ?_⟩
  · exact kept.low (full_iff.mpr took.was)
  · have := whole.block
    omega
  rw [place]
  exact after i few

theorem cut_kept (shape : Shape fs) (kept : Kept fs others g) (run : RunIn fs g.cg.blksfree b siz p) (pos : 1 ≤ siz ∨ b < fs.fpg / fs.frag)
    (few : n ≤ siz) (part : ∃ i < fs.frag,isset g.cg.blksfree (b * fs.frag + i) = false) {r : Nat} (rotor : r < fs.fpg) {f : Nat → Int}
    (sums : ∀ k,1 ≤ k → f k = g.cg.frsum k + ((if siz - n = k then 1 else 0) - (if siz = k then 1 else 0))) :
    Kept fs others ((({ g with cg := { g.cg with frotor := r } }.map (clrbits g.cg.blksfree (b * fs.frag + p) n)).count 0 (-n)).sums f) := by
  obtain ⟨i,low,clear⟩ := part
  have within : p + n ≤ fs.frag := Nat.le_trans (Nat.add_le_add_left few p) run.1
  have still : isset (clrbits g.cg.blksfree (b * fs.frag + p) n) (b * fs.frag + i) = false := by
    rw [isset_clrbits,clear,Bool.false_and]
  have counts := clrbits_count (a := g.cg.blksfree) (h := b) (p := p) (n := n) within fun i low => by
    rw [Nat.add_assoc]
    exact run.2.1 i (by omega)
  have change := part_change (b := b) kept (clrbits_others (a := g.cg.blksfree) (h := b) within)
    (fun i _ set => by
      refine Nat.lt_of_not_le fun high => ?_
      rw [isset_clrbits,kept.tail i high,Bool.false_and] at set
      cases set)
    (full_false_of low clear) (full_false_of low still) rotor (y := -n) (f := f) (by omega)
    (fun k first _ => by rw [sums k first,cut_runs run few first])
  refine kept.change ?_ change
  rcases pos with first | here
  · exact kept.block_of_run shape first run
  · exact here

theorem RunIn.part {a : Nat → Byte} (run : RunIn fs a b siz p) (low : siz < fs.frag) : ∃ i < fs.frag,isset a (b * fs.frag + i) = false := by
  obtain ⟨within,-,left,right⟩ := run
  rcases left with first | clear
  · exact ⟨p + siz,by omega,right.resolve_left (by omega)⟩
  · exact ⟨p - 1,by have := frag_pos fs; omega,clear⟩

structure Size (fs : Fs) (size : Nat) : Prop where
  pos : 0 < size
  fits : size ≤ fs.bsize
  whole : fs.fsize ∣ size

theorem Size.numfrags (shape : Shape fs) (sized : Size fs size) : 0 < numfrags fs size ∧ numfrags fs size ≤ fs.frag ∧
    (numfrags fs size = fs.frag ↔ size = fs.bsize) := by
  obtain ⟨m,rfl⟩ := sized.whole
  have pos := shape.fsize
  have same : FfsBlock.numfrags fs (fs.fsize * m) = m := Nat.mul_div_cancel_left _ pos
  have fits := sized.fits
  rw [shape.bsize,mul_comm] at fits
  rw [same,shape.bsize,mul_comm]
  refine ⟨Nat.pos_of_mul_pos_left sized.pos,Nat.le_of_mul_le_mul_right fits pos,fun all => by rw [all],fun all => Nat.eq_of_mul_eq_mul_right pos all⟩

theorem cut_sums (f : Nat → Int) {d : Nat} (few : n ≤ siz) (rest : d = siz - n) (pos : 1 ≤ k) :
    (if n ≠ siz then addTo (addTo f siz (-1)) d 1 else addTo f siz (-1)) k =
      f k + ((if siz - n = k then 1 else 0) - (if siz = k then 1 else 0)) := by
  split
  · rw [addTo_eq,addTo_eq]
    split_ifs <;> omega
  rw [addTo_eq]
  split_ifs <;> omega

theorem takeFrags_kept (shape : Shape fs) (kept : Kept fs others g) (run : RunIn fs g.cg.blksfree b siz p) (pos : 0 < n) (few : n ≤ siz) (low : siz < fs.frag)
    {r : Nat} (rotor : r < fs.fpg) :
    Kept fs others (takeFrags fs { g with cg := { g.cg with frotor := r } } (b * fs.frag + p) n siz).2 ∧
      Allocates fs g (takeFrags fs { g with cg := { g.cg with frotor := r } } (b * fs.frag + p) n siz).2
        (takeFrags fs { g with cg := { g.cg with frotor := r } } (b * fs.frag + p) n siz).1 0 n := by
  have within := run.1
  have inside : b * fs.frag + p < fs.fpg := by
    have set := run.2.1 0 (by omega)
    refine Nat.lt_of_not_le fun high => ?_
    rw [Nat.add_zero,kept.tail _ (Nat.le_trans kept.size high)] at set
    cases set
  obtain ⟨place,group⟩ := dtogd_at g.cg.cgx inside
  have first : (takeFrags fs { g with cg := { g.cg with frotor := r } } (b * fs.frag + p) n siz).1 = g.cg.cgx * fs.fpg + (b * fs.frag + p) := by
    show fs.fpg * g.cg.cgx + _ = _
    rw [mul_comm]
  refine ⟨cut_kept shape kept run (.inl (by omega)) few (run.part low) rotor fun k pos => cut_sums _ few rfl pos,?_⟩
  · rw [first]
    refine ⟨group,?_,fun i _ low => ?_,fun i low => ?_⟩
    · rw [fragnum_at shape g.cg.cgx b (by omega)]
      omega
    · rw [place,add_assoc]
      exact run.2.1 i (by omega)
    show isset (clrbits g.cg.blksfree (b * fs.frag + p) n) _ = false
    rw [isset_clrbits,decide_eq_true (by omega),Bool.not_true,Bool.and_false]

theorem Kept.run (kept : Kept fs others g) (pos : 1 ≤ siz) (low : siz < fs.frag) (some_ : g.cg.frsum siz ≠ 0) :
    ∃ h,siz ∈ runs (bits fs g.cg.blksfree h) := by
  rw [kept.frsum siz pos low] at some_
  obtain ⟨h,-,counts⟩ := Finset.exists_ne_zero_of_sum_ne_zero some_
  refine ⟨h,?_⟩
  unfold runsOf at counts
  split at counts
  · exact absurd rfl counts
  refine count_pos_iff.mp (pos_of_ne_zero fun zero => counts ?_)
  rw [zero]
  rfl

theorem alloccg_spec (shape : Shape fs) (kept : Kept fs others g) (sized : Size fs size) (bpref : Nat) :
    ∃ bno g',alloccg fs g bpref size false = some (bno,g') ∧ Kept fs others g' ∧ (bno ≠ 0 → Allocates fs g g' bno 0 (numfrags fs size)) := by
  obtain ⟨pos,few,whole⟩ := sized.numfrags shape
  unfold alloccg
  split
  · exact ⟨_,_,rfl,kept,fun some_ => absurd rfl some_⟩
  split
  · exact ⟨_,_,rfl,kept,fun some_ => absurd rfl some_⟩
  rename_i room
  split
  · rename_i block
    obtain ⟨h,g',result,took⟩ := alloccgblk_took shape kept (fun none_ => room ⟨none_,block⟩) bpref
    exact ⟨_,_,result,took.kept,fun _ => by rw [whole.mpr block]; exact took.allocates kept shape⟩
  rename_i part
  have low : numfrags fs size < fs.frag := lt_of_le_of_ne few fun all => part (whole.mp all)
  split
  · split
    · exact ⟨_,_,rfl,kept,fun some_ => absurd rfl some_⟩
    rename_i some_
    obtain ⟨h,g',result,took⟩ := alloccgblk_took shape kept some_ bpref
    obtain ⟨kept',allocates⟩ := hackBlock_kept shape kept took pos low
    rw [result]
    exact ⟨_,_,rfl,kept',fun _ => allocates⟩
  rename_i siz found
  obtain ⟨some_,inside,-⟩ := find?_range'_eq_some.mp found
  have some_ : g.cg.frsum siz ≠ 0 := of_decide_eq_true some_
  rw [mem_range'_1] at inside
  obtain ⟨h,run⟩ := kept.run (by omega) (by omega) some_
  obtain ⟨b,p,frotor,search,rotor,here⟩ := kept.search shape (by omega) (by omega) run bpref
  obtain ⟨kept',allocates⟩ := takeFrags_kept shape kept here pos inside.1 (by omega) rotor
  rw [search]
  exact ⟨_,_,rfl,kept',fun _ => allocates⟩

structure InUse (fs : Fs) (g : Group) (bno n : Nat) : Prop where
  group : dtog fs bno = g.cg.cgx
  block : fragnum fs bno + n ≤ fs.frag
  used : ∀ i < n,isset g.cg.blksfree (dtogd fs bno + i) = false
  within : dtogd fs bno + n ≤ g.cg.ndblk

theorem InUse.low (shape : Shape fs) (kept : Kept fs others g) (used : InUse fs g bno n) (pos : 0 < n) : dtogd fs bno / fs.frag < fs.fpg / fs.frag := by
  obtain ⟨m,whole⟩ := shape.blocks
  have below : dtogd fs bno < fs.fpg := by
    have := used.within
    have := kept.size
    omega
  rw [whole,Nat.mul_div_cancel_left _ (frag_pos fs)]
  rw [whole] at below
  exact Nat.div_lt_of_lt_mul below

theorem freeEnd_spec {frags bbase : Nat} (le : frags ≤ fs.frag - bbase) : frags ≤ freeEnd fs g bno frags bbase ∧ freeEnd fs g bno frags bbase ≤ fs.frag - bbase ∧
    (∀ j,frags ≤ j → j < freeEnd fs g bno frags bbase → isset g.cg.blksfree (bno + j) = true) ∧
    (freeEnd fs g bno frags bbase = fs.frag - bbase ∨ isset g.cg.blksfree (bno + freeEnd fs g bno frags bbase) = false) := by
  have clear (i : Nat) : isclr g.cg.blksfree (bno + i) = !isset g.cg.blksfree (bno + i) := isclr_eq ..
  unfold freeEnd
  cases found : (range' frags (fs.frag - bbase - frags)).find? fun i => isclr g.cg.blksfree (bno + i) with
  | none =>
    rw [find?_range'_eq_none] at found
    rw [Option.getD_none,max_eq_right le]
    refine ⟨le,le_refl _,fun j low high => ?_,.inl rfl⟩
    have here := found j low (by omega)
    rw [clear,Bool.not_not] at here
    exact here
  | some i =>
    obtain ⟨stop,inside,before⟩ := find?_range'_eq_some.mp found
    rw [mem_range'_1] at inside
    rw [clear,not_eq_true'] at stop
    rw [Option.getD_some]
    refine ⟨inside.1,by omega,fun j low high => ?_,.inr stop⟩
    have here := before j low high
    rw [clear,Bool.not_not] at here
    exact here

theorem fragextend_spec (shape : Shape fs) (kept : Kept fs others g) (old : Size fs osize) (new : Size fs nsize) (grows : osize ≤ nsize)
    (used : InUse fs g bno (numfrags fs osize)) : Kept fs others (fragextend fs g bno osize nsize).2 ∧ ((fragextend fs g bno osize nsize).1 ≠ 0 →
      Allocates fs g (fragextend fs g bno osize nsize).2 (fragextend fs g bno osize nsize).1 (numfrags fs osize) (numfrags fs nsize)) := by
  obtain ⟨pos,-,-⟩ := old.numfrags shape
  obtain ⟨-,few,-⟩ := new.numfrags shape
  have le : numfrags fs osize ≤ numfrags fs nsize := Nat.div_le_div_right grows
  unfold fragextend
  split
  · exact ⟨kept,fun some_ => absurd rfl some_⟩
  split
  · exact ⟨kept,fun some_ => absurd rfl some_⟩
  rename_i same
  split
  · exact ⟨kept,fun some_ => absurd rfl some_⟩
  rename_i free
  have place := (shape.split bno).1
  have fits : fragnum fs bno + numfrags fs nsize ≤ fs.frag := by
    refine Nat.le_of_not_lt fun excess => same ?_
    have wraps : bno + numfrags fs nsize - 1 = fs.frag * (bno / fs.frag + 1) + (fragnum fs bno + numfrags fs nsize - 1 - fs.frag) := by
      have whole : fs.frag * (bno / fs.frag) + fragnum fs bno = bno := div_add_mod bno fs.frag
      rw [mul_succ]
      omega
    have less : fragnum fs bno < fs.frag := mod_lt _ (frag_pos fs)
    have rest : fragnum fs (bno + numfrags fs nsize - 1) = fragnum fs bno + numfrags fs nsize - 1 - fs.frag := by
      unfold fragnum at *
      rw [wraps,mul_add_mod,mod_eq_of_lt (by omega)]
    omega
  have taken (j : Nat) (low : numfrags fs osize ≤ j) (high : j < numfrags fs nsize) : isset g.cg.blksfree (dtogd fs bno + j) = true := by
    rw [← not_eq_false]
    intro clear
    refine free (any_eq_true.mpr ⟨j,mem_range'_1.mpr ⟨low,by omega⟩,?_⟩)
    rw [isclr_eq,clear]
    rfl
  obtain ⟨from_,upto,all,stop⟩ := @freeEnd_spec fs g (dtogd fs bno) (numfrags fs nsize) (fragnum fs bno) (by omega)
  generalize freeEnd fs g (dtogd fs bno) (numfrags fs nsize) (fragnum fs bno) = i at *
  have last := used.used (numfrags fs osize - 1) (by omega)
  have first := used.used 0 pos
  have run : RunIn fs g.cg.blksfree (dtogd fs bno / fs.frag) (i - numfrags fs osize) (fragnum fs bno + numfrags fs osize) := by
    refine ⟨by omega,fun j low => ?_,.inr ?_,?_⟩
    · rw [show dtogd fs bno / fs.frag * fs.frag + (fragnum fs bno + numfrags fs osize + j) = dtogd fs bno + (numfrags fs osize + j) by omega]
      rcases lt_or_ge (numfrags fs osize + j) (numfrags fs nsize) with asked | beyond
      · exact taken _ (by omega) asked
      · exact all _ beyond (by omega)
    · rw [show dtogd fs bno / fs.frag * fs.frag + (fragnum fs bno + numfrags fs osize - 1) = dtogd fs bno + (numfrags fs osize - 1) by omega]
      exact last
    refine stop.imp (fun end_ => by omega) fun clear => ?_
    rw [show dtogd fs bno / fs.frag * fs.frag + (fragnum fs bno + numfrags fs osize + (i - numfrags fs osize)) = dtogd fs bno + i by omega]
    exact clear
  have cut := cut_kept shape kept run (.inr (used.low shape kept pos)) (n := numfrags fs nsize - numfrags fs osize) (by omega)
    ⟨fragnum fs bno,by omega,by rw [← place]; exact first⟩ kept.rotor
    (f := if i ≠ numfrags fs nsize then addTo (addTo g.cg.frsum (i - numfrags fs osize) (-1)) (i - numfrags fs nsize) 1
      else addTo g.cg.frsum (i - numfrags fs osize) (-1)) fun k one_ => by
      rw [← cut_sums g.cg.frsum (show numfrags fs nsize - numfrags fs osize ≤ i - numfrags fs osize by omega)
        (show i - numfrags fs nsize = i - numfrags fs osize - (numfrags fs nsize - numfrags fs osize) by omega) one_]
      by_cases end_ : i = numfrags fs nsize
      · rw [if_neg (not_not.mpr end_),if_neg (by omega)]
      · rw [if_pos end_,if_pos (by omega)]
  rw [show dtogd fs bno / fs.frag * fs.frag + (fragnum fs bno + numfrags fs osize) = dtogd fs bno + numfrags fs osize by omega] at cut
  refine ⟨cut,fun _ => ⟨used.group,fits,fun j low high => taken j low high,fun j low => ?_⟩⟩
  show isset (clrbits g.cg.blksfree (dtogd fs bno + numfrags fs osize) (numfrags fs nsize - numfrags fs osize)) (dtogd fs bno + j) = false
  rw [isset_clrbits]
  rcases lt_or_ge j (numfrags fs osize) with before | beyond
  · rw [used.used j before,Bool.false_and]
  · rw [decide_eq_true (by omega),Bool.not_true,Bool.and_false]
end NetbsdAvr32.FfsBlock
