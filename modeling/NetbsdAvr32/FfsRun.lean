import NetbsdAvr32.FfsExact

-- ffs_blkalloc and ffs_blkfree of a given range, and runs of the four operations.
namespace NetbsdAvr32.FfsBlock
open ByteMap RingBuffer BoolRuns Nat
variable {fs : Fs} {others : Csum} {g g' : Group} {h i k n p bno size : Nat}

structure Range (fs : Fs) (bno h p n : Nat) : Prop where
  place : dtogd fs bno = h * fs.frag + p
  base : dtogd fs bno - fragnum fs (dtogd fs bno) = h * fs.frag
  block : fragstoblks fs (h * fs.frag) = h
  first : fragstoblks fs (dtogd fs bno) = h
  within : p + n ≤ fs.frag

theorem Shape.range (shape : Shape fs) (block : fragnum fs bno + n ≤ fs.frag) : Range fs bno (dtogd fs bno / fs.frag) (fragnum fs bno) n := by
  obtain ⟨place,same⟩ := shape.split bno
  refine ⟨place,?_,Nat.mul_div_cancel _ (frag_pos fs),rfl,block⟩
  omega

theorem good_size (shape : Shape fs) (sized : Size fs size) (block : fragnum fs bno + numfrags fs size ≤ fs.frag) : badSize fs bno size = false := by
  have whole : fragoff fs size = 0 := mod_eq_zero_of_dvd sized.whole
  unfold badSize
  rw [whole,decide_eq_false (Nat.not_lt_of_le sized.fits),decide_eq_false (Nat.not_lt_of_le block)]
  rfl

theorem changeFrags_eq (range : Range fs bno h p n) (g : Group) (z : Nat → Byte) (y : Int) : changeFrags fs g (dtogd fs bno) z y =
    ((g.map z).count 0 y).sums (fragacct fs (blkmap fs z (h * fs.frag)) (fragacct fs (blkmap fs g.cg.blksfree (h * fs.frag)) g.cg.frsum (-1)) 1) := by
  unfold changeFrags
  rw [range.base]

theorem splitBlock_map (fs : Fs) (g : Group) (h : Nat) (whole : Prop) [Decidable whole] :
    (if whole then splitBlock fs g h else g).cg.blksfree = g.cg.blksfree := by
  split
  · unfold splitBlock clusteracct
    split <;> rfl
  · rfl

theorem Csum.add_add (c : Csum) (x y x' y' : Int) : (c.add x y).add x' y' = c.add (x + x') (y + y') := by
  unfold Csum.add
  rw [Int.add_assoc,Int.add_assoc]

theorem cutRange_kept (shape : Shape fs) (kept : Kept fs others g) (range : Range fs bno h p n) (pos : 0 < n) (part : n < fs.frag)
    (set : ∀ i < n,isset g.cg.blksfree (dtogd fs bno + i) = true) : Kept fs others (changeFrags fs (if isblock fs g.cg.blksfree h then splitBlock fs g h else g)
      (dtogd fs bno) (clrbits g.cg.blksfree (dtogd fs bno) n) (-n)) := by
  rw [changeFrags_eq range]
  rw [range.place] at set ⊢
  have within := range.within
  have first := set 0 pos
  rw [add_zero] at first
  have here : h < fs.fpg / fs.frag := kept.block shape first
  have others_ := clrbits_others (a := g.cg.blksfree) (h := h) within
  have inside (i : Nat) (_ : InBlock fs h i) (left : isset (clrbits g.cg.blksfree (h * fs.frag + p) n) i = true) : i < g.cg.ndblk := by
    refine Nat.lt_of_not_le fun high => ?_
    rw [isset_clrbits,kept.tail i high,Bool.false_and] at left
    cases left
  have now : full fs (clrbits g.cg.blksfree (h * fs.frag + p) n) h = false := by
    refine full_false_of (i := p) (by omega) ?_
    rw [isset_clrbits,decide_eq_true (by omega),Bool.not_true,Bool.and_false]
  have counts := clrbits_count (a := g.cg.blksfree) within set
  rw [full_eq_isblock]
  cases was : full fs g.cg.blksfree h with
  | true =>
    have acct := acct_spec (g := g.count 0 fs.frag) (h := h) false (fun some_ => ⟨(kept.clusters some_).sums⟩) (kept.inside was)
      fun some_ => (kept.map some_ h (kept.inside was)).trans was
    obtain ⟨map,sums,top,result⟩ := acct.same
    have flips := acct.map
    have clusters := acct.clusters
    have result : clusteracct fs (g.count 0 fs.frag) h (-1) = _ := result
    change fs.contigsumsize ≠ 0 → ∀ i,isset (clusteracct fs (g.count 0 fs.frag) h (-1)).cg.clustersfree i = _ at flips
    change fs.contigsumsize ≠ 0 → Clusters fs (clusteracct fs (g.count 0 fs.frag) h (-1)).cg at clusters
    rw [if_pos rfl]
    unfold splitBlock
    rw [result] at flips clusters ⊢
    have all : (bits fs g.cg.blksfree h).count true = fs.frag := by
      rw [bits_const (full_iff.mp was),List.count_replicate_self]
    refine kept.change here (cross_change kept false others_ inside was now rfl rfl ⟨rfl,rfl,rfl⟩
      (fun k first low => changeFrags_sums fs g.cg.blksfree _ h g.cg.frsum first low) flips (fun some_ => ⟨(clusters some_).sums⟩) (y := fs.frag - n) ?_ ?_)
    · rw [(wholes_part now).2.1,(wholes_full was).2.1]
      omega
    have counted (c : Csum) : ((c.add 0 fs.frag).add (-1) 0).add 0 (-n) = c.add (-1) (fs.frag - n) := by
      rw [Csum.add_add,Csum.add_add]
      congr 1
      ring
    exact ⟨counted _,counted _,counted _⟩
  | false =>
    rw [if_neg Bool.false_ne_true]
    refine kept.change here (part_change kept others_ inside was now kept.rotor (by omega) fun k first low => ?_)
    rw [changeFrags_sums fs g.cg.blksfree _ h g.cg.frsum first low,(wholes_part was).2.2,(wholes_part now).2.2]

theorem giveRange_kept (shape : Shape fs) (kept : Kept fs others g) (range : Range fs bno h p n) (here : h < fs.fpg / fs.frag) (pos : 0 < n)
    (clear : ∀ i < n,isset g.cg.blksfree (dtogd fs bno + i) = false) (below : dtogd fs bno + n ≤ g.cg.ndblk) :
    Kept fs others (if isblock fs (setbits g.cg.blksfree (dtogd fs bno) n) h then joinBlock fs (changeFrags fs g (dtogd fs bno) (setbits g.cg.blksfree (dtogd fs bno) n) n) h
      else changeFrags fs g (dtogd fs bno) (setbits g.cg.blksfree (dtogd fs bno) n) n) := by
  rw [changeFrags_eq range]
  rw [range.place] at clear below ⊢
  have within := range.within
  have others_ := setbits_others (a := g.cg.blksfree) (h := h) within
  have inside (i : Nat) (_ : InBlock fs h i) (free : isset (setbits g.cg.blksfree (h * fs.frag + p) n) i = true) : i < g.cg.ndblk := by
    refine Nat.lt_of_not_le fun high => ?_
    rw [isset_setbits,kept.tail i high,decide_eq_false (by omega)] at free
    cases free
  have was : full fs g.cg.blksfree h = false := full_false_of (i := p) (by omega) (clear 0 pos)
  have counts := setbits_count (a := g.cg.blksfree) within clear
  rw [full_eq_isblock]
  cases now : full fs (setbits g.cg.blksfree (h * fs.frag + p) n) h with
  | true =>
    have low : h < g.cg.nclusterblks := by
      have last := inside _ (inBlock_at fs h (sub_lt (frag_pos fs) one_pos)) (full_iff.mp now _ (sub_lt (frag_pos fs) one_pos))
      have := frag_pos fs
      rw [kept.nclusterblks]
      refine (le_div_iff_mul_le this).mpr ?_
      rw [succ_mul]
      omega
    generalize moved : ((g.map (setbits g.cg.blksfree (h * fs.frag + p) n)).count 0 n).sums _ = changed
    have acct := acct_spec (g := changed.count 0 (-fs.frag)) (h := h) true (fun some_ => by subst moved; exact ⟨(kept.clusters some_).sums⟩)
      (by subst moved; exact low) fun some_ => by subst moved; exact (kept.map some_ h low).trans was
    obtain ⟨map,sums,top,result⟩ := acct.same
    have flips := acct.map
    have clusters := acct.clusters
    have result : clusteracct fs (changed.count 0 (-fs.frag)) h 1 = _ := result
    change fs.contigsumsize ≠ 0 → ∀ i,isset (clusteracct fs (changed.count 0 (-fs.frag)) h 1).cg.clustersfree i = _ at flips
    change fs.contigsumsize ≠ 0 → Clusters fs (clusteracct fs (changed.count 0 (-fs.frag)) h 1).cg at clusters
    rw [if_pos rfl]
    unfold joinBlock
    rw [result] at flips clusters ⊢
    subst moved
    have all : (bits fs (setbits g.cg.blksfree (h * fs.frag + p) n) h).count true = fs.frag := by
      rw [bits_const (full_iff.mp now),List.count_replicate_self]
    refine kept.change here (cross_change kept true others_ inside was now rfl rfl ⟨rfl,rfl,rfl⟩
      (fun k first low => changeFrags_sums fs g.cg.blksfree _ h g.cg.frsum first low) flips (fun some_ => ⟨(clusters some_).sums⟩) (y := n - fs.frag) ?_ ?_)
    · rw [(wholes_part was).2.1,(wholes_full now).2.1]
      omega
    have counted (c : Csum) : ((c.add 0 n).add 0 (-fs.frag)).add 1 0 = c.add 1 (n - fs.frag) := by
      rw [Csum.add_add,Csum.add_add]
      congr 1
      ring
    exact ⟨counted _,counted _,counted _⟩
  | false =>
    rw [if_neg Bool.false_ne_true]
    refine kept.change here (part_change kept others_ inside was now kept.rotor (by omega) fun k first low => ?_)
    rw [changeFrags_sums fs g.cg.blksfree _ h g.cg.frsum first low,(wholes_part was).2.2,(wholes_part now).2.2]

theorem blkalloc_spec (shape : Shape fs) (kept : Kept fs others g) (sized : Size fs size) (group : dtog fs bno = g.cg.cgx)
    (block : fragnum fs bno + numfrags fs size ≤ fs.frag) : ∃ r,blkalloc fs g bno size = some r ∧
      ∀ g',r = .ok g' → Kept fs others g' ∧ Allocates fs g g' bno 0 (numfrags fs size) := by
  obtain ⟨pos,few,whole⟩ := sized.numfrags shape
  have range := shape.range block
  unfold blkalloc
  rw [good_size shape sized block,if_neg Bool.false_ne_true]
  split
  · exact ⟨_,rfl,nofun⟩
  split
  · rename_i all
    have all := whole.mpr all
    rw [all] at block ⊢
    have place : dtogd fs bno = dtogd fs bno / fs.frag * fs.frag := by
      have := range.place
      omega
    split
    · rename_i free
      rw [full_eq_isblock] at free
      have took := takeBlock_took kept free g.cg.rotor kept.rotor
      rw [← show dtogd fs bno = fragstoblks fs (dtogd fs bno) * fs.frag from place] at took
      refine ⟨_,rfl,fun g' same => ?_⟩
      injection same with same
      subst same
      refine ⟨took.kept,group,block,fun i _ low => ?_,fun i low => ?_⟩
      · rw [place]
        exact took.was i low
      have now := took.now i low
      rw [← show dtogd fs bno = fragstoblks fs (dtogd fs bno) * fs.frag from place] at now
      exact now
    · exact ⟨_,rfl,nofun⟩
  rename_i part
  have part : numfrags fs size < fs.frag := lt_of_le_of_ne few fun all => part (whole.mp all)
  split
  · exact ⟨_,rfl,nofun⟩
  rename_i clear
  have set (i : Nat) (low : i < numfrags fs size) : isset g.cg.blksfree (dtogd fs bno + i) = true := by
    rw [← Bool.not_eq_false]
    intro used
    refine clear (List.any_eq_true.mpr ⟨i,List.mem_range.mpr low,?_⟩)
    rw [isclr_eq,used]
    rfl
  refine ⟨_,rfl,fun g' same => ?_⟩
  injection same with same
  subst same
  have kept' := cutRange_kept shape kept range pos part set
  rw [range.base,range.block,splitBlock_map]
  refine ⟨kept',group,block,fun i _ low => set i low,fun i low => ?_⟩
  show isset (clrbits g.cg.blksfree (dtogd fs bno) (numfrags fs size)) (dtogd fs bno + i) = false
  rw [isset_clrbits,decide_eq_true (by omega),Bool.not_true,Bool.and_false]

theorem blkfree_spec (shape : Shape fs) (kept : Kept fs others g) (sized : Size fs size) (used : InUse fs g bno (numfrags fs size)) (claimed : Bool) :
    ∃ g',blkfree fs g bno size claimed = some g' ∧ Kept fs others g' := by
  obtain ⟨pos,few,whole⟩ := sized.numfrags shape
  have range := shape.range used.block
  have here := used.low shape kept pos
  unfold blkfree
  rw [good_size shape sized used.block,if_neg Bool.false_ne_true]
  split
  · exact ⟨_,rfl,kept⟩
  split
  · exact ⟨_,rfl,kept⟩
  split
  · rename_i all
    have all := whole.mpr all
    obtain ⟨-,block,clear,below⟩ := used
    rw [all] at block clear below
    have place : dtogd fs bno = dtogd fs bno / fs.frag * fs.frag := by
      have := range.place
      omega
    have was (i : Nat) (low : i < fs.frag) : isset g.cg.blksfree (dtogd fs bno / fs.frag * fs.frag + i) = false := by
      rw [← place]
      exact clear i low
    have low : dtogd fs bno / fs.frag < g.cg.nclusterblks := by
      rw [kept.nclusterblks]
      refine (le_div_iff_mul_le (frag_pos fs)).mpr ?_
      rw [succ_mul,← place]
      exact below
    have change := flip_change kept true low (z := setblock fs g.cg.blksfree (dtogd fs bno / fs.frag))
      (fun i out => by rw [isset_setblock,decide_eq_false out,Bool.or_false]) was
      (fun i low => by rw [isset_setblock,decide_eq_true (inBlock_at fs _ low),Bool.or_true]) g.cg.rotor kept.rotor
    have free : isfreeblock fs g.cg.blksfree (fragstoblks fs (dtogd fs bno)) = true := isfreeblock_iff.mpr was
    rw [if_pos free]
    exact ⟨_,rfl,kept.change here change⟩
  rename_i part
  have clear : ¬(List.range (numfrags fs size)).any (fun i => isset g.cg.blksfree (dtogd fs bno + i)) = true := by
    intro found
    obtain ⟨i,low,set⟩ := List.any_eq_true.mp found
    rw [used.used i (List.mem_range.mp low)] at set
    cases set
  rw [if_neg clear,range.base,range.block]
  exact ⟨_,rfl,giveRange_kept shape kept range here pos used.used used.within⟩

inductive Op where
  | alloccg (bpref size : Nat)
  | fragextend (bprev osize nsize : Nat)
  | blkalloc (bno size : Nat)
  | blkfree (bno size : Nat) (claimed : Bool)

-- The fragment that was allocated, if any, and the group after the operation.
def perform (fs : Fs) (g : Group) : Op → Option (Option Nat × Group)
  | .alloccg bpref size => (alloccg fs g bpref size false).map fun (bno,g) => (if bno = 0 then none else some bno,g)
  | .fragextend bprev osize nsize =>
    let (bno,g) := fragextend fs g bprev osize nsize
    some (if bno = 0 then none else some bno,g)
  | .blkalloc bno size => (blkalloc fs g bno size).map fun
    | .ok g => (some bno,g)
    | .error _ => (none,g)
  | .blkfree bno size claimed => (blkfree fs g bno size claimed).map fun g => (none,g)

-- A file gives back or extends what it holds; a range to allocate lies in one block.
def Allowed (fs : Fs) (g : Group) : Op → Prop
  | .alloccg _ size => Size fs size
  | .fragextend bprev osize nsize => Size fs osize ∧ Size fs nsize ∧ osize ≤ nsize ∧ InUse fs g bprev (numfrags fs osize)
  | .blkalloc bno size => Size fs size ∧ dtog fs bno = g.cg.cgx ∧ fragnum fs bno + numfrags fs size ≤ fs.frag
  | .blkfree bno size _ => Size fs size ∧ InUse fs g bno (numfrags fs size)

-- The fragments that an operation asks for: those from start up to count of the ones it returns.
def Op.start (fs : Fs) : Op → Nat
  | .fragextend _ osize _ => numfrags fs osize
  | _ => 0

def Op.count (fs : Fs) : Op → Nat
  | .alloccg _ size => numfrags fs size
  | .fragextend _ _ nsize => numfrags fs nsize
  | .blkalloc _ size => numfrags fs size
  | .blkfree .. => 0

inductive Runs (fs : Fs) : Group → List Op → Group → Prop where
  | nil {g : Group} : Runs fs g [] g
  | cons {g g₁ g' : Group} {op : Op} {r : Option Nat} {ops : List Op} (allowed : Allowed fs g op) (done : perform fs g op = some (r,g₁)) (rest : Runs fs g₁ ops g') : Runs fs g (op :: ops) g'

theorem perform_spec (shape : Shape fs) (kept : Kept fs others g) {op : Op} (allowed : Allowed fs g op) :
    ∃ r g',perform fs g op = some (r,g') ∧ Kept fs others g' ∧ ∀ bno,r = some bno → Allocates fs g g' bno (op.start fs) (op.count fs) := by
  cases op with
  | alloccg bpref size =>
    obtain ⟨bno,g',result,kept',allocates⟩ := alloccg_spec shape kept allowed bpref
    dsimp only [perform]
    rw [result]
    refine ⟨_,g',rfl,kept',fun b same => ?_⟩
    split at same
    · cases same
    next none_ =>
    injection same with same
    subst same
    exact allocates none_
  | fragextend bprev osize nsize =>
    obtain ⟨old,new,grows,used⟩ := allowed
    obtain ⟨kept',allocates⟩ := fragextend_spec shape kept old new grows used
    dsimp only [perform]
    generalize fragextend fs g bprev osize nsize = done at *
    refine ⟨_,_,rfl,kept',fun b same => ?_⟩
    split at same
    · cases same
    next none_ =>
    injection same with same
    subst same
    exact allocates none_
  | blkalloc bno size =>
    obtain ⟨sized,group,block⟩ := allowed
    obtain ⟨r,result,ok⟩ := blkalloc_spec shape kept sized group block
    dsimp only [perform]
    rw [result]
    cases r with
    | ok g' =>
      obtain ⟨kept',allocates⟩ := ok g' rfl
      refine ⟨_,_,rfl,kept',fun b same => ?_⟩
      injection same with same
      subst same
      exact allocates
    | error e => exact ⟨_,_,rfl,kept,nofun⟩
  | blkfree bno size claimed =>
    obtain ⟨sized,used⟩ := allowed
    obtain ⟨g',result,kept'⟩ := blkfree_spec shape kept sized used claimed
    dsimp only [perform]
    rw [result]
    exact ⟨_,g',rfl,kept',nofun⟩

theorem runs_kept (shape : Shape fs) (kept : Kept fs others g) {ops : List Op} (runs : Runs fs g ops g') : Kept fs others g' := by
  induction runs with
  | nil => exact kept
  | cons allowed done rest ih =>
    obtain ⟨r,g₁,result,kept',-⟩ := perform_spec shape kept allowed
    rw [done] at result
    cases result
    exact ih kept'

theorem group_consistent (shape : Shape fs) (kept : Kept fs others g) {ops : List Op} (runs : Runs fs g ops g') : Kept fs others g' ∧
    ∀ op,Allowed fs g' op → ∃ r g'',perform fs g' op = some (r,g'') ∧ Kept fs others g'' ∧
      ∀ bno,r = some bno → Allocates fs g' g'' bno (op.start fs) (op.count fs) := by
  have kept' := runs_kept shape kept runs
  exact ⟨kept',fun op allowed => perform_spec shape kept' allowed⟩

theorem one_shift : 1 < 4 := by decide

def smallFs : Fs := ⟨⟨1,one_shift⟩,1024,2048,8,8,2⟩
def smallGroup : Group := ⟨⟨0,8,4,0,0,⟨0,0⟩,fun _ => 0,fun _ => 0,fun _ => 0,fun _ => 0⟩,⟨0,0⟩,⟨0,0⟩,0⟩
theorem small_used (i : Nat) : isset smallGroup.cg.blksfree i = false := (isset_eq _ i).trans BitVec.getLsbD_zero

theorem small_kept : Kept smallFs ⟨0,0⟩ smallGroup where
  size := le_refl _
  tail i _ := small_used i
  rotor := by decide
  nbfree := by decide
  nffree := by decide
  frsum k pos low := by
    obtain rfl : k = 1 := by
      have low : k < 2 := low
      omega
    decide
  nclusterblks := rfl
  map _ := by decide
  clusters _ := ⟨fun k pos high => by
    have high : k ≤ 2 := high
    obtain rfl | rfl : k = 1 ∨ k = 2 := by omega
    · decide
    · decide⟩
  cs := rfl
  total := rfl

theorem group_consistent_small : ∃ g,Runs smallFs smallGroup [.blkfree 3 1024 false] g ∧ Kept smallFs ⟨0,0⟩ g := by
  have shape : Shape smallFs := ⟨by decide,by decide,by decide,⟨4,rfl⟩⟩
  have allowed : Allowed smallFs smallGroup (.blkfree 3 1024 false) := ⟨⟨by decide,by decide,⟨1,rfl⟩⟩,by decide,by decide,fun i _ => small_used _,by decide⟩
  obtain ⟨r,g,done,-⟩ := perform_spec shape small_kept allowed
  have runs := Runs.cons allowed done Runs.nil
  exact ⟨g,runs,(group_consistent shape small_kept runs).1⟩
end NetbsdAvr32.FfsBlock
