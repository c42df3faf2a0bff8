import NetbsdAvr32.FfsExact
import NetbsdAvr32.Outcome

-- ffs_alloc over the cylinder groups, with um_lock.
namespace NetbsdAvr32.FfsBlock
open ByteMap RingBuffer BoolRuns Option Function Nat

def noFrags (fs : Fs) (g : Group) (size : Nat) : Bool :=
  ((List.range' (numfrags fs size) (fs.frag - numfrags fs size)).find? fun allocsiz => g.cg.frsum allocsiz ≠ 0).isNone

-- ffs_alloccg: the fragment, the group, and whether um_lock is held, as it is at first.
-- read: the group could be read, and its magic number is right.
def ffsAlloccg (fs : Fs) (g : Group) (bpref size : Nat) (contig read : Bool) : Option (Nat × Group × Bool) :=
  if g.cs.nbfree = 0 ∧ size = fs.bsize then some (0,g,true)
  else if !read ∨ g.cg.cs.nbfree = 0 ∧ size = fs.bsize then some (0,g,true)
  else if size ≠ fs.bsize ∧ noFrags fs g size ∧ g.cg.cs.nbfree = 0 then some (0,g,true)
  else (alloccg fs g bpref size contig).map fun (bno,g) => (bno,g,false)

-- The groups, with the fs_cstotal they share.
structure Disk where
  groups : Nat → Group
  cstotal : Csum

def Disk.group (d : Disk) (c : Nat) : Group := {d.groups c with cstotal := d.cstotal}
def Disk.put (d : Disk) (c : Nat) (g : Group) : Disk := ⟨Function.update d.groups c g,g.cstotal⟩

-- The groups of the quadratic rehash, where i doubles, and of the brute force search.
def rehash (ncg : Nat) : Nat → Nat → Nat → List Nat
  | 0, _, _ => []
  | rounds + 1, i, cg =>
    if ncg ≤ i then []
    else
      let cg := if ncg ≤ cg + i then cg + i - ncg else cg + i
      cg :: rehash ncg rounds (i * 2) cg

def sweep (ncg icg : Nat) : List Nat := (List.range (ncg - 2)).map fun k => (icg + 2 + k) % ncg

-- The allocator is called with um_lock held.
def tryGroups (fs : Fs) (size : Nat) (contig : Bool) : List (Nat × Nat × Bool) → Disk → Bool → Option (Nat × Disk × Bool)
  | [], d, held => some (0,d,held)
  | (c,pref,read) :: rest, d, held =>
    if !held then none
    else do
      let (bno,g,held) ← ffsAlloccg fs (d.group c) pref size contig read
      if bno ≠ 0 then some (bno,d.put c g,held) else tryGroups fs size contig rest (d.put c g) held

-- flags: B_CONTIG, and without B_METAONLY.
structure Flags where
  contig : Bool
  metaonly : Bool

def Flags.strict (f : Flags) : Bool := f.contig && !f.metaonly

def hashalloc (fs : Fs) (ncg cg pref size : Nat) (flags : Flags) (reads : Nat → Bool) (d : Disk) : Option (Nat × Disk × Bool) :=
  let others := if flags.contig then [] else (rehash ncg ncg 1 cg ++ sweep ncg cg).zipIdx 1
  tryGroups fs size flags.strict ((cg,pref,reads 0) :: others.map fun (c,i) => (c,0,reads i)) d true

def enospc : Nat := 28

structure Request where
  inoCg : Nat
  bpref : Nat
  size : Nat
  flags : Flags
  superuser : Bool
  -- the error of chkdq
  quota : Option Nat
  reads : Nat → Bool

-- fs_ncg, fs_dsize and fs_minfree
structure Volume where
  ncg : Nat
  dsize : Nat
  minfree : Nat

def freespace (fs : Fs) (v : Volume) (d : Disk) : Int := d.cstotal.nbfree * fs.frag + d.cstotal.nffree - (v.dsize * v.minfree / 100 : Nat)

def noSpace (fs : Fs) (v : Volume) (d : Disk) (a : Request) : Prop :=
  a.size = fs.bsize ∧ d.cstotal.nbfree = 0 ∨ freespace fs v d ≤ 0 ∧ a.superuser = false

instance (fs : Fs) (v : Volume) (d : Disk) (a : Request) : Decidable (noSpace fs v d a) := inferInstanceAs (Decidable (_ ∨ _))

def Request.pref (fs : Fs) (a : Request) : Nat := if fs.size ≤ a.bpref then 0 else a.bpref
def Request.first (fs : Fs) (a : Request) : Nat := if a.pref fs = 0 then a.inoCg else dtog fs (a.pref fs)

-- The block or the error, the groups, and whether um_lock is held. none: the kernel panics.
def ffsAlloc (fs : Fs) (v : Volume) (d : Disk) (a : Request) : Option (Except Nat Nat × Disk × Bool) :=
  if noSpace fs v d a then some (.error enospc,d,false)
  else
    match a.quota with
    | some error => some (.error error,d,false)
    | none => do
      let (bno,d,held) ← hashalloc fs v.ncg (a.first fs) (a.pref fs) a.size a.flags a.reads d
      if bno ≠ 0 then some (.ok bno,d,held)
      else if a.flags.contig then some (.error enospc,d,held)
      else if held then some (.error enospc,d,false)
      else none

-- The requested block is in use, and a contiguous file can take no other.
def Missed (fs : Fs) (g : Group) (bpref : Nat) (contig : Bool) : Prop :=
  contig = true ∧ bpref ≠ 0 ∧ dtog fs bpref = g.cg.cgx ∧ isblock fs g.cg.blksfree (fragstoblks fs (dtogd fs (blknum fs bpref))) = false

def Early (fs : Fs) (g : Group) (size : Nat) (read : Bool) : Prop :=
  g.cs.nbfree = 0 ∧ size = fs.bsize ∨ read = false ∨ g.cg.cs.nbfree = 0 ∧ (size = fs.bsize ∨ noFrags fs g size = true)

def Lost (fs : Fs) (g : Group) (bpref size : Nat) (contig read : Bool) : Prop :=
  ¬Early fs g size read ∧ (size = fs.bsize ∨ noFrags fs g size = true) ∧ Missed fs g bpref contig

-- What the header comments promise of a call.
def Promised (g : Group) (r : Nat × Group × Bool) : Prop := if r.1 = 0 then r.2.1 = g ∧ r.2.2 = true else r.2.2 = false

-- The first fragment of the file system, whose number is no answer, is not free.
def Boot (g : Group) : Prop := g.cg.cgx = 0 → isset g.cg.blksfree 0 = false

variable {fs : Fs} {g g' : Group} {bpref size bno siz : Nat} {contig read : Bool} {r : Nat × Group × Bool} {cg' : Cg}

theorem mapsearch_free (pos : 1 ≤ siz) (low : siz ≤ fs.frag) (found : mapsearch fs g.cg bpref siz = some (bno,cg')) :
    isset g.cg.blksfree bno = true := by
  unfold mapsearch at found
  split at found
  · cases found
  next byte scan =>
  obtain ⟨bno',sifted,same⟩ := map_eq_some_iff.mp found
  obtain ⟨rfl,-⟩ := Prod.mk.inj same
  obtain ⟨j,-,here⟩ := List.exists_of_findSome?_eq_some sifted
  obtain ⟨p,sifts,rfl⟩ := map_eq_some_iff.mp here
  have spec := sift_spec fs g.cg.blksfree (byte * (NBBY / fs.frag) + j) pos low
  rw [add_mul,mul_assoc,frag_dvd fs,sifts] at spec
  have set := spec.2.1 0 pos
  rw [add_mul,mul_assoc,frag_dvd fs,add_zero] at set
  exact set

theorem mapsearch_cgx (found : mapsearch fs g.cg bpref siz = some (bno,cg')) : cg'.cgx = g.cg.cgx := by
  unfold mapsearch at found
  split at found
  · cases found
  obtain ⟨_,_,same⟩ := map_eq_some_iff.mp found
  cases same
  rfl

section
variable (shape : Shape fs)
include shape

theorem answer_ne (boot : Boot g) (free : isset g.cg.blksfree bno = true) : g.cg.cgx * fs.fpg + bno ≠ 0 := by
  intro zero
  obtain ⟨first,rfl⟩ := Nat.add_eq_zero_iff.mp zero
  rw [boot ((Nat.mul_eq_zero.mp first).resolve_right (Nat.ne_of_gt shape.fpg))] at free
  cases free

theorem searchBlock_ne (boot : Boot g) (ran : searchBlock fs g bpref = some (bno,g')) : bno ≠ 0 := by
  obtain ⟨⟨found,cg⟩,search,same⟩ := map_eq_some_iff.mp ran
  obtain ⟨rfl,-⟩ := Prod.mk.inj same
  rw [mapsearch_cgx search]
  exact answer_ne shape boot (mapsearch_free (frag_pos fs) (le_refl _) search)

theorem alloccgblk_zero (boot : Boot g) (ran : alloccgblk fs g bpref contig = some (bno,g')) :
    (bno = 0 ↔ Missed fs g bpref contig) ∧ (bno = 0 → g' = g) := by
  unfold alloccgblk at ran
  unfold Missed
  split at ran
  · next elsewhere =>
    have some_ := searchBlock_ne shape boot ran
    exact ⟨iff_of_false some_ fun missed => elsewhere.elim missed.2.1 fun other => other missed.2.2.1,fun zero => absurd zero some_⟩
  next here =>
  rw [not_or,not_not] at here
  split at ran
  · next free =>
    have whole := free
    rw [full_eq_isblock,full_iff] at whole
    have set := whole 0 (frag_pos fs)
    rw [add_zero,← shape.first bpref] at set
    cases ran
    have some_ := answer_ne shape boot set
    exact ⟨iff_of_false some_ fun missed => by simp [free] at missed,fun zero => absurd zero some_⟩
  next used =>
  split at ran
  · next strict =>
    cases ran
    exact ⟨iff_of_true rfl ⟨strict,here.1,here.2,Bool.not_eq_true _ ▸ used⟩,fun _ => rfl⟩
  next loose =>
  have some_ := searchBlock_ne shape boot ran
  exact ⟨iff_of_false some_ fun missed => loose missed.1,fun zero => absurd zero some_⟩

theorem alloccg_parts (sized : Size fs size) (boot : Boot g) (ran : ffsAlloccg fs g bpref size contig read = some r) :
    Early fs g size read ∧ r = (0,g,true) ∨
      ¬Early fs g size read ∧ r.2.2 = false ∧ (r.1 = 0 ↔ Lost fs g bpref size contig read) ∧
        (r.1 = 0 → if size = fs.bsize then r.2.1 = g else r.2.1 = (hackBlock fs (numfrags fs size) (0,g)).2) := by
  obtain ⟨pos,few,whole⟩ := sized.numfrags shape
  unfold ffsAlloccg at ran
  by_cases early : Early fs g size read
  · refine .inl ⟨early,?_⟩
    split at ran
    · exact (some.inj ran).symm
    next first =>
    split at ran
    · exact (some.inj ran).symm
    next second =>
    have read_ : read ≠ false := fun no => second (.inl (by rw [no]; rfl))
    have none_ : g.cg.cs.nbfree = 0 ∧ size ≠ fs.bsize ∧ noFrags fs g size = true := by
      rcases early with full | no | ⟨none_,block | frags⟩
      · exact absurd full first
      · exact absurd no read_
      · exact absurd (.inr ⟨none_,block⟩) second
      · exact ⟨none_,fun block => second (.inr ⟨none_,block⟩),frags⟩
    rw [if_pos ⟨none_.2.1,none_.2.2,none_.1⟩] at ran
    exact (some.inj ran).symm
  refine .inr ⟨early,?_⟩
  have late := early
  unfold Early at late
  push_neg at late
  obtain ⟨full,readable,room⟩ := late
  rw [if_neg fun none_ => full none_.1 none_.2,if_neg,if_neg fun none_ => (room none_.2.2).2 none_.2.1] at ran
  · obtain ⟨⟨b,g'⟩,took,rfl⟩ := map_eq_some_iff.mp ran
    refine ⟨rfl,?_⟩
    unfold alloccg at took
    rw [if_neg fun none_ => full none_.1 none_.2,if_neg fun none_ => (room none_.1).1 none_.2] at took
    split at took
    · next block =>
      obtain ⟨zero,same⟩ := alloccgblk_zero shape boot took
      rw [zero,if_pos block]
      exact ⟨⟨fun missed => ⟨early,.inl block,missed⟩,fun lost => lost.2.2⟩,fun missed => same (zero.mpr missed)⟩
    next part =>
    rw [if_neg part]
    split at took
    · next none_ =>
      have frags : noFrags fs g size = true := by rw [noFrags,none_]; rfl
      split at took
      · next zero => exact absurd frags (room zero).2
      obtain ⟨⟨b',g₁⟩,blk,same⟩ := map_eq_some_iff.mp took
      obtain ⟨zero,kept⟩ := alloccgblk_zero shape boot blk
      cases same
      refine ⟨zero.trans ⟨fun missed => ⟨early,.inr frags,missed⟩,fun lost => lost.2.2⟩,fun none' => ?_⟩
      rw [kept none',none']
      rfl
    next siz found =>
    obtain ⟨-,inside,-⟩ := List.find?_range'_eq_some.mp found
    rw [List.mem_range'_1] at inside
    have frags : noFrags fs g size ≠ true := by
      rw [noFrags,found]
      exact nofun
    obtain ⟨⟨bno,cg'⟩,search,same⟩ := map_eq_some_iff.mp took
    have some_ : b ≠ 0 := by
      cases same
      show fs.fpg * cg'.cgx + bno ≠ 0
      rw [mapsearch_cgx search,mul_comm]
      exact answer_ne shape boot (mapsearch_free (by omega) (by omega) search)
    exact ⟨iff_of_false some_ fun lost => lost.2.1.elim part frags,fun zero => absurd zero some_⟩
  rintro (no | none_)
  · exact readable (Bool.not_eq_true' _ ▸ no)
  · exact (room none_.1).1 none_.2

theorem alloccg_promised (sized : Size fs size) (boot : Boot g) (ran : ffsAlloccg fs g bpref size contig read = some r) :
    Promised g r ↔ ¬Lost fs g bpref size contig read := by
  unfold Promised
  rcases alloccg_parts shape sized boot ran with ⟨early,rfl⟩ | ⟨_,dropped,zero,_⟩
  · exact iff_of_true (by simp) fun lost => lost.1 early
  rw [← zero]
  by_cases none_ : r.1 = 0
  · simp [none_,dropped]
  · simp [none_,dropped]
end

def Same (d d' : Disk) : Prop := d'.cstotal = d.cstotal ∧ ∀ c,d'.group c = d.group c

theorem same_put (d : Disk) (c : Nat) : Same d (d.put c (d.group c)) := by
  refine ⟨rfl,fun k => ?_⟩
  show ({update d.groups c (d.group c) k with cstotal := d.cstotal} : Group) = d.group k
  by_cases here : k = c
  · rw [here,update_self]
    rfl
  rw [update_of_ne here]
  rfl

variable {v : Volume} {d d' : Disk} {a : Request} {held : Bool} {probes : List (Nat × Nat × Bool)}

theorem tryGroups_loose (shape : Shape fs) (sized : Size fs size) (boot : ∀ c,Boot (d.group c))
    (ran : tryGroups fs size false probes d true = some (bno,d',held)) : bno ≠ 0 ∧ held = false ∨ bno = 0 ∧ held = true ∧ Same d d' := by
  induction probes generalizing d with
  | nil =>
    cases ran
    exact .inr ⟨rfl,rfl,rfl,fun _ => rfl⟩
  | cons probe rest ih =>
    obtain ⟨c,pref,read⟩ := probe
    obtain ⟨⟨b,g,held₁⟩,took,ran⟩ := Outcome.bind_some ran
    have lost : ¬Lost fs (d.group c) pref size false read := fun lost => Bool.false_ne_true lost.2.2.1
    have promised := (alloccg_promised shape sized (boot c) took).mpr lost
    unfold Promised at promised
    dsimp only at promised ran
    split_ifs at promised with zero
    · obtain ⟨rfl,rfl⟩ := promised
      rw [if_neg (not_not.mpr zero)] at ran
      obtain ⟨total,groups⟩ := same_put d c
      rcases ih (fun k => by rw [groups k]; exact boot k) ran with found | ⟨none_,held,total',groups'⟩
      · exact .inl found
      · exact .inr ⟨none_,held,total'.trans total,fun k => (groups' k).trans (groups k)⟩
    rw [if_pos zero] at ran
    cases ran
    exact .inl ⟨zero,promised⟩

-- What the header comment of ffs_alloc promises: um_lock is released, and ENOSPC leaves every map alone.
def AllocPromised (d : Disk) (r : Except Nat Nat × Disk × Bool) : Prop :=
  r.2.2 = false ∧ (r.1 = .error enospc → ∀ c i,isset (r.2.1.groups c).cg.blksfree i = isset (d.groups c).cg.blksfree i)

-- The one group of a contiguous file gives up early, or it loses a block that was to be hacked up where some of it is in use.
def Fails (fs : Fs) (v : Volume) (d : Disk) (a : Request) : Prop :=
  a.flags.contig = true ∧ ¬noSpace fs v d a ∧ a.quota = none ∧ (Early fs (d.group (a.first fs)) a.size (a.reads 0) ∨
    Lost fs (d.group (a.first fs)) (a.pref fs) a.size a.flags.strict (a.reads 0) ∧ a.size ≠ fs.bsize ∧
      ∃ i,numfrags fs a.size ≤ i ∧ i < fs.frag ∧ isset (d.groups (a.first fs)).cg.blksfree i = false)

theorem same_maps (same : Same d d') (c i : Nat) : isset (d'.groups c).cg.blksfree i = isset (d.groups c).cg.blksfree i :=
  congrArg (fun g => isset g.cg.blksfree i) (same.2 c)

theorem put_maps (d : Disk) (c : Nat) (g : Group) : (∀ k i,isset ((d.put c g).groups k).cg.blksfree i = isset (d.groups k).cg.blksfree i) ↔
    ∀ i,isset g.cg.blksfree i = isset (d.groups c).cg.blksfree i := by
  have groups : (d.put c g).groups = update d.groups c g := rfl
  rw [groups]
  constructor
  · intro same i
    have := same c i
    rwa [update_self] at this
  intro same k i
  by_cases here : k = c
  · rw [here,update_self]
    exact same i
  · rw [update_of_ne here]

theorem hackBlock_maps (n : Nat) : (∀ i,isset (hackBlock fs n (0,g)).2.cg.blksfree i = isset g.cg.blksfree i) ↔
    ¬∃ i,n ≤ i ∧ i < fs.frag ∧ isset g.cg.blksfree i = false := by
  have map : (hackBlock fs n (0,g)).2.cg.blksfree = setbits g.cg.blksfree (0 + n) (fs.frag - n) := by
    unfold hackBlock dtogd
    rfl
  simp only [map,isset_setbits,zero_add]
  constructor
  · rintro same ⟨i,le,less,clear⟩
    have := same i
    rw [clear,decide_eq_true (by omega)] at this
    cases this
  intro none_ i
  cases set : isset g.cg.blksfree i with
  | true => rfl
  | false =>
    rw [decide_eq_false fun inside => none_ ⟨i,inside.1,by omega,set⟩]
    rfl

theorem ffsAlloc_promised (shape : Shape fs) (sized : Size fs a.size) (boot : ∀ c,Boot (d.group c)) {r : Except Nat Nat × Disk × Bool}
    (ran : ffsAlloc fs v d a = some r) : AllocPromised d r ↔ ¬Fails fs v d a := by
  unfold ffsAlloc at ran
  split at ran
  · next full =>
    cases ran
    exact iff_of_true ⟨rfl,fun _ _ _ => rfl⟩ fun fails => fails.2.1 full
  next room =>
  split at ran
  · next error quota =>
    cases ran
    exact iff_of_true ⟨rfl,fun _ _ _ => rfl⟩ fun fails => by rw [fails.2.2.1] at quota; cases quota
  next quota =>
  obtain ⟨⟨bno,d',held⟩,took,ran⟩ := Outcome.bind_some ran
  dsimp only at ran
  by_cases contig : a.flags.contig = true
  · unfold hashalloc at took
    simp only [contig,if_true,List.map_nil] at took
    obtain ⟨⟨b,g,held₁⟩,tried,took⟩ := Outcome.bind_some took
    dsimp only at took
    have parts := alloccg_parts shape sized (boot _) tried
    unfold AllocPromised Fails
    by_cases zero : b = 0
    · rw [if_neg (not_not.mpr zero),tryGroups] at took
      cases took
      rw [if_neg (not_not.mpr rfl),if_pos contig] at ran
      cases ran
      rcases parts with ⟨early,same⟩ | ⟨late,dropped,lost,result⟩
      · cases same
        exact iff_of_false (fun promised => Bool.noConfusion promised.1) fun fine => fine ⟨contig,room,quota,.inl early⟩
      have dropped : held = false := dropped
      have lost := lost.mp zero
      have result := result zero
      dsimp only at result ⊢
      rw [dropped,put_maps]
      split_ifs at result with block
      · refine iff_of_true ⟨rfl,fun _ i => by rw [result]; rfl⟩ ?_
        rintro ⟨-,-,-,early | ⟨-,part,-⟩⟩
        · exact late early
        · exact part block
      have maps := @hackBlock_maps fs (d.group (a.first fs)) (numfrags fs a.size)
      rw [← result] at maps
      constructor
      · rintro ⟨-,same⟩ ⟨-,-,-,early | ⟨-,-,cut⟩⟩
        · exact late early
        · exact maps.mp (same rfl) cut
      · exact fun fine => ⟨rfl,fun _ => maps.mpr fun cut => fine ⟨contig,room,quota,.inr ⟨lost,block,cut⟩⟩⟩
    rw [if_pos zero] at took
    cases took
    rw [if_pos zero] at ran
    cases ran
    rcases parts with ⟨early,same⟩ | ⟨late,dropped,lost,_⟩
    · cases same
      exact absurd rfl zero
    refine iff_of_true ⟨dropped,nofun⟩ ?_
    rintro ⟨-,-,-,early | ⟨lost',-⟩⟩
    · exact late early
    · exact zero (lost.mpr lost')
  · have loose : a.flags.strict = false := by simp [Flags.strict,contig]
    unfold hashalloc at took
    rw [loose] at took
    have fails : ¬Fails fs v d a := fun fails => contig fails.1
    refine iff_of_true ?_ fails
    rcases tryGroups_loose shape sized boot took with ⟨some_,rfl⟩ | ⟨rfl,rfl,same⟩
    · rw [if_pos some_] at ran
      cases ran
      exact ⟨rfl,nofun⟩
    simp only [ne_eq,not_true,if_false,contig,if_true,Bool.false_eq_true] at ran
    cases ran
    exact ⟨rfl,fun _ => same_maps same⟩

theorem alloc_exact (shape : Shape fs) :
    (∀ (g : Group) bpref size contig read r,Size fs size → Boot g → ffsAlloccg fs g bpref size contig read = some r →
      (Promised g r ↔ ¬Lost fs g bpref size contig read)) ∧
    ∀ (v : Volume) d a r,Size fs a.size → (∀ c,Boot (d.group c)) → ffsAlloc fs v d a = some r → (AllocPromised d r ↔ ¬Fails fs v d a) :=
  ⟨fun _ _ _ _ _ _ sized boot ran => alloccg_promised shape sized boot ran,fun _ _ _ _ sized boot ran => ffsAlloc_promised shape sized boot ran⟩

def halfFs : Fs := ⟨⟨1,by decide⟩,1024,2048,8,8,0⟩
def halfGroup : Group := ⟨⟨0,8,4,0,0,⟨2,0⟩,fun _ => 0,fun i => if i = 0 then 0xf0 else 0,fun _ => 0,fun _ => 0⟩,⟨2,0⟩,⟨2,0⟩,0⟩
def halfDisk : Disk := ⟨fun _ => halfGroup,⟨2,0⟩⟩

def halfRequest (contig : Bool) : Request := ⟨0,2,1024,⟨contig,false⟩,true,none,fun _ => true⟩

theorem alloc_exact_half : (∃ r,ffsAlloccg halfFs halfGroup 2 1024 false true = some r ∧ Promised halfGroup r) ∧
    ∃ r,ffsAlloc halfFs ⟨1,8,0⟩ halfDisk (halfRequest false) = some r ∧ AllocPromised halfDisk r := by
  have shape : Shape halfFs := ⟨by decide,by decide,by decide,⟨4,rfl⟩⟩
  have sized : Size halfFs 1024 := ⟨by decide,by decide,⟨1,rfl⟩⟩
  have boot : Boot halfGroup := fun _ => by decide
  obtain ⟨group,all⟩ := alloc_exact shape
  refine ⟨⟨_,rfl,?_⟩,⟨_,rfl,?_⟩⟩
  · exact (group halfGroup 2 1024 false true _ sized boot rfl).mpr fun lost => Bool.false_ne_true lost.2.2.1
  · exact (all ⟨1,8,0⟩ halfDisk (halfRequest false) _ sized (fun _ => boot) rfl).mpr fun fails => Bool.false_ne_true fails.1

theorem alloc_lost : (∃ r,ffsAlloccg halfFs halfGroup 2 1024 true true = some r ∧ ¬Promised halfGroup r) ∧
    ∃ r,ffsAlloc halfFs ⟨1,8,0⟩ halfDisk (halfRequest true) = some r ∧ ¬AllocPromised halfDisk r := by
  refine ⟨⟨_,rfl,fun promised => ?_⟩,⟨_,rfl,fun promised => ?_⟩⟩
  · cases promised.2
  · exact absurd (promised.2 rfl 0 1) (by decide)
end NetbsdAvr32.FfsBlock
