import Mathlib.Data.Finset.Card
import NetbsdAvr32.ByteSpace

-- The region operations of arch/avr32/avr32/bus_space.c. `bus` is the memory
-- behind the handles, `ram` the one the caller's buffers are in.
namespace NetbsdAvr32.BusSpace
open ByteSpace Nat Finset

abbrev Word := BitVec 32

structure State where
  bus : Space 32
  ram : Space 32

-- The functions come in three copies, for units of 1, 2 and 4 bytes.
inductive Width where
  | one
  | two
  | four
  deriving DecidableEq, Repr

def Width.bytes : Width → Nat
  | one => 1
  | two => 2
  | four => 4

-- `bus_space_read_n` and `bus_space_write_n`, through __bs_r_n and __bs_w_n.
def bsR (n : Nat) (bsh offset : Word) (s : State) : Nat := load s.bus n (bsh + offset)
def bsW (n : Nat) (bsh offset : Word) (value : Nat) (s : State) : State := {s with bus := store n (bsh + offset) value s.bus}

def bsRr (n : Nat) (bsh : Word) : Nat → Word → Word → State → State
  | 0,_,_,s => s
  | count+1,offset,addr,s =>
    bsRr n bsh count (offset + BitVec.ofNat 32 n) (addr + BitVec.ofNat 32 n) {s with ram := store n addr (bsR n bsh offset s) s.ram}

def bsWr (n : Nat) (bsh : Word) : Nat → Word → Word → State → State
  | 0,_,_,s => s
  | count+1,offset,addr,s =>
    bsWr n bsh count (offset + BitVec.ofNat 32 n) (addr + BitVec.ofNat 32 n) (bsW n bsh offset (load s.ram n addr) s)

-- The step is `offset += value`, where the two loops above add sizeof(*addr).
def bsSr (n : Nat) (bsh : Word) (value : Nat) : Nat → Word → State → State
  | 0,_,s => s
  | count+1,offset,s => bsSr n bsh value count (offset + BitVec.ofNat 32 value) (bsW n bsh offset value s)

def bsCForward (n : Nat) (h1 o1 h2 o2 : Word) : Nat → Word → State → State
  | 0,_,s => s
  | c+1,o,s => bsCForward n h1 o1 h2 o2 c (o + BitVec.ofNat 32 n) (bsW n h2 (o2 + o) (bsR n h1 (o1 + o) s) s)

def bsCBackward (n : Nat) (h1 o1 h2 o2 : Word) : Nat → Word → State → State
  | 0,_,s => s
  | c+1,o,s => bsCBackward n h1 o1 h2 o2 c (o - BitVec.ofNat 32 n) (bsW n h2 (o2 + o) (bsR n h1 (o1 + o) s) s)

def bsC (n : Nat) (h1 o1 h2 o2 c : Word) (s : State) : State :=
  if h1 + o1 ≥ h2 + o2 then bsCForward n h1 o1 h2 o2 c.toNat 0 s
  else bsCBackward n h1 o1 h2 o2 c.toNat ((c - 1) * BitVec.ofNat 32 n) s

def bsRr1 (bsh offset addr count : Word) : State → State := bsRr 1 bsh count.toNat offset addr
def bsRr2 (bsh offset addr count : Word) : State → State := bsRr 2 bsh count.toNat offset addr
def bsRr4 (bsh offset addr count : Word) : State → State := bsRr 4 bsh count.toNat offset addr
def bsWr1 (bsh offset addr count : Word) : State → State := bsWr 1 bsh count.toNat offset addr
def bsWr2 (bsh offset addr count : Word) : State → State := bsWr 2 bsh count.toNat offset addr
def bsWr4 (bsh offset addr count : Word) : State → State := bsWr 4 bsh count.toNat offset addr
def bsSr1 (bsh offset : Word) (value : BitVec 8) (count : Word) : State → State := bsSr 1 bsh value.toNat count.toNat offset
def bsSr2 (bsh offset : Word) (value : BitVec 16) (count : Word) : State → State := bsSr 2 bsh value.toNat count.toNat offset
def bsSr4 (bsh offset : Word) (value : BitVec 32) (count : Word) : State → State := bsSr 4 bsh value.toNat count.toNat offset
def bsC1 : Word → Word → Word → Word → Word → State → State := bsC 1
def bsC2 : Word → Word → Word → Word → Word → State → State := bsC 2
def bsC4 : Word → Word → Word → Word → Word → State → State := bsC 4

-- The bus_space_*_region_n macros.
def readRegion : Width → Word → Word → Word → Word → State → State
  | .one => bsRr1
  | .two => bsRr2
  | .four => bsRr4

def writeRegion : Width → Word → Word → Word → Word → State → State
  | .one => bsWr1
  | .two => bsWr2
  | .four => bsWr4

def setRegion : (width : Width) → Word → Word → BitVec (8 * width.bytes) → Word → State → State
  | .one => bsSr1
  | .two => bsSr2
  | .four => bsSr4

def copyRegion : Width → Word → Word → Word → Word → Word → State → State
  | .one => bsC1
  | .two => bsC2
  | .four => bsC4

-- What the operations are for: `count` units from `a` on hold the given
-- values, and every byte outside them is what it was.
structure Written (n : Nat) (a : Word) (count : Nat) (unit : Nat → Nat) (m m' : Space 32) : Prop where
  units : ∀ i < count, load m' n (place a (n * i)) = unit i
  rest : ∀ x, (∀ i < count, ∀ k < n, x ≠ place a (n * i + k)) → m' x = m x

def SetDone (width : Width) (bsh offset : Word) (value : BitVec (8 * width.bytes)) (count : Word) (s s' : State) : Prop :=
  Written width.bytes (bsh + offset) count.toNat (fun _ => value.toNat) s.bus s'.bus ∧ s'.ram = s.ram

def WriteDone (width : Width) (bsh offset addr count : Word) (s s' : State) : Prop :=
  Written width.bytes (bsh + offset) count.toNat (fun i => load s.ram width.bytes (place addr (width.bytes * i))) s.bus s'.bus ∧ s'.ram = s.ram

def ReadDone (width : Width) (bsh offset addr count : Word) (s s' : State) : Prop :=
  Written width.bytes addr count.toNat (fun i => load s.bus width.bytes (place (bsh + offset) (width.bytes * i))) s.ram s'.ram ∧ s'.bus = s.bus

def CopyDone (width : Width) (h1 o1 h2 o2 c : Word) (s s' : State) : Prop :=
  Written width.bytes (h2 + o2) c.toNat (fun i => load s.bus width.bytes (place (h1 + o1) (width.bytes * i))) s.bus s'.bus ∧ s'.ram = s.ram

variable {n c count : Nat} {a b bsh offset addr h1 o1 h2 o2 o : Word} {value : Nat} {unit : Nat → Nat} {m m' : Space 32} {s : State}

theorem written_bytes (written : Written n a c unit m m') {i k : Nat} (low : i < c) (le : k < n) : m' (place a (n * i + k)) = digit n (unit i) k := by
  rw [← written.units i low,digit_load le,place_place]

theorem written_fill (fits : n * c ≤ 2 ^ 32) (small : ∀ i < c, unit i < 256 ^ n) : Written n a c unit m (fill n n c unit a m) :=
  ⟨fun i low => load_digits (small i low) fun k le => by rw [place_place,fill_unit fits low le],fun _ => fill_outside⟩

theorem place_next (bsh offset : Word) (n i : Nat) :
    place (bsh + (offset + BitVec.ofNat 32 n)) (n * i) = place (bsh + offset) (n * (i + 1)) := by
  have step : bsh + (offset + BitVec.ofNat 32 n) = place (bsh + offset) n := (BitVec.add_assoc _ _ _).symm
  rw [step,place_place,mul_succ,Nat.add_comm]

theorem bsRr_eq (n count : Nat) (bsh offset addr : Word) (s : State) : bsRr n bsh count offset addr s =
    {s with ram := fill n n count (fun i => load s.bus n (place (bsh + offset) (n * i))) addr s.ram} := by
  induction count generalizing offset addr s with
  | zero => rfl
  | succ count ih =>
    unfold bsRr
    rw [ih]
    simp only [place_next]
    show _ = {s with ram := fill n n count _ (place addr n) (store n addr (load s.bus n (place (bsh + offset) (n * 0))) s.ram)}
    rw [mul_zero,place_zero]
    rfl

theorem bsWr_eq (n count : Nat) (bsh offset addr : Word) (s : State) : bsWr n bsh count offset addr s =
    {s with bus := fill n n count (fun i => load s.ram n (place addr (n * i))) (bsh + offset) s.bus} := by
  induction count generalizing offset addr s with
  | zero => rfl
  | succ count ih =>
    have step : bsh + (offset + BitVec.ofNat 32 n) = place (bsh + offset) n := (BitVec.add_assoc _ _ _).symm
    have next (i : Nat) : place (addr + BitVec.ofNat 32 n) (n * i) = place addr (n * (i + 1)) := by
      have := place_next 0#32 addr n i
      rwa [BitVec.zero_add,BitVec.zero_add] at this
    unfold bsWr
    rw [ih]
    simp only [next,step]
    show _ = {s with bus := fill n n count _ (place (bsh + offset) n) (store n (bsh + offset) (load s.ram n (place addr (n * 0))) s.bus)}
    rw [mul_zero,place_zero]
    rfl

theorem bsSr_eq (n : Nat) (bsh : Word) (value count : Nat) (offset : Word) (s : State) : bsSr n bsh value count offset s =
    {s with bus := fill n value count (fun _ => value) (bsh + offset) s.bus} := by
  induction count generalizing offset s with
  | zero => rfl
  | succ count ih =>
    have step : bsh + (offset + BitVec.ofNat 32 value) = place (bsh + offset) value := (BitVec.add_assoc _ _ _).symm
    unfold bsSr
    rw [ih,step]
    rfl

theorem forward_eq (n : Nat) (h1 o1 h2 o2 : Word) (c : Nat) (o : Word) (s : State) : bsCForward n h1 o1 h2 o2 c o s =
    {s with bus := moveUp n c (h1 + (o1 + o)) (h2 + (o2 + o)) s.bus} := by
  induction c generalizing o s with
  | zero => rfl
  | succ c ih =>
    have step (h off : Word) : h + (off + (o + BitVec.ofNat 32 n)) = place (h + (off + o)) n := by
      unfold place
      rw [BitVec.add_assoc h,BitVec.add_assoc off]
    unfold bsCForward
    rw [ih,step,step]
    rfl

theorem backward_eq (n : Nat) (h1 o1 h2 o2 : Word) (c : Nat) (o : Word) (top : c ≠ 0 → o = BitVec.ofNat 32 (n * (c - 1))) (s : State) :
    bsCBackward n h1 o1 h2 o2 c o s = {s with bus := moveDown n (h1 + o1) (h2 + o2) c s.bus} := by
  induction c generalizing o s with
  | zero => rfl
  | succ c ih =>
    obtain rfl := top (succ_ne_zero c)
    have below : c ≠ 0 → BitVec.ofNat 32 (n * (c + 1 - 1)) - BitVec.ofNat 32 n = BitVec.ofNat 32 (n * (c - 1)) := by
      intro more
      have split : n * (c + 1 - 1) = n * (c - 1) + n := by
        rw [← mul_succ]
        congr 1
        omega
      rw [split,BitVec.ofNat_add,BitVec.add_sub_cancel]
    have spot (h off : Word) : h + (off + BitVec.ofNat 32 (n * (c + 1 - 1))) = place (h + off) (n * c) := (BitVec.add_assoc _ _ _).symm
    unfold bsCBackward
    rw [ih _ below]
    unfold bsW bsR
    rw [spot,spot]
    rfl

def copied (n : Nat) (a b : Word) (c : Nat) (m : Space 32) : Space 32 := if b ≤ a then moveUp n c a b m else moveDown n a b c m

theorem bsC_eq (n : Nat) (h1 o1 h2 o2 c : Word) (s : State) :
    bsC n h1 o1 h2 o2 c s = {s with bus := copied n (h1 + o1) (h2 + o2) c.toNat s.bus} := by
  unfold bsC copied
  split_ifs with after
  · rw [forward_eq]
    show State.mk (moveUp n c.toNat (h1 + (o1 + 0#32)) (h2 + (o2 + 0#32)) s.bus) s.ram = _
    rw [BitVec.add_zero,BitVec.add_zero]
  rw [backward_eq]
  intro more
  rw [mul_comm,BitVec.ofNat_mul]
  have : c - 1 = BitVec.ofNat 32 (c.toNat - 1) := by
    have split : c = BitVec.ofNat 32 (c.toNat - 1) + 1 := by
      show c = BitVec.ofNat 32 (c.toNat - 1) + BitVec.ofNat 32 1
      rw [← BitVec.ofNat_add,Nat.sub_add_cancel (Nat.pos_of_ne_zero more),BitVec.ofNat_toNat,BitVec.setWidth_eq]
    conv => lhs; rw [split]
    exact BitVec.add_sub_cancel _ _
  rw [this]

variable {n c i j k p q v : Nat} {a b bsh offset addr h1 o1 h2 o2 : Word} {unit : Nat → Nat} {m m' : Space 32} {s : State} {width : Width}

theorem place_eq_iff : place a p = place b q ↔ (a.toNat + p) % 2 ^ 32 = (b.toNat + q) % 2 ^ 32 := by
  have value (a : Word) (p : Nat) : (place a p).toNat = (a.toNat + p) % 2 ^ 32 := by
    unfold place
    rw [BitVec.toNat_add,BitVec.toNat_ofNat,add_mod_mod]
  rw [← value,← value]
  exact ⟨congrArg _,BitVec.eq_of_toNat_eq⟩

theorem width_cases (width : Width) : width.bytes = 1 ∨ width.bytes = 2 ∨ width.bytes = 4 := by
  cases width <;> simp [Width.bytes]

theorem stride_last (width : n = 1 ∨ n = 2 ∨ n = 4) (full : n * c + n = 2 ^ 32) (long : n ≤ v) (small : v < 2 ^ 32)
    (last : (v * c) % 2 ^ 32 = n * c) : v = n := by
  have turn : (v * c + v) % 2 ^ 32 = v - n := by omega
  have split : v = n * (v / n) + v % n := (div_add_mod v n).symm
  have whole : v * c + v = 2 ^ 32 * (v / n) + v % n * (c + 1) := by
    rw [← full]
    conv => lhs; rw [split]
    ring
  have part : v % n * (c + 1) < 2 ^ 32 := by
    rw [← full,← mul_succ]
    exact mul_lt_mul_of_pos_right (mod_lt v (by omega)) (succ_pos c)
  rw [whole,mul_add_mod,mod_eq_of_lt part] at turn
  rcases width with rfl | rfl | rfl
  · rw [mod_one,zero_mul] at turn
    omega
  · have count : c + 1 = 2147483648 := by omega
    rw [count] at turn
    omega
  have count : c + 1 = 1073741824 := by omega
  rw [count] at turn
  omega

-- A stride that covers exactly the bytes of the region is the unit size. The
-- first address past the region can only be reached by one step too many, and
-- so can the next ones: there is room for a single unit there.
theorem stride_exact (width : n = 1 ∨ n = 2 ∨ n = 4) (fits : n * c < 2 ^ 32) (two : 2 ≤ c) (small : v < 2 ^ 32)
    (cover : ∀ p < 2 ^ 32, p < n * c ↔ ∃ i < c, ∃ k < n, (v * i + k) % 2 ^ 32 = p) : v = n := by
  have pos : 0 < n := by omega
  rcases lt_or_ge v n with short | long
  · obtain ⟨i,low,k,le,top⟩ := (cover (n * c - 1) (by omega)).mp (by have := mul_pos pos (by omega : 0 < c); omega)
    have reach : v * i ≤ (n - 1) * (c - 1) := Nat.mul_le_mul (by omega) (by omega)
    have whole : (n - 1) * (c - 1) + (n - 1) = (n - 1) * c := by
      rw [← mul_succ]
      congr 1
      omega
    have parts : (n - 1) * c + c = n * c := by
      rw [← succ_mul]
      congr 1
      omega
    omega
  by_contra other
  have first : v < n * c := (cover v small).mpr ⟨1,two,0,pos,by rw [mul_one,add_zero,mod_eq_of_lt small]⟩
  have beyond (q : Nat) (low : n * c ≤ q) (near : q < n * c + v) (high : q < 2 ^ 32) : ∃ k < n, (v * c + k) % 2 ^ 32 = q := by
    obtain ⟨i,less,k,le,spot⟩ := (cover (q - v) (by omega)).mp (by omega)
    have next : (v * (i + 1) + k) % 2 ^ 32 = q := by
      rw [mul_succ]
      omega
    rcases lt_or_ge (i + 1) c with inside | last
    · exact absurd ((cover q high).mpr ⟨i + 1,inside,k,le,next⟩) (by omega)
    have same : i + 1 = c := by omega
    rw [same] at next
    exact ⟨k,le,next⟩
  obtain ⟨k,le,bottom⟩ := beyond (n * c) (le_refl _) (by omega) fits
  have full : n * c + n = 2 ^ 32 := by
    by_contra room
    have more : n * c + n < 2 ^ 32 := by
      rcases width with rfl | rfl | rfl <;> omega
    obtain ⟨k',le',above⟩ := beyond (n * c + n) (by omega) (by omega) more
    omega
  obtain ⟨k',le',top⟩ := beyond (n * c + n - 1) (by omega) (by omega) (by omega)
  have exactly : (v * c) % 2 ^ 32 = n * c := by omega
  exact other (stride_last width full long small exactly)

theorem fresh_byte (few : n ≤ 4) (v : Nat) : ∃ byte : Byte, ∀ q < n, digit n v q ≠ byte := by
  have card : ((range n).image fun q => (digit n v q).toNat).card < (range 256).card := by
    refine lt_of_le_of_lt card_image_le ?_
    rw [card_range,card_range]
    omega
  obtain ⟨byte,small,fresh⟩ := exists_mem_notMem_of_card_lt_card card
  rw [mem_range] at small
  refine ⟨BitVec.ofNat 8 byte,fun q low same => fresh (mem_image.mpr ⟨q,mem_range.mpr low,?_⟩)⟩
  rw [same,BitVec.toNat_ofNat,mod_eq_of_lt small]

-- The bytes a strided fill writes are those of the region, when the two agree
-- on a memory that holds none of the bytes of the value.
theorem fill_cover (few : n ≤ 4) (fits : n * c < 2 ^ 32)
    (right : ∀ m, Written n a c (fun _ => v) m (fill n v c (fun _ => v) a m)) :
    ∀ p < 2 ^ 32, p < n * c ↔ ∃ i < c, ∃ k < n, (v * i + k) % 2 ^ 32 = p := by
  intro p high
  obtain ⟨byte,fresh⟩ := fresh_byte few v
  have written := right fun _ => byte
  have spot (r : Nat) : place a r = place a p ↔ r % 2 ^ 32 = p := by
    rw [place_eq_iff]
    omega
  constructor
  · intro inside
    by_contra missed
    have kept : fill n v c (fun _ => v) a (fun _ => byte) (place a p) = byte :=
      fill_outside fun i low k le same => missed ⟨i,low,k,le,(spot _).mp same.symm⟩
    have pos : 0 < n := pos_of_ne_zero fun zero => by
      rw [zero,zero_mul] at inside
      cases inside
    have low : p / n < c := Nat.div_lt_of_lt_mul inside
    have found := written_bytes written low (mod_lt p pos)
    rw [div_add_mod,kept] at found
    exact fresh _ (mod_lt p pos) found.symm
  rintro ⟨i,low,k,le,same⟩
  by_contra outside
  have kept := written.rest (place a p) fun j lower q less hit => by
    have above : n * j + n ≤ n * c := by
      exact mul_le_mul_left n lower
    have := place_inj high (by omega) hit
    omega
  obtain ⟨_,_,q,less,touched⟩ := @fill_touched 32 n c i k a (fun _ => byte) v (fun _ => v) (by omega) low le
  rw [(spot _).mpr same,kept] at touched
  exact fresh q less touched.symm

theorem fill_short (short : c ≤ 1) (stride : Nat) (val : Nat → Nat) : fill n stride c val a m = fill n n c val a m := by
  obtain rfl | rfl : c = 0 ∨ c = 1 := by omega
  · rfl
  · rfl

theorem fill_exact (width : n = 1 ∨ n = 2 ∨ n = 4) (fits : n * c < 2 ^ 32) (small : v < 256 ^ n) :
    (∀ m, Written n a c (fun _ => v) m (fill n v c (fun _ => v) a m)) ↔ v = n ∨ c ≤ 1 := by
  constructor
  · intro right
    rcases lt_or_ge 1 c with many | few
    · have word : v < 2 ^ 32 := by
        rcases width with rfl | rfl | rfl <;> omega
      exact .inl (stride_exact width fits many word (fill_cover (by omega) fits right))
    · exact .inr few
  rintro (rfl | short) m
  · exact written_fill (le_of_lt fits) fun _ _ => small
  rw [fill_short short]
  exact written_fill (le_of_lt fits) fun _ _ => small

def gap (a b : Word) : Nat := max a.toNat b.toNat - min a.toNat b.toNat

theorem written_copy (bytes : ∀ i < c, ∀ k < n, m' (place b (n * i + k)) = m (place a (n * i + k)))
    (rest : ∀ x, (∀ i < c, ∀ k < n, x ≠ place b (n * i + k)) → m' x = m x) :
    Written n b c (fun i => load m n (place a (n * i))) m m' := by
  refine ⟨fun i low => load_congr fun k le => ?_,rest⟩
  rw [place_place,place_place]
  exact bytes i low k le

theorem unit_below (n : Nat) (less : i < j) : n * i + n ≤ n * j := by
  exact mul_le_mul_left n less

theorem copied_right (fits : n * c < 2 ^ 32) (near : c ≤ 1 ∨ gap a b + n * c ≤ 2 ^ 32) (m : Space 32) :
    Written n b c (fun i => load m n (place a (n * i))) m (copied n a b c m) := by
  unfold copied gap at *
  split_ifs with after
  · have order : b.toNat ≤ a.toNat := after
    refine written_copy (fun j low k le => moveUp_byte (le_of_lt fits) low le fun l lower q less same => ?_) fun x => moveUp_outside
    have := unit_below n lower
    have := unit_below n low
    rw [place_eq_iff] at same
    omega
  have order : a.toNat < b.toNat := Nat.lt_of_not_le after
  refine written_copy (fun j low k le => moveDown_byte (le_of_lt fits) low le fun l lower above q less same => ?_) fun x => moveDown_outside
  have := unit_below n lower
  have := unit_below n above
  rw [place_eq_iff] at same
  omega

def spark (x : Word) : Space 32 := fun y => if y = x then 1 else 0

-- A spark in the first unit copied lands on a source byte not read yet, and
-- is copied a second time.
theorem moveUp_wrong (fits : n * c < 2 ^ 32) (low : p < n) (far : n ≤ q) (inside : q < n * c) (hit : place a q = place b p) :
    ¬ Written n b c (fun i => load (spark (place a p)) n (place a (n * i))) (spark (place a p)) (moveUp n c a b (spark (place a p))) := by
  intro written
  have pos : 0 < n := zero_lt_of_lt low
  obtain ⟨c,rfl⟩ : ∃ d, c = d + 1 := exists_eq_succ_of_ne_zero fun zero => by
    rw [zero] at inside
    cases inside
  obtain ⟨j,k,le,rfl⟩ : ∃ j k, k < n ∧ q = n * (j + 1) + k :=
    ⟨q / n - 1,q % n,Nat.mod_lt q pos,by rw [Nat.sub_add_cancel (Nat.div_pos far pos),Nat.div_add_mod]⟩
  have lower : j < c := by
    by_contra top
    have := unit_below n (show c < j + 1 by omega)
    rw [mul_succ n c] at inside
    omega
  have room : n * c + n < 2 ^ 32 := by rwa [← mul_succ]
  have expected : moveUp n (c + 1) a b (spark (place a p)) (place b (n * (j + 1) + k)) = 0 := by
    rw [written_bytes written (succ_lt_succ lower) le,digit_load le,place_place]
    refine if_neg fun same => ?_
    have := place_inj (lt_trans inside fits) (by omega) same
    omega
  have twice : moveUp n (c + 1) a b (spark (place a p)) (place b (n * (j + 1) + k)) = 1 := by
    show moveUp n c (place a n) (place b n) (store n b (load (spark (place a p)) n a) (spark (place a p))) _ = 1
    rw [← place_unit,moveUp_byte (by omega) lower le fun l less q small same => ?_,place_unit,hit,store_inside low (by omega),digit_load low]
    · exact if_pos rfl
    rw [place_unit,place_unit,hit] at same
    have := unit_below n (show l + 1 < c + 1 by omega)
    have := place_inj (by omega) (by omega) same
    rw [mul_succ] at this
    omega
  rw [expected] at twice
  cases twice

theorem moveDown_wrong (fits : n * c < 2 ^ 32) (low : p < n * c) (high : n * c ≤ p + n) (far : q + n < n * c) (hit : place a q = place b p) :
    ¬ Written n b c (fun i => load (spark (place a p)) n (place a (n * i))) (spark (place a p)) (moveDown n a b c (spark (place a p))) := by
  intro written
  obtain ⟨c,rfl⟩ : ∃ d, c = d + 1 := exists_eq_succ_of_ne_zero fun zero => by
    rw [zero] at low
    cases low
  rw [mul_succ] at fits low high far
  have pos : 0 < n := by omega
  obtain ⟨j,k,le,rfl⟩ : ∃ j k, k < n ∧ q = n * j + k := ⟨q / n,q % n,mod_lt q pos,(div_add_mod q n).symm⟩
  obtain ⟨r,rfl⟩ : ∃ r, p = n * c + r := Nat.exists_eq_add_of_le (by omega)
  have lower : j < c := by
    by_contra top
    have := Nat.mul_le_mul_left n (Nat.le_of_not_lt top)
    omega
  have expected : moveDown n a b (c + 1) (spark (place a (n * c + r))) (place b (n * j + k)) = 0 := by
    rw [written_bytes written (lt_succ_of_lt lower) le,digit_load le,place_place]
    refine if_neg fun same => ?_
    have := place_inj (by omega) (by omega) same
    omega
  have twice : moveDown n a b (c + 1) (spark (place a (n * c + r))) (place b (n * j + k)) = 1 := by
    show moveDown n a b c (store n (place b (n * c)) (load (spark (place a (n * c + r))) n (place a (n * c))) (spark (place a (n * c + r)))) _ = 1
    rw [moveDown_byte (by omega) lower le fun l less above q small same => ?_,hit,← place_place b,store_inside (by omega) (by omega),
      digit_load (by omega),place_place]
    · exact if_pos rfl
    rw [hit] at same
    have := unit_below n less
    have := place_inj (by omega) (by omega) same
    omega
  rw [expected] at twice
  cases twice

theorem copied_exact (fits : n * c < 2 ^ 32) :
    (∀ m, Written n b c (fun i => load m n (place a (n * i))) m (copied n a b c m)) ↔ c ≤ 1 ∨ gap a b + n * c ≤ 2 ^ 32 := by
  refine ⟨fun right => ?_,fun near m => copied_right fits near m⟩
  by_contra far
  push Not at far
  obtain ⟨many,wide⟩ := far
  have two : n + n ≤ n * c := by
    have := mul_le_mul_left n (show 2 ≤ c from many)
    omega
  unfold copied at right
  unfold gap at wide
  have pos : 0 < n := pos_of_ne_zero fun zero => by
    rw [zero,zero_mul] at wide
    omega
  split_ifs at right with after
  · have order : b.toNat ≤ a.toNat := after
    -- The bytes of the source that the first unit written lands on.
    obtain ⟨p,q,low,up,inside,meet⟩ : ∃ p q, p < n ∧ n ≤ q ∧ q < n * c ∧ a.toNat + q = 2 ^ 32 + b.toNat + p := by
      rcases lt_or_ge (2 ^ 32 - (a.toNat - b.toNat)) n with short | long
      · exact ⟨n - (2 ^ 32 - (a.toNat - b.toNat)),n,by omega,le_refl n,by omega,by omega⟩
      · exact ⟨0,2 ^ 32 - (a.toNat - b.toNat),by omega,long,by omega,by omega⟩
    exact moveUp_wrong fits low up inside (place_eq_iff.mpr (by omega)) (right _)
  have order : a.toNat < b.toNat := Nat.lt_of_not_le after
  obtain ⟨p,q,low,up,inside,meet⟩ : ∃ p q, p < n * c ∧ n * c ≤ p + n ∧ q + n < n * c ∧ 2 ^ 32 + a.toNat + q = b.toNat + p := by
    rcases lt_or_ge (2 ^ 32 - (b.toNat - a.toNat)) n with short | long
    · exact ⟨n * c - n - 1 + (2 ^ 32 - (b.toNat - a.toNat)),n * c - n - 1,by omega,by omega,by omega,by omega⟩
    · exact ⟨n * c - 1,n * c - 1 - (2 ^ 32 - (b.toNat - a.toNat)),by omega,by omega,by omega,by omega⟩
  exact moveDown_wrong fits low up inside (place_eq_iff.mpr (by omega)) (right _)

theorem setRegion_bus (width : Width) (bsh offset : Word) (value : BitVec (8 * width.bytes)) (count : Word) (s : State) :
    setRegion width bsh offset value count s =
      {s with bus := fill width.bytes value.toNat count.toNat (fun _ => value.toNat) (bsh + offset) s.bus} := by
  cases width <;> exact bsSr_eq _ _ _ _ _ _

theorem copyRegion_bus (width : Width) (h1 o1 h2 o2 c : Word) (s : State) :
    copyRegion width h1 o1 h2 o2 c s = {s with bus := copied width.bytes (h1 + o1) (h2 + o2) c.toNat s.bus} := by
  cases width <;> exact bsC_eq _ _ _ _ _ _ _

theorem value_small (width : Width) (value : BitVec (8 * width.bytes)) : value.toNat < 256 ^ width.bytes := by
  have power : 2 ^ (8 * width.bytes) = 256 ^ width.bytes := pow_mul 2 8 width.bytes
  rw [← power]
  exact value.isLt

-- The four region operations against what they are for. Setting a region steps
-- by the value instead of the unit size; copying loses bytes exactly when the
-- range that is written first comes round to the unread source.
theorem region_exact (width : Width) (count : Word) (fits : width.bytes * count.toNat < 2 ^ 32) :
    (∀ bsh offset value, (∀ s, SetDone width bsh offset value count s (setRegion width bsh offset value count s)) ↔
      value.toNat = width.bytes ∨ count.toNat ≤ 1) ∧
    (∀ bsh offset addr s, WriteDone width bsh offset addr count s (writeRegion width bsh offset addr count s)) ∧
    (∀ bsh offset addr s, ReadDone width bsh offset addr count s (readRegion width bsh offset addr count s)) ∧
    (∀ h1 o1 h2 o2, (∀ s, CopyDone width h1 o1 h2 o2 count s (copyRegion width h1 o1 h2 o2 count s)) ↔
      count.toNat ≤ 1 ∨ gap (h1 + o1) (h2 + o2) + width.bytes * count.toNat ≤ 2 ^ 32) := by
  refine ⟨fun bsh offset value => ?_,fun bsh offset addr s => ?_,fun bsh offset addr s => ?_,fun h1 o1 h2 o2 => ?_⟩
  · rw [← @fill_exact width.bytes count.toNat value.toNat (bsh + offset) (width_cases width) fits (value_small width value)]
    refine ⟨fun right m => ?_,fun right s => ?_⟩
    · have := (right ⟨m,m⟩).1
      rwa [setRegion_bus] at this
    · rw [setRegion_bus]
      exact ⟨right s.bus,rfl⟩
  · have same : writeRegion width bsh offset addr count s = bsWr width.bytes bsh count.toNat offset addr s := by cases width <;> rfl
    rw [same,bsWr_eq]
    exact ⟨written_fill (le_of_lt fits) fun i _ => load_lt _ _ _,rfl⟩
  · have same : readRegion width bsh offset addr count s = bsRr width.bytes bsh count.toNat offset addr s := by cases width <;> rfl
    rw [same,bsRr_eq]
    exact ⟨written_fill (le_of_lt fits) fun i _ => load_lt _ _ _,rfl⟩
  · rw [← @copied_exact width.bytes count.toNat (h1 + o1) (h2 + o2) fits]
    refine ⟨fun right m => ?_,fun right s => ?_⟩
    · have := (right ⟨m,m⟩).1
      rwa [copyRegion_bus] at this
    · rw [copyRegion_bus]
      exact ⟨right s.bus,rfl⟩

theorem region_exact_two :
    WriteDone .two 0xfff00000 0x10 0x90000000 3 ⟨fun _ => 7,fun x => x.setWidth 8⟩
      (writeRegion .two 0xfff00000 0x10 0x90000000 3 ⟨fun _ => 7,fun x => x.setWidth 8⟩) :=
  (region_exact .two 3 (by decide)).2.1 _ _ _ _

-- Clearing two bytes leaves the second one as it was.
theorem set_region_stuck : ¬ ∀ width bsh offset value count s, offset.toNat + width.bytes * count.toNat < 2 ^ 32 →
    SetDone width bsh offset value count s (setRegion width bsh offset value count s) := by
  intro right
  have done := right .one 0xfff00000 0x10 0 2 ⟨fun _ => 1,fun _ => 0⟩ (by decide)
  exact absurd (done.1.units 1 (by decide)) (by decide)
end NetbsdAvr32.BusSpace
