import Mathlib.Data.List.Basic

-- Ring buffers with separate in, out and cnt, filled and emptied by blocks.
namespace NetbsdAvr32.RingBuffer
open Nat List

structure Ring (α : Type) where
  size : Nat
  cnt : Nat
  in_ : Nat
  out : Nat
  buffer : Nat → α

variable {α : Type} {r : Ring α} {n seg : Nat} {bytes : List α}

structure Ring.Wf (r : Ring α) : Prop where
  pos : 0 < r.size
  fits : r.cnt ≤ r.size
  low : r.out < r.size
  ends : r.in_ = (r.out + r.cnt) % r.size

def Ring.contents (r : Ring α) : List α := (List.range r.cnt).map fun i => r.buffer ((r.out + i) % r.size)

def slice (buffer : Nat → α) (start n : Nat) : List α := (List.range n).map fun i => buffer (start + i)
def emptied (size : Nat) (buffer : Nat → α) : Ring α := ⟨size,0,0,0,buffer⟩

def Ring.drop (r : Ring α) (n : Nat) : Ring α :=
  if r.cnt - n = 0 then emptied r.size r.buffer
  else { r with out := if r.out + n ≥ r.size then 0 else r.out + n, cnt := r.cnt - n }

def Ring.fill (r : Ring α) (bytes : List α) (seg : Nat) : Ring α :=
  { r with buffer := fun i =>
      if r.in_ ≤ i ∧ i < r.in_ + seg then bytes.getD (i - r.in_) (r.buffer i)
      else if i < bytes.length - seg then bytes.getD (seg + i) (r.buffer i) else r.buffer i }

def Ring.grow (r : Ring α) (n seg : Nat) : Ring α :=
  { r with in_ := if r.in_ + n ≥ r.size then n - seg else r.in_ + n, cnt := r.cnt + n }

@[simp] theorem contents_length (r : Ring α) : r.contents.length = r.cnt := by simp [Ring.contents]
@[simp] theorem slice_length (buffer : Nat → α) (start n : Nat) : (slice buffer start n).length = n := by simp [slice]

theorem contents_getElem (r : Ring α) (i : Nat) (low : i < r.contents.length) : r.contents[i] = r.buffer ((r.out + i) % r.size) := by
  simp [Ring.contents]

theorem slice_getElem (buffer : Nat → α) (start n i : Nat) (low : i < (slice buffer start n).length) : (slice buffer start n)[i] = buffer (start + i) := by
  simp [slice]

theorem slice_take (buffer : Nat → α) (start n k : Nat) : (slice buffer start n).take k = slice buffer start (min k n) := by
  apply ext_getElem
  · simp
  intro i low _
  rw [getElem_take,slice_getElem,slice_getElem]

theorem slice_drop (buffer : Nat → α) (start n k : Nat) : (slice buffer start n).drop k = slice buffer (start + k) (n - k) := by
  apply ext_getElem
  · simp
  intro i low _
  rw [getElem_drop,slice_getElem,slice_getElem,Nat.add_assoc]

theorem emptied_wf {size : Nat} (pos : 0 < size) (buffer : Nat → α) : (emptied size buffer).Wf :=
  ⟨pos,zero_le _,pos,(mod_eq_of_lt pos).symm⟩

theorem emptied_contents (size : Nat) (buffer : Nat → α) : (emptied size buffer).contents = [] := rfl
theorem Ring.Wf.in_lt (wf : r.Wf) : r.in_ < r.size := wf.ends ▸ mod_lt _ wf.pos

theorem Ring.Wf.drop (wf : r.Wf) (flat : r.out + n ≤ r.size) : (r.drop n).Wf := by
  unfold Ring.drop
  split
  · exact emptied_wf wf.pos _
  rename_i some_
  have fits := wf.fits
  refine ⟨wf.pos,?_,?_,?_⟩
  · show r.cnt - n ≤ r.size
    omega
  · show (if r.out + n ≥ r.size then 0 else r.out + n) < r.size
    split
    · exact wf.pos
    · omega
  show r.in_ = ((if r.out + n ≥ r.size then 0 else r.out + n) + (r.cnt - n)) % r.size
  rw [wf.ends]
  split
  · have wrapped : r.out + r.cnt = 0 + (r.cnt - n) + r.size := by omega
    rw [wrapped,add_mod_right]
  congr 1
  omega

theorem drop_contents (flat : r.out + n ≤ r.size) : (r.drop n).contents = r.contents.drop n := by
  unfold Ring.drop
  split
  · rename_i gone
    rw [emptied_contents,drop_eq_nil_of_le (by rw [contents_length]; omega)]
  rename_i some_
  apply ext_getElem
  · simp
  intro i _ _
  rw [getElem_drop,contents_getElem,contents_getElem]
  split
  · have wrapped : r.out + (n + i) = 0 + i + r.size := by omega
    rw [wrapped,add_mod_right]
  · rw [Nat.add_assoc]

theorem Ring.Wf.fill (wf : r.Wf) (bytes : List α) (seg : Nat) : (r.fill bytes seg).Wf := ⟨wf.pos,wf.fits,wf.low,wf.ends⟩

theorem Ring.Wf.grow (wf : r.Wf) (room : r.cnt + n ≤ r.size) (seg_eq : seg = min (r.size - r.in_) n) : (r.grow n seg).Wf := by
  have in_lt := wf.in_lt
  refine ⟨wf.pos,room,wf.low,?_⟩
  show (if r.in_ + n ≥ r.size then n - seg else r.in_ + n) = (r.out + (r.cnt + n)) % r.size
  have next : (r.out + (r.cnt + n)) % r.size = (r.in_ + n) % r.size := by
    rw [wf.ends,Nat.mod_add_mod,Nat.add_assoc]
  rw [next]
  split
  · rw [mod_eq_sub_mod (by omega),mod_eq_of_lt (by omega)]
    omega
  · rw [mod_eq_of_lt (by omega)]

theorem grow_contents (wf : r.Wf) (seg : Nat) (copied : ∀ i,(low : i < bytes.length) → r.buffer ((r.in_ + i) % r.size) = bytes[i]) :
    (r.grow bytes.length seg).contents = r.contents ++ bytes := by
  apply ext_getElem
  · simp [Ring.grow]
  intro i low _
  rw [contents_getElem]
  show r.buffer ((r.out + i) % r.size) = _
  by_cases old : i < r.cnt
  · rw [getElem_append_left (by simpa using old),contents_getElem]
  have here : i < r.cnt + bytes.length := by simpa [Ring.grow] using low
  rw [getElem_append_right (by simpa using old)]
  have place : (r.out + i) % r.size = (r.in_ + (i - r.cnt)) % r.size := by
    rw [wf.ends,mod_add_mod]
    congr 1
    omega
  rw [place,copied (i - r.cnt) (by omega)]
  simp
end NetbsdAvr32.RingBuffer
