import NetbsdAvr32.Outcome

-- Allocated arrays of a C program whose contents may be undefined: a function
-- from the index, of which `size` cells may be accessed.
namespace NetbsdAvr32.Cells
open Function

def read (size : Nat) (cells : Nat → α) (i : Nat) : Except Halt α :=
  if i < size then .ok (cells i) else .error (.fault "read past the array")

def write (size : Nat) (cells : Nat → α) (i : Nat) (x : α) : Except Halt (Nat → α) :=
  if i < size then .ok (update cells i x) else .error (.fault "write past the array")

-- The same with a signed index.
def readInt (size : Nat) (cells : Nat → α) (i : Int) : Except Halt α :=
  if 0 ≤ i then read size cells i.toNat else .error (.fault "read before the array")

def writeInt (size : Nat) (cells : Nat → α) (i : Int) (x : α) : Except Halt (Nat → α) :=
  if 0 ≤ i then write size cells i.toNat x else .error (.fault "write before the array")

-- The `n` cells of `source` from `src` on, put at `dst`.
def placed (cells : Nat → α) (dst : Nat) (source : Nat → α) (src n : Nat) (k : Nat) : α :=
  if dst ≤ k ∧ k < dst + n then source (k - dst + src) else cells k

-- memcpy and memmove.
def copy (size : Nat) (cells : Nat → α) (dst : Nat) (sourceSize : Nat) (source : Nat → α) (src n : Nat) :
    Except Halt (Nat → α) :=
  if dst + n ≤ size ∧ src + n ≤ sourceSize then .ok (placed cells dst source src n)
  else .error (.fault "copy past the array")

def filled (cells : Nat → α) (dst n : Nat) (x : α) (k : Nat) : α :=
  if dst ≤ k ∧ k < dst + n then x else cells k

def fill (size : Nat) (cells : Nat → α) (dst n : Nat) (x : α) : Except Halt (Nat → α) :=
  if dst + n ≤ size then .ok (filled cells dst n x) else .error (.fault "memset past the array")

variable {size sourceSize dst src n i k : Nat} {cells source : Nat → α} {x : α}

theorem read_ok (inside : i < size) : read size cells i = .ok (cells i) := if_pos inside
theorem write_ok (inside : i < size) : write size cells i x = .ok (update cells i x) := if_pos inside

@[simp] theorem readInt_nat (size : Nat) (cells : Nat → α) (i : Nat) : readInt size cells (i : Int) = read size cells i :=
  if_pos (Int.natCast_nonneg i)

@[simp] theorem writeInt_nat (size : Nat) (cells : Nat → α) (i : Nat) (x : α) :
    writeInt size cells (i : Int) x = write size cells i x := if_pos (Int.natCast_nonneg i)

theorem fill_ok (inside : dst + n ≤ size) : fill size cells dst n x = .ok (filled cells dst n x) := if_pos inside

theorem read_inv (ran : read size cells i = .ok y) : i < size ∧ y = cells i := by
  unfold read at ran
  split at ran
  · next inside => exact ⟨inside,(Except.ok.inj ran).symm⟩
  · cases ran

theorem write_inv {after : Nat → α} (ran : write size cells i x = .ok after) : i < size ∧ after = update cells i x := by
  unfold write at ran
  split at ran
  · next inside => exact ⟨inside,(Except.ok.inj ran).symm⟩
  · cases ran

theorem copy_inv {after : Nat → α} (ran : copy size cells dst sourceSize source src n = .ok after) :
    dst + n ≤ size ∧ src + n ≤ sourceSize ∧ after = placed cells dst source src n := by
  unfold copy at ran
  split at ran
  · next inside => exact ⟨inside.1,inside.2,(Except.ok.inj ran).symm⟩
  · cases ran

theorem fill_inv {after : Nat → α} (ran : fill size cells dst n x = .ok after) :
    dst + n ≤ size ∧ after = filled cells dst n x := by
  unfold fill at ran
  split at ran
  · next inside => exact ⟨inside,(Except.ok.inj ran).symm⟩
  · cases ran

theorem placed_inside (low : dst ≤ k) (high : k < dst + n) : placed cells dst source src n k = source (k - dst + src) :=
  if_pos ⟨low,high⟩

theorem placed_outside (out : k < dst ∨ dst + n ≤ k) : placed cells dst source src n k = cells k := if_neg (by omega)
theorem filled_inside (low : dst ≤ k) (high : k < dst + n) : filled cells dst n x k = x := if_pos ⟨low,high⟩
theorem filled_outside (out : k < dst ∨ dst + n ≤ k) : filled cells dst n x k = cells k := if_neg (by omega)
end NetbsdAvr32.Cells
