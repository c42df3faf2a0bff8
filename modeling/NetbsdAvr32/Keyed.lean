import Mathlib.Algebra.GroupWithZero.Nat
import Mathlib.Algebra.Ring.Int.Defs
import Mathlib.Data.List.Nodup
import Mathlib.Data.List.Perm.Basic

-- Lists of entries that have distinct keys, in no order that matters.
namespace NetbsdAvr32.Keyed
open List
variable {α κ : Type} [DecidableEq κ] {key : α → κ} {l l' before after : List α} {k k' : κ} {e x : α}

def Distinct (key : α → κ) (l : List α) : Prop := (l.map key).Nodup
def get? (key : α → κ) (k : κ) (l : List α) : Option α := l.find? (key · = k)

def swapOut (before after : List α) : List α :=
  match after.getLast? with
  | none => before
  | some x => before ++ x :: after.dropLast

theorem swapOut_perm (before after : List α) : (swapOut before after).Perm (before ++ after) := by
  unfold swapOut
  cases h : after.getLast? with
  | none =>
    rw [getLast?_eq_none_iff] at h
    subst h
    simp
  | some x =>
    obtain ⟨init,rfl⟩ := getLast?_eq_some_iff.mp h
    rw [dropLast_concat]
    exact (perm_append_comm : ([x] ++ init).Perm (init ++ [x])).append_left before

namespace Distinct

theorem perm (distinct : Distinct key l) (same : l.Perm l') : Distinct key l' := (same.map key).nodup_iff.mp distinct
theorem key_inj (distinct : Distinct key l) (mem : e ∈ l) (mem' : x ∈ l) (same : key e = key x) : e = x := inj_on_of_nodup_map distinct mem mem' same

theorem skip (distinct : Distinct key (before ++ e :: after)) : Distinct key (before ++ after) := by
  unfold Distinct at distinct ⊢
  rw [map_append,map_cons] at distinct
  rw [map_append]
  exact (nodup_middle.mp distinct).of_cons

theorem absent (distinct : Distinct key (before ++ e :: after)) : key e ∉ (before ++ after).map key := by
  unfold Distinct at distinct
  rw [map_append,map_cons] at distinct
  rw [map_append]
  exact (nodup_cons.mp (nodup_middle.mp distinct)).1

theorem put (distinct : Distinct key (before ++ after)) (fresh : key e ∉ (before ++ after).map key) : Distinct key (before ++ e :: after) := by
  unfold Distinct at distinct ⊢
  rw [map_append] at distinct fresh
  rw [map_append,map_cons]
  exact nodup_middle.mpr (nodup_cons.mpr ⟨fresh,distinct⟩)

theorem replace (distinct : Distinct key (before ++ e :: after)) (same : key x = key e) : Distinct key (before ++ x :: after) :=
  distinct.skip.put (same ▸ distinct.absent)

theorem get? (distinct : Distinct key l) (mem : e ∈ l) : get? key (key e) l = some e := by
  cases found : Keyed.get? key (key e) l with
  | none => exact absurd (decide_eq_true rfl) (find?_eq_none.mp found e mem)
  | some x =>
    have same : key x = key e := by simpa using find?_some found
    rw [distinct.key_inj (mem_of_find?_eq_some found) mem same]

theorem get?_perm (distinct : Distinct key l) (same : l.Perm l') (k : κ) : Keyed.get? key k l' = Keyed.get? key k l := by
  cases found : Keyed.get? key k l with
  | none =>
    refine find?_eq_none.mpr fun e mem => ?_
    exact find?_eq_none.mp found e (same.mem_iff.mpr mem)
  | some e =>
    have matches_ : key e = k := by simpa using find?_some found
    rw [← matches_]
    exact (distinct.perm same).get? (same.mem_iff.mp (mem_of_find?_eq_some found))
end Distinct

theorem get?_none (absent : k ∉ l.map key) : get? key k l = none := by
  refine find?_eq_none.mpr fun e mem => ?_
  rw [decide_eq_true_iff]
  rintro rfl
  exact absent (mem_map_of_mem mem)

theorem get?_mem (found : get? key k l = some e) : e ∈ l ∧ key e = k :=
  ⟨mem_of_find?_eq_some found,by simpa using find?_some found⟩

theorem get?_middle (distinct : Distinct key (before ++ e :: after)) (k : κ) :
    get? key k (before ++ e :: after) = if key e = k then some e else get? key k (before ++ after) := by
  split
  · next same =>
    subst same
    exact distinct.get? (by simp)
  · next ne => simp only [get?,find?_append,find?_cons,ne,decide_false]
end NetbsdAvr32.Keyed
