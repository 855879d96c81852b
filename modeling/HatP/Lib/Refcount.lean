import Mathlib

/-!
# Reference counts in an ordered map

A map from resources to positive counts stands for the list of their holders:
an entry counts the holders of its resource, and a resource without holders
has no entry.
-/

namespace Refcount

open Std (ExtTreeMap LawfulEqCmp TransCmp)

variable {α : Type*} [DecidableEq α] {cmp : α → α → Ordering} [TransCmp cmp]
  {m : ExtTreeMap α ℕ cmp} {l l' : List α} {a : α}

def acquire (m : ExtTreeMap α ℕ cmp) (a : α) : ExtTreeMap α ℕ cmp :=
  m.alter a fun count ↦ some (count.getD 0 + 1)

def release (m : ExtTreeMap α ℕ cmp) (a : α) : ExtTreeMap α ℕ cmp :=
  m.alter a fun count ↦ count.bind fun count ↦
    if count - 1 = 0 then none else some (count - 1)

def Represents (m : ExtTreeMap α ℕ cmp) (l : List α) : Prop :=
  ∀ a, m[a]? = if l.count a = 0 then none else some (l.count a)

theorem represents_empty : Represents (∅ : ExtTreeMap α ℕ cmp) [] :=
  fun a ↦ by simp

theorem Represents.mem_iff (h : Represents m l) : a ∈ m ↔ a ∈ l := by
  rw [ExtTreeMap.mem_iff_isSome_getElem?, h a]
  by_cases hmem : a ∈ l
  · have hpos : 0 < l.count a := List.count_pos_iff.mpr hmem
    simp only [hmem, hpos.ne', if_false, Option.isSome_some]
  · simp only [hmem, List.count_eq_zero_of_not_mem hmem, if_true, Option.isSome_none,
      Bool.false_eq_true]

variable [LawfulEqCmp cmp]

theorem Represents.acquire (h : Represents m l) (a : α) : Represents (acquire m a) (a :: l) := by
  intro b
  unfold Refcount.acquire
  rw [ExtTreeMap.getElem?_alter, h a, h b, List.count_cons]
  by_cases hab : a = b
  · subst hab
    by_cases hcount : l.count a = 0 <;> simp [hcount]
  · simp [hab]

theorem Represents.release (h : Represents m l) (hperm : l.Perm (a :: l')) :
    Represents (release m a) l' := by
  intro b
  have hcount : ∀ c, l.count c = (a :: l').count c := hperm.count_eq
  unfold Refcount.release
  rw [ExtTreeMap.getElem?_alter, h a, h b, hcount, hcount, List.count_cons, List.count_cons]
  by_cases hab : a = b
  · subst hab
    simp
  · simp [hab]

end Refcount
