import Mathlib

/-!
# Tallies

A tally is an ordered map from keys to numbers in which an absent key counts as
zero.  Tallies are counted up key by key, compared with each other, and changed
by the entries of another map; each of these loops is described by what it does
to the number of a single key.
-/

namespace Tally

open Std (ExtTreeMap LawfulEqCmp ReflCmp TransCmp)

variable {κ β γ : Type*} {cmp : κ → κ → Ordering} [TransCmp cmp] [LawfulEqCmp cmp]

def count [Zero β] (tally : ExtTreeMap κ β cmp) (key : κ) : β :=
  tally[key]?.getD 0

omit [LawfulEqCmp cmp] in
@[simp] theorem count_empty [Zero β] (key : κ) : count (∅ : ExtTreeMap κ β cmp) key = 0 := by
  rw [count, ExtTreeMap.getElem?_empty, Option.getD_none]

/-! ## Changes by the entries of a map -/

theorem getElem?_foldl_alter_of_not_mem (change : γ → Option β → Option β)
    (entries : List (κ × γ)) (tally : ExtTreeMap κ β cmp) {key : κ}
    (h : key ∉ entries.map Prod.fst) :
    (entries.foldl (fun tally entry ↦ tally.alter entry.1 (change entry.2)) tally)[key]? =
      tally[key]? := by
  induction entries generalizing tally with
  | nil => rfl
  | cons entry entries ih =>
    rw [List.map_cons, List.mem_cons, not_or] at h
    have hne : ¬cmp entry.1 key = .eq := fun heq ↦ h.1 (LawfulEqCmp.eq_of_compare heq).symm
    rw [List.foldl_cons, ih _ h.2, ExtTreeMap.getElem?_alter, if_neg hne]

theorem getElem?_foldl_alter_of_mem (change : γ → Option β → Option β)
    {entries : List (κ × γ)} (hnodup : (entries.map Prod.fst).Nodup)
    (tally : ExtTreeMap κ β cmp) {key : κ} {c : γ} (h : (key, c) ∈ entries) :
    (entries.foldl (fun tally entry ↦ tally.alter entry.1 (change entry.2)) tally)[key]? =
      change c tally[key]? := by
  induction entries generalizing tally with
  | nil => cases h
  | cons entry entries ih =>
    rw [List.map_cons, List.nodup_cons] at hnodup
    rw [List.foldl_cons]
    rcases List.mem_cons.mp h with rfl | htail
    · rw [getElem?_foldl_alter_of_not_mem _ _ _ hnodup.1, ExtTreeMap.getElem?_alter,
        if_pos ReflCmp.compare_self]
    · have hne : ¬cmp entry.1 key = .eq := by
        intro heq
        rw [LawfulEqCmp.eq_of_compare heq] at hnodup
        exact hnodup.1 (List.mem_map_of_mem htail)
      rw [ih hnodup.2 _ htail, ExtTreeMap.getElem?_alter, if_neg hne]

theorem getElem?_foldl_toList (change : γ → Option β → Option β)
    (changes : ExtTreeMap κ γ cmp) (tally : ExtTreeMap κ β cmp) (key : κ) :
    (changes.toList.foldl (fun tally entry ↦ tally.alter entry.1 (change entry.2)) tally)[key]? =
      match changes[key]? with
      | some c => change c tally[key]?
      | none => tally[key]? := by
  have hnodup : (changes.toList.map Prod.fst).Nodup := by
    rw [List.Nodup, List.pairwise_map]
    refine ExtTreeMap.distinct_keys_toList.imp fun {a b} hne heq ↦ hne ?_
    rw [heq]
    exact ReflCmp.compare_self
  cases hkey : changes[key]? with
  | none =>
    apply getElem?_foldl_alter_of_not_mem
    rintro hmem
    obtain ⟨⟨key', c⟩, hentry, rfl⟩ := List.mem_map.mp hmem
    rw [ExtTreeMap.mem_toList_iff_getElem?_eq_some.mp hentry] at hkey
    cases hkey
  | some c =>
    exact getElem?_foldl_alter_of_mem change hnodup tally
      (ExtTreeMap.mem_toList_iff_getElem?_eq_some.mpr hkey)

/-! ## Counting -/

/-- Counting keys one by one, with a number that stays at `cap`. -/
def tallied (cap : ℕ) (tally : ExtTreeMap κ ℕ cmp) (keys : List κ) : ExtTreeMap κ ℕ cmp :=
  keys.foldl (fun tally key ↦ tally.alter key fun n ↦ some (min (n.getD 0 + 1) cap)) tally

theorem count_tallied [BEq κ] [LawfulBEq κ] {cap : ℕ} (tally : ExtTreeMap κ ℕ cmp)
    (keys : List κ) (key : κ) (h : count tally key + keys.count key ≤ cap) :
    count (tallied cap tally keys) key = count tally key + keys.count key := by
  induction keys generalizing tally with
  | nil => simp [tallied]
  | cons first keys ih =>
    have hfirst : count (tally.alter first fun n ↦ some (min (n.getD 0 + 1) cap)) key =
        if (first == key) = true then min (count tally key + 1) cap else count tally key := by
      rw [count, ExtTreeMap.getElem?_alter]
      by_cases heq : first = key
      · rw [heq, if_pos ReflCmp.compare_self, if_pos BEq.rfl, Option.getD_some, count]
      · have hcmp : ¬cmp first key = .eq := heq ∘ LawfulEqCmp.eq_of_compare
        rw [if_neg hcmp, if_neg (heq ∘ eq_of_beq), count]
    have hrest := ih (tally.alter first fun n ↦ some (min (n.getD 0 + 1) cap))
    rw [hfirst] at hrest
    rw [List.count_cons] at h ⊢
    change count (tallied cap _ keys) key = _
    split_ifs at hrest h ⊢ with heq
    · rw [hrest (by omega)]
      omega
    · rw [hrest (by omega)]
      omega

/-! ## Comparison -/

theorem count_foldl_insert_nonzero [Zero β] [DecidableEq β] [DecidableEq κ] (f : κ → β)
    (keys : List κ) (tally : ExtTreeMap κ β cmp) (key : κ) :
    count (keys.foldl (fun tally key ↦
      if f key ≠ 0 then tally.insert key (f key) else tally) tally) key =
      if key ∈ keys ∧ f key ≠ 0 then f key else count tally key := by
  induction keys generalizing tally with
  | nil => simp
  | cons first keys ih =>
    rw [List.foldl_cons, ih]
    by_cases hzero : f first ≠ 0
    · have hinsert : count (tally.insert first (f first)) key =
          if first = key then f first else count tally key := by
        simp only [count, ExtTreeMap.getElem?_insert, LawfulEqCmp.compare_eq_iff_eq]
        split_ifs <;> rfl
      rw [if_pos hzero, hinsert]
      by_cases heq : first = key
      · subst heq
        simp [hzero]
      · simp [heq, Ne.symm heq]
    · rw [if_neg hzero]
      by_cases heq : first = key
      · subst heq
        simp [hzero]
      · simp [Ne.symm heq]

end Tally
