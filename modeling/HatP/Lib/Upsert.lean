import Mathlib.Data.List.Induction
import Mathlib.Data.List.Nodup
import Mathlib.Data.List.Perm.Subperm
import Mathlib.Data.Set.Basic

/-!
# Replacing the entries of a keyed table

A table is a set of entries, each a key and a value.  A list of puts gives some keys new
values.  Puts that are meant to replace certain entries do so, without a trace of the old
ones and without touching another entry, exactly when their keys are those of the entries
they replace.
-/

namespace Upsert

variable {κ ν : Type*} [DecidableEq κ] {puts : List (κ × ν)}

def lastPut (puts : List (κ × ν)) (key : κ) : Option ν :=
  puts.foldl (fun last put ↦ if put.1 = key then some put.2 else last) none

def upserted (table : Set (κ × ν)) (puts : List (κ × ν)) : Set (κ × ν) :=
  {entry | match lastPut puts entry.1 with
    | some value => entry.2 = value
    | none => entry ∈ table}

theorem lastPut_concat (puts : List (κ × ν)) (put : κ × ν) (key : κ) :
    lastPut (puts ++ [put]) key = if put.1 = key then some put.2 else lastPut puts key := by
  rw [lastPut, List.foldl_concat]
  rfl

theorem mem_of_lastPut {key : κ} {value : ν}
    (h : lastPut puts key = some value) : (key, value) ∈ puts := by
  induction puts using List.reverseRecOn with
  | nil => cases h
  | append_singleton puts put ih =>
    rw [lastPut_concat] at h
    split at h
    next hkey =>
      cases h
      subst hkey
      exact List.mem_append_right _ (.head _)
    next => exact List.mem_append_left _ (ih h)

theorem lastPut_eq_none_iff {key : κ} :
    lastPut puts key = none ↔ key ∉ puts.map Prod.fst := by
  induction puts using List.reverseRecOn with
  | nil => simp [lastPut]
  | append_singleton puts put ih =>
    rw [lastPut_concat, List.map_append, List.mem_append]
    split
    next hkey => simp [hkey]
    next hkey => simp [ih, Ne.symm hkey]

variable {kept old new : List (κ × ν)}

theorem mem_upserted {table : Set (κ × ν)} (hnew : (new.map Prod.fst).Nodup) {entry : κ × ν} :
    entry ∈ upserted table new ↔
      if entry.1 ∈ new.map Prod.fst then entry ∈ new else entry ∈ table := by
  rw [upserted, Set.mem_ofPred_eq]
  cases hlast : lastPut new entry.1 with
  | none => rw [if_neg (lastPut_eq_none_iff.mp hlast)]
  | some value =>
    have hmem := mem_of_lastPut hlast
    rw [if_pos (List.mem_map_of_mem hmem)]
    constructor
    · rintro rfl
      exact hmem
    · intro hentry
      exact congrArg Prod.snd (List.inj_on_of_nodup_map hnew hentry hmem rfl)

section

variable (hnodup : ((kept ++ old).map Prod.fst).Nodup)

include hnodup

theorem replaced_of_perm (hperm : (new.map Prod.fst).Perm (old.map Prod.fst)) :
    upserted {entry | entry ∈ kept ++ old} new = {entry | entry ∈ kept ++ new} ∧
      ((kept ++ new).map Prod.fst).Nodup := by
  rw [List.map_append] at hnodup
  have hkeys := (List.Perm.append_left (kept.map Prod.fst) hperm).nodup_iff.mpr hnodup
  obtain ⟨-, hnew, hdisjoint⟩ := List.nodup_append'.mp hkeys
  refine ⟨?_, by rwa [List.map_append]⟩
  ext entry
  rw [mem_upserted hnew, Set.mem_ofPred_eq, Set.mem_ofPred_eq, List.mem_append, List.mem_append]
  split
  next hput =>
    refine ⟨.inr, fun h ↦ h.resolve_left fun hentry ↦ ?_⟩
    exact hdisjoint (List.mem_map_of_mem hentry) hput
  next hput =>
    have hold : entry ∉ old := fun h ↦ hput (hperm.mem_iff.mpr (List.mem_map_of_mem h))
    have hnotNew : entry ∉ new := fun h ↦ hput (List.mem_map_of_mem h)
    simp [hold, hnotNew]

theorem perm_of_replaced (hlength : new.length = old.length)
    (heq : upserted {entry | entry ∈ kept ++ old} new = {entry | entry ∈ kept ++ new})
    (hkeys : ((kept ++ new).map Prod.fst).Nodup) :
    (new.map Prod.fst).Perm (old.map Prod.fst) := by
  rw [List.map_append] at hnodup hkeys
  obtain ⟨-, hold, hdisjoint⟩ := List.nodup_append'.mp hnodup
  obtain ⟨-, hnew, -⟩ := List.nodup_append'.mp hkeys
  have hsubset : old.map Prod.fst ⊆ new.map Prod.fst := by
    intro key hkey
    by_contra hput
    obtain ⟨entry, hentry, rfl⟩ := List.mem_map.mp hkey
    have hstill : entry ∈ upserted {entry | entry ∈ kept ++ old} new := by
      rw [mem_upserted hnew, if_neg hput]
      exact List.mem_append_right _ hentry
    rw [heq] at hstill
    rcases List.mem_append.mp hstill with hkept | hmem
    · exact hdisjoint (List.mem_map_of_mem hkept) hkey
    · exact hput (List.mem_map_of_mem hmem)
  refine ((List.subperm_of_subset hold hsubset).perm_of_length_le ?_).symm
  rw [List.length_map, List.length_map, hlength]

/-- Puts replace the old entries by the new ones if and only if they have the same keys. -/
theorem replaced_iff_perm (hlength : new.length = old.length) :
    (upserted {entry | entry ∈ kept ++ old} new = {entry | entry ∈ kept ++ new} ∧
        ((kept ++ new).map Prod.fst).Nodup) ↔
      (new.map Prod.fst).Perm (old.map Prod.fst) :=
  ⟨fun h ↦ perm_of_replaced hnodup hlength h.1 h.2, replaced_of_perm hnodup⟩

end

end Upsert
