import Mathlib

/-!
# Enumerating a set by blocks

Several sources each list some elements of a set.  Their concatenation lists the
set exactly once when each lists only elements of the set, every element has a
source, and no element has two.
-/

namespace Enumeration

variable {α β ι : Type*} {l rows : List α} {S T : Set α}

/-- The list has every element of the set once, and nothing else. -/
def Enumerates (l : List α) (S : Set α) : Prop :=
  l.Nodup ∧ ∀ a, a ∈ l ↔ a ∈ S

structure Splits (sources : List ι) (block : ι → List α) (S : Set α) : Prop where
  sound : ∀ i ∈ sources, ∀ a ∈ block i, a ∈ S
  total : ∀ a ∈ S, ∃ i ∈ sources, a ∈ block i
  unique : ∀ i ∈ sources, ∀ j ∈ sources, ∀ a, a ∈ block i → a ∈ block j → i = j

theorem enumerates_flatMap_iff {sources : List ι} {block : ι → List α} (hsources : sources.Nodup)
    (hblocks : ∀ i ∈ sources, (block i).Nodup) :
    Enumerates (sources.flatMap block) S ↔ Splits sources block S := by
  rw [Enumerates, List.nodup_flatMap]
  constructor
  · rintro ⟨⟨-, hdisjoint⟩, hmem⟩
    refine ⟨fun i hi a ha ↦ (hmem a).mp (List.mem_flatMap.mpr ⟨i, hi, ha⟩),
      fun a ha ↦ List.mem_flatMap.mp ((hmem a).mpr ha), fun i hi j hj a hai haj ↦ ?_⟩
    by_contra hne
    have hsymm : Std.Symm (Function.onFun List.Disjoint block) := ⟨fun _ _ h ↦ h.symm⟩
    exact hdisjoint.forall hi hj hne hai haj
  · intro h
    refine ⟨⟨hblocks, ?_⟩, fun a ↦ ⟨fun ha ↦ ?_, fun ha ↦ List.mem_flatMap.mpr (h.total a ha)⟩⟩
    · exact hsources.imp_of_mem fun hi hj hne a hai haj ↦ hne (h.unique _ hi _ hj a hai haj)
    · obtain ⟨i, hi, hai⟩ := List.mem_flatMap.mp ha
      exact h.sound i hi a hai

theorem Enumerates.of_map_perm {f : α → β} (hinj : Set.InjOn f T) (hl : ∀ a ∈ l, a ∈ T)
    (hS : S ⊆ T) (hrows : Enumerates rows S) (hperm : (l.map f).Perm (rows.map f)) :
    Enumerates l S := by
  have hrowsT : ∀ a ∈ rows, a ∈ T := fun a ha ↦ hS ((hrows.2 a).mp ha)
  have hnodup : (rows.map f).Nodup :=
    List.Nodup.map_on (fun a ha b hb h ↦ hinj (hrowsT a ha) (hrowsT b hb) h) hrows.1
  refine ⟨(hperm.nodup_iff.mpr hnodup).of_map, fun a ↦ ?_⟩
  rw [← hrows.2 a]
  constructor
  · intro ha
    obtain ⟨b, hb, heq⟩ := List.mem_map.mp (hperm.mem_iff.mp (List.mem_map_of_mem ha))
    exact hinj (hrowsT b hb) (hl a ha) heq ▸ hb
  · intro ha
    obtain ⟨b, hb, heq⟩ := List.mem_map.mp (hperm.mem_iff.mpr (List.mem_map_of_mem ha))
    exact hinj (hl b hb) (hrowsT a ha) heq ▸ hb

theorem map_perm_map_iff_subset {f : α → β} {xs ys : List α} (hxs : xs.Nodup) (hys : ys.Nodup)
    (hsubset : ys ⊆ xs) : (xs.map f).Perm (ys.map f) ↔ xs ⊆ ys := by
  constructor
  · intro h
    have hlength : xs.length ≤ ys.length := by simpa using h.length_eq.le
    exact ((hys.subperm hsubset).perm_of_length_le hlength).symm.subset
  · intro h
    refine ((List.perm_ext_iff_of_nodup hxs hys).mpr fun a ↦ ⟨?_, ?_⟩).map f
    · exact fun ha ↦ h ha
    · exact fun ha ↦ hsubset ha

end Enumeration
