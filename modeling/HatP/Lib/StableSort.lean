import Mathlib.Data.List.Sort
import Mathlib.Data.List.TakeWhile
import Mathlib.Data.List.Destutter

/-!
# Stable sorting and filtering

A stable sort commutes with dropping elements, and a binary search for a
partition point on a sorted list splits it the way a filter does.
-/

namespace StableSort

variable {α : Type*} {r : α → α → Prop} {a : α} {l : List α} {p : α → Bool}

theorem filter_orderedInsert_of_pos [DecidableRel r] [IsTrans α r]
    (hsorted : l.Pairwise r) (ha : p a = true) :
    (l.orderedInsert r a).filter p = (l.filter p).orderedInsert r a := by
  induction l with
  | nil => simp [ha]
  | cons b l ih =>
    obtain ⟨hb, hl⟩ := List.pairwise_cons.mp hsorted
    by_cases hab : r a b
    · rw [List.orderedInsert_cons_of_le r l hab, List.filter_cons_of_pos ha]
      cases hfilter : (b :: l).filter p with
      | nil => rfl
      | cons c cs =>
        have hc : c ∈ b :: l := (List.mem_filter.mp (hfilter ▸ List.mem_cons_self)).1
        have hac : r a c := by
          rcases List.mem_cons.mp hc with rfl | hc
          · exact hab
          · exact IsTrans.trans _ _ _ hab (hb c hc)
        exact (List.orderedInsert_cons_of_le r cs hac).symm
    · rw [List.orderedInsert_of_not_le r l hab]
      by_cases hp : p b = true
      · rw [List.filter_cons_of_pos hp, List.filter_cons_of_pos hp,
          List.orderedInsert_of_not_le r _ hab, ih hl]
      · rw [List.filter_cons_of_neg hp, List.filter_cons_of_neg hp, ih hl]

theorem filter_orderedInsert_of_neg [DecidableRel r] (ha : ¬p a = true) :
    (l.orderedInsert r a).filter p = l.filter p := by
  induction l with
  | nil => simp [ha]
  | cons b l ih =>
    by_cases hab : r a b
    · rw [List.orderedInsert_cons_of_le r l hab, List.filter_cons_of_neg ha]
    · rw [List.orderedInsert_of_not_le r l hab, List.filter_cons, List.filter_cons, ih]

theorem filter_insertionSort [DecidableRel r] [IsTrans α r] [Std.Total r] (p : α → Bool)
    (l : List α) :
    (l.insertionSort r).filter p = (l.filter p).insertionSort r := by
  induction l with
  | nil => rfl
  | cons a l ih =>
    by_cases ha : p a = true
    · rw [List.insertionSort_cons,
        filter_orderedInsert_of_pos (List.pairwise_insertionSort r l) ha, ih,
        List.filter_cons_of_pos ha, List.insertionSort_cons]
    · rw [List.insertionSort_cons, filter_orderedInsert_of_neg ha, ih, List.filter_cons_of_neg ha]

theorem takeWhile_eq_filter (hsorted : l.Pairwise r)
    (hdown : ∀ x y, r x y → p y = true → p x = true) : l.takeWhile p = l.filter p := by
  induction l with
  | nil => rfl
  | cons b l ih =>
    obtain ⟨hb, hl⟩ := List.pairwise_cons.mp hsorted
    by_cases hp : p b = true
    · rw [List.takeWhile_cons_of_pos hp, List.filter_cons_of_pos hp, ih hl]
    · rw [List.takeWhile_cons_of_neg hp]
      symm
      apply List.filter_eq_nil_iff.mpr
      intro x hx hpx
      rcases List.mem_cons.mp hx with rfl | hx
      · exact hp hpx
      · exact hp (hdown b x (hb x hx) hpx)

theorem exists_mem_destutter [DecidableRel r] (hrefl : ∀ x, r x x)
    (hsymm : ∀ x y, r x y → r y x) (h : a ∈ l) :
    ∃ b ∈ l.destutter fun x y ↦ ¬r x y, r a b := by
  suffices hcons : ∀ (l : List α) (x : α), a ∈ x :: l →
      ∃ b ∈ l.destutter' (fun x y ↦ ¬r x y) x, r a b by
    cases l with
    | nil => simp at h
    | cons x l => exact hcons l x h
  intro l
  induction l with
  | nil =>
    intro x ha
    obtain rfl := List.mem_singleton.mp ha
    exact ⟨a, List.mem_destutter' _ _ a, hrefl a⟩
  | cons y l ih =>
    intro x ha
    by_cases hxy : r x y
    · rw [List.destutter'_cons_neg _ (not_not.mpr hxy)]
      rcases List.mem_cons.mp ha with rfl | ha
      · exact ⟨a, List.mem_destutter' _ _ a, hrefl a⟩
      · rcases List.mem_cons.mp ha with rfl | ha
        · exact ⟨x, List.mem_destutter' _ _ x, hsymm x a hxy⟩
        · exact ih x (List.mem_cons_of_mem x ha)
    · rw [List.destutter'_cons_pos _ hxy]
      rcases List.mem_cons.mp ha with rfl | ha
      · exact ⟨a, .head _, hrefl a⟩
      · obtain ⟨b, hb, hab⟩ := ih y ha
        exact ⟨b, List.mem_cons_of_mem x hb, hab⟩

theorem nodup_of_isChain_ne [PartialOrder α] (hsorted : l.Pairwise (· ≤ ·))
    (hne : l.IsChain (· ≠ ·)) : l.Nodup := by
  induction l with
  | nil => exact List.nodup_nil
  | cons x l ih =>
    obtain ⟨hx, hsorted⟩ := List.pairwise_cons.mp hsorted
    cases l with
    | nil => exact List.nodup_singleton x
    | cons y l =>
      obtain ⟨hxy, hne⟩ := List.isChain_cons_cons.mp hne
      refine List.nodup_cons.mpr ⟨fun hmem ↦ ?_, ih hsorted hne⟩
      have hlt : x < y := lt_of_le_of_ne (hx y (.head _)) hxy
      rcases List.mem_cons.mp hmem with heq | hmem
      · exact hxy heq
      · exact absurd ((List.pairwise_cons.mp hsorted).1 x hmem) hlt.not_ge

end StableSort
