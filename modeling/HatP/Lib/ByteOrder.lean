import Mathlib

/-!
# The dictionary order on byte strings

Byte strings are lists of `UInt8`, compared lexicographically.  The three-way
comparison used by ordered maps and the linear order used in statements agree.
-/

instance instLinearOrderByte : LinearOrder UInt8 where
  le_refl := UInt8.le_refl
  le_trans _ _ _ := UInt8.le_trans
  lt_iff_le_not_ge a b := by simp [UInt8.lt_iff_le_and_ne, UInt8.not_le]
  le_antisymm _ _ := UInt8.le_antisymm
  le_total := UInt8.le_total
  toDecidableLE := inferInstance
  toDecidableLT := inferInstance
  compare_eq_compareOfLessAndEq _ _ := rfl

namespace ByteOrder

theorem compareLex_eq_lt_iff (xs ys : List UInt8) :
    List.compareLex compare xs ys = .lt ↔ xs < ys := by
  induction xs generalizing ys with
  | nil => cases ys <;> simp [List.compareLex]
  | cons x xs ih =>
    cases ys with
    | nil => simp [List.compareLex]
    | cons y ys =>
      rw [List.compareLex_cons_cons, Ordering.then_eq_lt, ih, List.cons_lt_cons_iff,
        compare_lt_iff_lt, compare_eq_iff_eq]

theorem compare_eq_lt_iff (xs ys : List UInt8) : compare xs ys = .lt ↔ xs < ys :=
  compareLex_eq_lt_iff xs ys

theorem cons_le_cons {x y : UInt8} {xs ys : List UInt8} :
    x :: xs ≤ y :: ys ↔ x < y ∨ x = y ∧ xs ≤ ys := by
  rw [← not_lt, List.cons_lt_cons_iff, ← not_lt]
  constructor
  · intro h
    push Not at h
    rcases h.1.eq_or_lt with heq | hlt
    · exact .inr ⟨heq, not_lt.mpr (h.2 heq.symm)⟩
    · exact .inl hlt
  · rintro (hlt | ⟨rfl, h⟩)
    · rintro (hlt' | ⟨rfl, -⟩)
      · exact absurd hlt (not_lt.mpr hlt'.le)
      · exact absurd hlt (lt_irrefl _)
    · rintro (hlt' | ⟨-, h'⟩)
      · exact absurd hlt' (lt_irrefl _)
      · exact h h'

theorem prefix_iff_le_of_max {tail : List UInt8} (htail : ∀ byte ∈ tail, byte = 255)
    (xs : List UInt8) : tail <+: xs ↔ tail ≤ xs := by
  induction tail generalizing xs with
  | nil => exact iff_of_true List.nil_prefix (not_lt.mp (List.not_lt_nil xs))
  | cons byte tail ih =>
    obtain ⟨rfl, hrest⟩ := List.forall_mem_cons.mp htail
    cases xs with
    | nil => simp
    | cons x xs =>
      have hx : ¬255 < x := not_lt.mpr (UInt8.le_iff_toNat_le.mpr (Nat.le_of_lt_succ x.toNat_lt))
      rw [List.cons_prefix_cons, cons_le_cons, ih hrest]
      exact ⟨.inr, fun h ↦ h.resolve_left hx⟩

/-- An interval that ends where the last byte below the maximum is incremented
holds exactly the strings with the given beginning. -/
theorem prefix_iff (front : List UInt8) {byte : UInt8} (hbyte : byte ≠ 255) {tail : List UInt8}
    (htail : ∀ b ∈ tail, b = 255) (xs : List UInt8) :
    front ++ byte :: tail <+: xs ↔ front ++ byte :: tail ≤ xs ∧ xs < front ++ [byte + 1] := by
  induction front generalizing xs with
  | nil =>
    cases xs with
    | nil => simp
    | cons x xs =>
      have hx : x < byte + 1 ↔ x ≤ byte := by
        have hlt := byte.toNat_lt
        have hne : byte.toNat ≠ 255 := fun h ↦ hbyte (UInt8.toNat_inj.mp h)
        rw [UInt8.lt_iff_toNat_lt, UInt8.le_iff_toNat_le, UInt8.toNat_add]
        change x.toNat < (byte.toNat + 1) % 256 ↔ _
        omega
      rw [List.nil_append, List.nil_append, List.cons_prefix_cons, cons_le_cons,
        List.cons_lt_cons_iff, hx, prefix_iff_le_of_max htail]
      constructor
      · rintro ⟨rfl, hle⟩
        exact ⟨.inr ⟨rfl, hle⟩, .inl le_rfl⟩
      · rintro ⟨hlt | hsame, hle | ⟨-, hnil⟩⟩
        · exact absurd hlt (not_lt.mpr hle)
        · exact absurd hnil (List.not_lt_nil xs)
        · exact hsame
        · exact hsame
  | cons k front ih =>
    cases xs with
    | nil => simp
    | cons x xs =>
      rw [List.cons_append, List.cons_append, List.cons_prefix_cons, cons_le_cons,
        List.cons_lt_cons_iff, ih]
      constructor
      · rintro ⟨rfl, hle, hlt⟩
        exact ⟨.inr ⟨rfl, hle⟩, .inr ⟨rfl, hlt⟩⟩
      · rintro ⟨hlt | ⟨rfl, hle⟩, hlt' | ⟨heq, hlt''⟩⟩
        · exact absurd hlt (not_lt.mpr hlt'.le)
        · exact absurd hlt (heq ▸ lt_irrefl _)
        · exact absurd hlt' (lt_irrefl _)
        · exact ⟨rfl, hle, hlt''⟩

end ByteOrder
