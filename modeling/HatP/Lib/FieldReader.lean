import Mathlib.Data.List.Basic

/-!
# Reading fields from a buffer

A reader takes a value from a position of a buffer and moves on, or fails.
`Reads` says which elements it expects for a value: they are read back wherever
they stand, and a reader that runs out of elements before the end of the value
fails.  Both halves compose along the sequence of the fields.
-/

def FieldReader (β ε α : Type) : Type := List β → ℕ → Except ε (α × ℕ)

namespace FieldReader

variable {β ε α γ : Type}

instance : Monad (FieldReader β ε) where
  pure x := fun _ pos ↦ .ok (x, pos)
  bind r f := fun buf pos ↦
    match r buf pos with
    | .error err => .error err
    | .ok (x, next) => f x buf next

def fail (err : ε) : FieldReader β ε α := fun _ _ ↦ .error err

/-- The reader reads `x` from `bytes`, and from nothing shorter. -/
structure Reads (r : FieldReader β ε α) (bytes : List β) (x : α) : Prop where
  complete : ∀ pre post,
    r (pre ++ (bytes ++ post)) pre.length = .ok (x, pre.length + bytes.length)
  torn : ∀ pre n, n < bytes.length → ∃ err, r (pre ++ bytes.take n) pre.length = .error err

variable {r : FieldReader β ε α} {bytes : List β} {x : α} {f : α → FieldReader β ε γ}

theorem bind_apply_ok {buf : List β} {pos next : ℕ}
    (h : r buf pos = .ok (x, next)) : (r >>= f) buf pos = f x buf next := by
  change (match r buf pos with
    | .error err => .error err
    | .ok (x, next) => f x buf next) = f x buf next
  rw [h]

theorem bind_apply_error {buf : List β} {pos : ℕ} {err : ε}
    (h : r buf pos = .error err) : (r >>= f) buf pos = .error err := by
  change (match r buf pos with
    | .error err => Except.error err
    | .ok (x, next) => f x buf next) = .error err
  rw [h]

theorem Reads.bind {rest : List β} {y : γ}
    (h : Reads r bytes x) (hf : Reads (f x) rest y) : Reads (r >>= f) (bytes ++ rest) y where
  complete pre post := by
    have hfirst := h.complete pre (rest ++ post)
    have hsecond := hf.complete (pre ++ bytes) post
    rw [List.append_assoc, List.length_append] at hsecond
    rw [List.append_assoc, bind_apply_ok hfirst, hsecond, List.length_append, Nat.add_assoc]
  torn pre n hn := by
    rw [List.length_append] at hn
    by_cases hcut : n < bytes.length
    · obtain ⟨err, herr⟩ := h.torn pre n hcut
      refine ⟨err, bind_apply_error ?_⟩
      rwa [List.take_append_of_le_length (Nat.le_of_lt hcut)]
    · have hlong := Nat.le_of_not_lt hcut
      obtain ⟨err, herr⟩ := hf.torn (pre ++ bytes) (n - bytes.length) (by omega)
      have hfirst := h.complete pre (rest.take (n - bytes.length))
      rw [List.append_assoc, List.length_append] at herr
      refine ⟨err, ?_⟩
      rw [List.take_append, List.take_of_length_le hlong, bind_apply_ok hfirst, herr]

theorem Reads.bind_pure {y : γ} (h : Reads r bytes x)
    (hf : f x = pure y) : Reads (r >>= f) bytes y where
  complete pre post := by
    rw [bind_apply_ok (h.complete pre post), hf]
    rfl
  torn pre n hn := by
    obtain ⟨err, herr⟩ := h.torn pre n hn
    exact ⟨err, bind_apply_error herr⟩

end FieldReader
