import Mathlib.Data.List.Basic

/-!
# Folds in blocks

An unrolled loop takes `n` elements a round and leaves the last few to a second
loop.  When a round does what `n` single steps do, the two loops are one fold.
-/

namespace BlockFold

variable {α β : Type*}

/-- A number of rounds of `n` elements each, with the elements they leave. -/
def blocks (n : ℕ) (round : β → List α → β) : ℕ → β → List α → β × List α
  | 0, s, xs => (s, xs)
  | rounds + 1, s, xs => blocks n round rounds (round s (xs.take n)) (xs.drop n)

def unrolled (n : ℕ) (round : β → List α → β) (step : β → α → β) (s : β) (xs : List α) : β :=
  let (s, tail) := blocks n round (xs.length / n) s xs
  tail.foldl step s

variable {n : ℕ} {round : β → List α → β} {step : β → α → β}

theorem foldl_blocks (hround : ∀ s ys, ys.length = n → round s ys = ys.foldl step s)
    {rounds : ℕ} {s : β} {xs : List α} (hlen : rounds * n ≤ xs.length) :
    (blocks n round rounds s xs).2.foldl step (blocks n round rounds s xs).1 = xs.foldl step s := by
  induction rounds generalizing s xs with
  | zero => rfl
  | succ rounds ih =>
    rw [Nat.succ_mul] at hlen
    have htake : (xs.take n).length = n := List.length_take_of_le (by omega)
    have hdrop : rounds * n ≤ (xs.drop n).length := by
      rw [List.length_drop]
      omega
    calc
      _ = (xs.drop n).foldl step (round s (xs.take n)) := ih hdrop
      _ = (xs.drop n).foldl step ((xs.take n).foldl step s) := by rw [hround _ _ htake]
      _ = xs.foldl step s := by rw [← List.foldl_append, List.take_append_drop]

theorem blocks_map {γ : Type*} (φ : β → γ) {round' : γ → List α → γ}
    (hround : ∀ s ys, ys.length = n → round' (φ s) ys = φ (round s ys))
    {rounds : ℕ} {s : β} {xs : List α} (hlen : rounds * n ≤ xs.length) :
    blocks n round' rounds (φ s) xs =
      (φ (blocks n round rounds s xs).1, (blocks n round rounds s xs).2) := by
  induction rounds generalizing s xs with
  | zero => rfl
  | succ rounds ih =>
    rw [Nat.succ_mul] at hlen
    have htake : (xs.take n).length = n := List.length_take_of_le (by omega)
    have hdrop : rounds * n ≤ (xs.drop n).length := by
      rw [List.length_drop]
      omega
    rw [blocks, blocks, hround s _ htake]
    exact ih hdrop

theorem unrolled_eq_foldl (hround : ∀ s ys, ys.length = n → round s ys = ys.foldl step s)
    (s : β) (xs : List α) : unrolled n round step s xs = xs.foldl step s :=
  foldl_blocks hround (Nat.div_mul_le_self _ _)

end BlockFold
