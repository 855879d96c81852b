import Mathlib.Data.Fin.Tuple.Basic
import Mathlib.Data.List.Forall2

/-!
# Loops that can fail

What it says about a list that a loop over it came to its end.
-/

namespace Fallible

variable {α β ε : Type*} {ε : Type} {f : β → α → Except ε β} {xs : List α}

theorem map_eq_ok_iff {f : α → β} {x : Except ε α} {b : β} :
    x.map f = .ok b ↔ ∃ a, x = .ok a ∧ f a = b := by
  cases x <;> simp [Except.map]

section Bind

universe v

variable {α β : Type v} {x : Except ε α} {f : α → Except ε β} {b : β}

theorem bind_eq_ok_iff : x >>= f = .ok b ↔ ∃ a, x = .ok a ∧ f a = .ok b := by
  cases x <;> simp [bind, Except.bind]

theorem bind_eq_ok (h : x >>= f = .ok b) : ∃ a, x = .ok a ∧ f a = .ok b := bind_eq_ok_iff.mp h

end Bind

theorem mapM_eq_ok_iff {f : α → Except ε β} {ys : List β} :
    xs.mapM f = .ok ys ↔ List.Forall₂ (fun x y ↦ f x = .ok y) xs ys := by
  induction xs generalizing ys with
  | nil =>
    rw [List.mapM_nil, List.forall₂_nil_left_iff]
    exact ⟨fun h ↦ (Except.ok.inj h).symm, fun h ↦ h ▸ rfl⟩
  | cons x xs ih =>
    rw [List.mapM_cons, List.forall₂_cons_left_iff]
    simp only [bind_eq_ok_iff, ih]
    constructor
    · rintro ⟨y, hy, rest, hrest, ⟨⟩⟩
      exact ⟨y, rest, hy, hrest, rfl⟩
    · rintro ⟨y, rest, hy, hrest, rfl⟩
      exact ⟨y, hy, rest, hrest, rfl⟩

theorem exists_mapM_eq_ok_iff {f : α → Except ε β} :
    (∃ ys, xs.mapM f = .ok ys) ↔ ∀ x ∈ xs, ∃ y, f x = .ok y := by
  simp only [mapM_eq_ok_iff]
  induction xs with
  | nil => exact ⟨fun _ _ hx ↦ (by cases hx), fun _ ↦ ⟨[], .nil⟩⟩
  | cons x xs ih =>
    rw [List.forall_mem_cons, ← ih]
    constructor
    · rintro ⟨ys, hys⟩
      obtain ⟨y, rest, hy, hrest, -⟩ := List.forall₂_cons_left_iff.mp hys
      exact ⟨⟨y, hy⟩, rest, hrest⟩
    · rintro ⟨⟨y, hy⟩, rest, hrest⟩
      exact ⟨y :: rest, .cons hy hrest⟩

theorem mapM_eq_some_iff {f : α → Option β} {ys : List β} :
    xs.mapM f = some ys ↔ List.Forall₂ (fun x y ↦ f x = some y) xs ys := by
  induction xs generalizing ys with
  | nil =>
    rw [List.mapM_nil, List.forall₂_nil_left_iff]
    exact ⟨fun h ↦ (Option.some.inj h).symm, fun h ↦ h ▸ rfl⟩
  | cons x xs ih =>
    rw [List.mapM_cons, List.forall₂_cons_left_iff]
    simp only [Option.bind_eq_bind, Option.bind_eq_some_iff, ih, Option.pure_def, Option.some_inj]
    constructor
    · rintro ⟨y, hy, rest, hrest, rfl⟩
      exact ⟨y, rest, hy, hrest, rfl⟩
    · rintro ⟨y, rest, hy, hrest, rfl⟩
      exact ⟨y, hy, rest, hrest, rfl⟩

theorem foldlM_invariant {P : β → Prop} {b b' : β}
    (hstep : ∀ x ∈ xs, ∀ b b', P b → f b x = .ok b' → P b') (hb : P b)
    (h : xs.foldlM f b = .ok b') : P b' := by
  induction xs generalizing b with
  | nil =>
    cases h
    exact hb
  | cons x xs ih =>
    rw [List.foldlM_cons] at h
    obtain ⟨next, hx, hrest⟩ := bind_eq_ok h
    obtain ⟨hhead, htail⟩ := List.forall_mem_cons.mp hstep
    exact ih htail (hhead b next hb hx) hrest

/-- What each turn of a loop makes true, and later turns keep, is true at its end. -/
theorem foldlM_forall_mem {Q : α → β → Prop} {b b' : β} (hset : ∀ x b b', f b x = .ok b' → Q x b')
    (hkeep : ∀ x y b b', Q x b → f b y = .ok b' → Q x b') (h : xs.foldlM f b = .ok b') :
    ∀ x ∈ xs, Q x b' := by
  induction xs generalizing b with
  | nil => exact fun x hx ↦ by cases hx
  | cons x xs ih =>
    rw [List.foldlM_cons] at h
    obtain ⟨next, hx, hrest⟩ := bind_eq_ok h
    refine List.forall_mem_cons.mpr ⟨?_, ih hrest⟩
    exact foldlM_invariant (fun y _ b b' ↦ hkeep x y b b') (hset x b next hx) hrest

def sequence {ε : Type} : {n : ℕ} → {β : Fin n → Type} → ((i : Fin n) → Except ε (β i)) →
    Except ε ((i : Fin n) → β i)
  | 0, _, _ => .ok fun i ↦ i.elim0
  | _ + 1, _, f => do
    let head ← f 0
    let tail ← sequence fun i ↦ f i.succ
    return Fin.cons head tail

theorem of_sequence_eq_ok {n : ℕ} {β : Fin n → Type} {f : (i : Fin n) → Except ε (β i)}
    {values : (i : Fin n) → β i} (h : sequence f = .ok values) (i : Fin n) :
    f i = .ok (values i) := by
  induction n with
  | zero => exact i.elim0
  | succ n ih =>
    rw [sequence] at h
    obtain ⟨head, hhead, hrest⟩ := bind_eq_ok h
    obtain ⟨tail, htail, ⟨⟩⟩ := bind_eq_ok hrest
    refine Fin.cases ?_ (fun j ↦ ?_) i
    · exact hhead
    · exact ih htail j

theorem sequence_eq_ok {n : ℕ} {β : Fin n → Type} {f : (i : Fin n) → Except ε (β i)}
    {values : (i : Fin n) → β i} (h : ∀ i, f i = .ok (values i)) : sequence f = .ok values := by
  induction n with
  | zero =>
    refine congrArg Except.ok (funext fun i ↦ ?_)
    exact i.elim0
  | succ n ih =>
    rw [sequence, h 0, ih fun i ↦ h i.succ]
    exact congrArg Except.ok (Fin.cons_self_tail values)

end Fallible
