import Mathlib.Data.List.Basic

/-!
# Readers with checked and unchecked access

A reader walks over a slice that lies somewhere in memory.  A checked access fails
behind the end of the slice, an unchecked one returns what the memory holds there.
The cursor remembers how far the accesses have reached, so that one can state that a
reader has stayed inside.

`Reads` says which elements a reader expects for a value, `Advances` that a reader
moves on by a fixed amount without looking at the length.  Both compose along the
sequence of the reads.
-/

/-- A slice, and what the memory holds behind its end. -/
structure Slice (β : Type) where
  data : List β
  behind : ℕ → β

def Slice.peek {β : Type} (s : Slice β) (i : ℕ) : β :=
  s.data[i]?.getD (s.behind (i - s.data.length))

structure Cursor where
  pos : ℕ
  /-- All accesses were in front of this offset. -/
  reach : ℕ
deriving DecidableEq

namespace Cursor

/-- Everything in front of the position has been read, and nothing else. -/
def after (n : ℕ) : Cursor := ⟨n, n⟩

def advance (c : Cursor) (n : ℕ) : Cursor := ⟨c.pos + n, max c.reach (c.pos + n)⟩

@[simp] theorem pos_after (n : ℕ) : (Cursor.after n).pos = n := rfl

@[simp] theorem reach_after (n : ℕ) : (Cursor.after n).reach = n := rfl

@[simp] theorem advance_after (m n : ℕ) : (Cursor.after m).advance n = .after (m + n) := by
  simp [advance, Cursor.after]

end Cursor

def RawReader (β ε α : Type) : Type := Slice β → Cursor → Except ε (α × Cursor)

namespace RawReader

variable {β ε α γ : Type} {f : α → RawReader β ε γ} {r : RawReader β ε α} {field : List β} {x : α}

instance : Monad (RawReader β ε) where
  pure x := fun _ c ↦ .ok (x, c)
  bind r f := fun s c ↦
    match r s c with
    | .error err => .error err
    | .ok (x, next) => f x s next

instance : LawfulMonad (RawReader β ε) := by
  refine LawfulMonad.mk' _ (fun r ↦ ?_) (fun _ _ ↦ rfl) fun r f g ↦ ?_
  · funext s c
    change (match r s c with
      | .error err => .error err
      | .ok (x, next) => Except.ok (x, next)) = r s c
    cases r s c <;> rfl
  · funext s c
    change (match (match r s c with
        | .error err => Except.error err
        | .ok (x, next) => f x s next) with
      | .error err => Except.error err
      | .ok (x, next) => g x s next) = match r s c with
        | .error err => Except.error err
        | .ok (x, next) => (f x >>= g) s next
    cases r s c <;> rfl

def fail (err : ε) : RawReader β ε α := fun _ _ ↦ .error err

def element (err : ε) : RawReader β ε β := fun s c ↦
  match s.data[c.pos]? with
  | none => .error err
  | some b => .ok (b, c.advance 1)

def take (n : ℕ) (err : ε) : RawReader β ε (List β) := fun s c ↦
  if c.pos + n ≤ s.data.length then .ok ((s.data.drop c.pos).take n, c.advance n)
  else .error err

def unchecked (n : ℕ) : RawReader β ε (List β) := fun s c ↦
  .ok ((List.range n).map fun i ↦ s.peek (c.pos + i), c.advance n)

def all (f : α → RawReader β ε γ) : List α → RawReader β ε (List γ)
  | [] => pure []
  | a :: as => do
    let x ← f a
    let xs ← all f as
    return x :: xs

def run (r : RawReader β ε α) (s : Slice β) : Except ε (α × Cursor) := r s (.after 0)

section Equations

variable {r : RawReader β ε α} {x : α} {s : Slice β} {c next : Cursor}
  {f : α → RawReader β ε γ} {err : ε}

theorem bind_apply_ok (h : r s c = .ok (x, next)) :
    (r >>= f) s c = f x s next := by
  change (match r s c with
    | .error err => .error err
    | .ok (x, next) => f x s next) = f x s next
  rw [h]

theorem bind_apply_error (h : r s c = .error err) :
    (r >>= f) s c = .error err := by
  change (match r s c with
    | .error err => Except.error err
    | .ok (x, next) => f x s next) = .error err
  rw [h]

theorem bind_eq_ok {y : γ} {last : Cursor} (h : (r >>= f) s c = .ok (y, last)) :
    ∃ x next, r s c = .ok (x, next) ∧ f x s next = .ok (y, last) := by
  cases hr : r s c with
  | error err =>
    rw [bind_apply_error hr] at h
    cases h
  | ok result => exact ⟨result.1, result.2, rfl, (bind_apply_ok hr).symm.trans h⟩

theorem snd_bind_pure (f : α → γ) :
    ((r >>= fun x ↦ (pure (f x) : RawReader β ε γ)) s c).map Prod.snd = (r s c).map Prod.snd := by
  cases h : r s c with
  | error err => rw [bind_apply_error h]; rfl
  | ok result => rw [bind_apply_ok h]; rfl

theorem element_eq_ok {b : β} {p : ℕ} (h : element err s (.after p) = .ok (b, next)) :
    ∃ rest, s.data.drop p = b :: rest ∧ next = .after (p + 1) := by
  rw [element, Cursor.pos_after] at h
  split at h
  next => cases h
  next b' hb =>
    obtain ⟨hp, rfl⟩ := List.getElem?_eq_some_iff.mp hb
    cases h
    exact ⟨s.data.drop (p + 1), List.drop_eq_getElem_cons hp, Cursor.advance_after p 1⟩

theorem take_eq_ok {xs : List β} {n p : ℕ} (h : take n err s (.after p) = .ok (xs, next)) :
    xs.length = n ∧ s.data.drop p = xs ++ s.data.drop (p + n) ∧ next = .after (p + n) := by
  rw [take, Cursor.pos_after, Cursor.advance_after] at h
  split at h
  next hn =>
    cases h
    refine ⟨?_, ?_, rfl⟩
    · rw [List.length_take, List.length_drop]
      omega
    · rw [← List.drop_drop, List.take_append_drop]
  next => cases h

theorem all_map {δ : Type} (f : α → RawReader β ε γ) (g : δ → α) (ds : List δ) :
    all f (ds.map g) = all (fun d ↦ f (g d)) ds := by
  induction ds with
  | nil => rfl
  | cons d ds ih => rw [List.map_cons, all, all, ih]

theorem all_append (f : α → RawReader β ε γ) (as bs : List α) :
    all f (as ++ bs) = (do
      let xs ← all f as
      let ys ← all f bs
      return xs ++ ys) := by
  induction as with
  | nil => simp [all]
  | cons a as ih => simp [all, ih]

theorem all_congr {g : α → RawReader β ε γ} {as : List α} (h : ∀ a ∈ as, f a = g a) :
    all f as = all g as := by
  induction as with
  | nil => rfl
  | cons a as ih =>
    obtain ⟨hhead, htail⟩ := List.forall_mem_cons.mp h
    rw [all, all, hhead, ih htail]

end Equations

theorem length_of_all {as : List α} {s : Slice β} {c next : Cursor}
    {xs : List γ} (h : all f as s c = .ok (xs, next)) : xs.length = as.length := by
  induction as generalizing c xs with
  | nil =>
    cases h
    rfl
  | cons a as ih =>
    obtain ⟨x, mid, -, h⟩ := bind_eq_ok h
    obtain ⟨rest, last, hrest, h⟩ := bind_eq_ok h
    cases h
    rw [List.length_cons, List.length_cons, ih hrest]

/-! ## What a reader expects -/

/-- The reader reads `x` from `field` wherever it stands. -/
def Reads (r : RawReader β ε α) (field : List β) (x : α) : Prop :=
  ∀ pre post behind, r ⟨pre ++ (field ++ post), behind⟩ (.after pre.length) =
    .ok (x, .after (pre.length + field.length))

theorem Reads.pure (x : α) : Reads (pure x : RawReader β ε α) [] x := fun _ _ _ ↦ rfl

theorem Reads.bind {rest : List β} {y : γ} (h : Reads r field x) (hf : Reads (f x) rest y) :
    Reads (r >>= f) (field ++ rest) y := by
  intro pre post behind
  have hfirst := h pre (rest ++ post) behind
  have hsecond := hf (pre ++ field) post behind
  rw [List.append_assoc, List.length_append] at hsecond
  rw [List.append_assoc, bind_apply_ok hfirst, hsecond, List.length_append, Nat.add_assoc]

theorem Reads.map (h : Reads r field x)
    (f : α → γ) : Reads (r >>= fun x ↦ Pure.pure (f x)) field (f x) := by
  rw [← List.append_nil field]
  exact h.bind (.pure (f x))

theorem Reads.run (h : Reads r field x)
    (behind : ℕ → β) : r.run ⟨field, behind⟩ = .ok (x, .after field.length) := by
  have hrun := h [] [] behind
  rw [List.append_nil, List.nil_append, List.length_nil, Nat.zero_add] at hrun
  exact hrun

theorem Reads.apply {rest : List β} (h : Reads r field x)
    {s : Slice β} {p : ℕ} (hdata : s.data.drop p = field ++ rest) (hp : p ≤ s.data.length) :
    r s (.after p) = .ok (x, .after (p + field.length)) := by
  obtain ⟨data, behind⟩ := s
  have happly := h (data.take p) rest behind
  rwa [← hdata, List.take_append_drop, List.length_take_of_le hp] at happly

theorem reads_element (b : β) (err : ε) : Reads (element err) [b] b := by
  intro pre post behind
  simp [element]

theorem reads_take (field : List β) (err : ε) : Reads (take field.length err) field field := by
  intro pre post behind
  simp [take]

theorem reads_unchecked (field : List β) :
    Reads (unchecked field.length : RawReader β ε _) field field := by
  intro pre post behind
  have hpeek : (List.range field.length).map (fun i ↦
      Slice.peek ⟨pre ++ (field ++ post), behind⟩ (pre.length + i)) = field := by
    apply List.ext_getElem
    · simp
    · intro i _ hi
      simp [Slice.peek, List.getElem?_append_right, List.getElem?_append_left hi, hi]
  change Except.ok (_, _) = _
  rw [Cursor.advance_after, Cursor.pos_after, hpeek]

theorem Reads.all {field : α → List β} {value : α → γ} {as : List α}
    (h : ∀ a ∈ as, Reads (f a) (field a) (value a)) :
    Reads (RawReader.all f as) (as.flatMap field) (as.map value) := by
  induction as with
  | nil => exact .pure []
  | cons a as ih =>
    obtain ⟨hhead, htail⟩ := List.forall_mem_cons.mp h
    rw [List.flatMap_cons, List.map_cons]
    exact hhead.bind ((ih htail).map fun xs ↦ value a :: xs)

/-! ## Readers that do not look at the length -/

def Advances (r : RawReader β ε α) (n : ℕ) : Prop :=
  ∀ s p, ∃ x, r s (.after p) = .ok (x, .after (p + n))

theorem advances_unchecked (n : ℕ) : Advances (unchecked n : RawReader β ε _) n :=
  fun s p ↦ ⟨_, by rw [unchecked, Cursor.advance_after]⟩

theorem advances_pure (x : α) : Advances (pure x : RawReader β ε α) 0 := fun _ _ ↦ ⟨x, rfl⟩

theorem Advances.bind {m n : ℕ}
    (h : Advances r m) (hf : ∀ x, Advances (f x) n) : Advances (r >>= f) (m + n) := by
  intro s p
  obtain ⟨x, hx⟩ := h s p
  obtain ⟨y, hy⟩ := hf x s (p + m)
  exact ⟨y, by rw [bind_apply_ok hx, hy, Nat.add_assoc]⟩

theorem Advances.map {n : ℕ} (h : Advances r n) (f : α → γ) :
    Advances (r >>= fun x ↦ Pure.pure (f x)) n :=
  h.bind fun x ↦ advances_pure (f x)

end RawReader
