import HatP.Lib.Fallible

/-!
# Logs of frames

A log is a concatenation of frames, and a reader walks it frame by frame until
a frame is missing or cannot be read.  The rules below say what the reader
returns when complete frames are followed by a tail, and how a cut of the log
splits it into complete frames and a torn one.
-/

namespace FramedLog

variable {α β ε : Type*}

/-- Reads frames from `cursor` on, and returns them with the end of the last
one.  Every frame that is read spends one unit of fuel. -/
def decodeFrom (frameAt : List β → ℕ → Except ε (Option (α × ℕ))) (buf : List β) :
    ℕ → ℕ → Except ε (List α × ℕ)
  | 0, cursor => .ok ([], cursor)
  | fuel + 1, cursor =>
    if cursor < buf.length then
      match frameAt buf cursor with
      | .error err => .error err
      | .ok none => .ok ([], cursor)
      | .ok (some (item, next)) =>
        (decodeFrom frameAt buf fuel next).map fun rest ↦ (item :: rest.1, rest.2)
    else .ok ([], cursor)

def decodeAll (frameAt : List β → ℕ → Except ε (Option (α × ℕ))) (buf : List β) :
    Except ε (List α × ℕ) :=
  decodeFrom frameAt buf (buf.length + 1) 0

/-- The frame of `x` is read back wherever it stands. -/
structure Decodes (frameAt : List β → ℕ → Except ε (Option (α × ℕ))) (encode : α → List β)
    (x : α) : Prop where
  nonempty : encode x ≠ []
  complete : ∀ pre post, frameAt (pre ++ (encode x ++ post)) pre.length =
    .ok (some (x, pre.length + (encode x).length))

section Decode

variable {frameAt : List β → ℕ → Except ε (Option (α × ℕ))} {encode : α → List β} {xs : List α}

section

variable (hxs : ∀ x ∈ xs, Decodes frameAt encode x)

include hxs

theorem length_le_length_flatMap : xs.length ≤ (xs.flatMap encode).length := by
  induction xs with
  | nil => exact Nat.zero_le _
  | cons x xs ih =>
    have hhead := List.length_pos_of_ne_nil (hxs x (.head _)).nonempty
    have htail := ih fun y hy ↦ hxs y (List.mem_cons_of_mem x hy)
    rw [List.length_cons, List.flatMap_cons, List.length_append]
    omega

theorem decodeFrom_flatMap (pre tail : List β) (fuel : ℕ) :
    decodeFrom frameAt (pre ++ (xs.flatMap encode ++ tail)) (xs.length + fuel) pre.length =
      (decodeFrom frameAt (pre ++ (xs.flatMap encode ++ tail)) fuel
        (pre ++ xs.flatMap encode).length).map fun rest ↦ (xs ++ rest.1, rest.2) := by
  induction xs generalizing pre with
  | nil =>
    simp only [List.flatMap_nil, List.nil_append, List.append_nil, List.length_nil, Nat.zero_add]
    cases decodeFrom frameAt (pre ++ tail) fuel pre.length <;> rfl
  | cons x xs ih =>
    have hx := hxs x (.head _)
    have hbuf : pre ++ ((x :: xs).flatMap encode ++ tail) =
        pre ++ (encode x ++ (xs.flatMap encode ++ tail)) := by
      rw [List.flatMap_cons, List.append_assoc]
    have hpos := List.length_pos_of_ne_nil hx.nonempty
    have hlt : pre.length < (pre ++ (encode x ++ (xs.flatMap encode ++ tail))).length := by
      simp only [List.length_append]
      omega
    have hfuel : (x :: xs).length + fuel = (xs.length + fuel) + 1 := by
      rw [List.length_cons]
      omega
    have hrest := ih (fun y hy ↦ hxs y (List.mem_cons_of_mem x hy)) (pre ++ encode x)
    rw [List.append_assoc, List.length_append, List.append_assoc] at hrest
    rw [hbuf, hfuel, decodeFrom, if_pos hlt, hx.complete]
    dsimp only
    rw [hrest, List.flatMap_cons]
    cases decodeFrom frameAt (pre ++ (encode x ++ (xs.flatMap encode ++ tail))) fuel
      (pre ++ (encode x ++ xs.flatMap encode)).length <;> rfl

theorem decodeAll_flatMap (tail : List β) :
    ∃ fuel, decodeAll frameAt (xs.flatMap encode ++ tail) =
      (decodeFrom frameAt (xs.flatMap encode ++ tail) (fuel + 1)
        (xs.flatMap encode).length).map fun rest ↦ (xs ++ rest.1, rest.2) := by
  have hlen := length_le_length_flatMap hxs
  refine ⟨(xs.flatMap encode ++ tail).length - xs.length, ?_⟩
  have hfuel : (xs.flatMap encode ++ tail).length + 1 =
      xs.length + ((xs.flatMap encode ++ tail).length - xs.length + 1) := by
    rw [List.length_append]
    omega
  have h := decodeFrom_flatMap hxs [] tail
    ((xs.flatMap encode ++ tail).length - xs.length + 1)
  rw [List.nil_append, List.nil_append, List.length_nil, ← hfuel] at h
  exact h

theorem decodeAll_of_torn {tail : List β} (htail : tail = [] ∨
      frameAt (xs.flatMap encode ++ tail) (xs.flatMap encode).length = .ok none) :
    decodeAll frameAt (xs.flatMap encode ++ tail) = .ok (xs, (xs.flatMap encode).length) := by
  obtain ⟨fuel, hall⟩ := decodeAll_flatMap hxs tail
  have hstop : decodeFrom frameAt (xs.flatMap encode ++ tail) (fuel + 1)
      (xs.flatMap encode).length = .ok ([], (xs.flatMap encode).length) := by
    rw [decodeFrom]
    rcases htail with hnil | hnone
    · subst hnil
      rw [if_neg]
      simp
    · rw [hnone]
      split <;> rfl
  rw [hall, hstop]
  simp [Except.map]

theorem decodeAll_of_error {tail : List β} {err : ε} (htail : tail ≠ [])
    (herr : frameAt (xs.flatMap encode ++ tail) (xs.flatMap encode).length = .error err) :
    decodeAll frameAt (xs.flatMap encode ++ tail) = .error err := by
  obtain ⟨fuel, hall⟩ := decodeAll_flatMap hxs tail
  have hpos := List.length_pos_of_ne_nil htail
  rw [hall, decodeFrom, herr, if_pos]
  · rfl
  · rw [List.length_append]
    omega

end

end Decode

/-! ## Encoding -/

/-- A writer that appends frame by frame, and fails if one of them does not fit. -/
theorem encodeAll_eq_ok_iff {ε : Type} {encodeOne : α → Except ε (List β)}
    (encodeAll : List α → Except ε (List β)) {Fits : α → Prop} {encode : α → List β}
    (hnil : encodeAll [] = .ok [])
    (hcons : ∀ x xs, encodeAll (x :: xs) =
      encodeOne x >>= fun frame ↦ encodeAll xs >>= fun rest ↦ .ok (frame ++ rest))
    (hone : ∀ x frame, encodeOne x = .ok frame ↔ Fits x ∧ frame = encode x) {xs : List α}
    {bytes : List β} :
    encodeAll xs = .ok bytes ↔ (∀ x ∈ xs, Fits x) ∧ bytes = xs.flatMap encode := by
  induction xs generalizing bytes with
  | nil => simp [hnil, eq_comm]
  | cons x xs ih =>
    rw [hcons, List.forall_mem_cons, List.flatMap_cons]
    simp only [Fallible.bind_eq_ok_iff, hone, ih, Except.ok.injEq]
    constructor
    · rintro ⟨_, ⟨hx, rfl⟩, _, ⟨hxs, rfl⟩, rfl⟩
      exact ⟨⟨hx, hxs⟩, rfl⟩
    · rintro ⟨⟨hx, hxs⟩, rfl⟩
      exact ⟨_, ⟨hx, rfl⟩, _, ⟨hxs, rfl⟩, rfl⟩

/-! ## Cuts -/

section Cut

variable (encode : α → List β)

/-- The items whose frames lie within the first `n` elements of the log. -/
def complete : ℕ → List α → List α
  | _, [] => []
  | n, x :: xs =>
    if (encode x).length ≤ n then x :: complete (n - (encode x).length) xs else []

/-- The item whose frame is cut, with the length of what is left of it. -/
def torn : ℕ → List α → Option (α × ℕ)
  | _, [] => none
  | n, x :: xs =>
    if (encode x).length ≤ n then torn (n - (encode x).length) xs
    else if n = 0 then none else some (x, n)

def leftover (n : ℕ) (xs : List α) : List β :=
  match torn encode n xs with
  | none => []
  | some (x, r) => (encode x).take r

variable {encode} {xs : List α}

theorem take_flatMap (n : ℕ) (xs : List α) :
    (xs.flatMap encode).take n = (complete encode n xs).flatMap encode ++ leftover encode n xs := by
  induction xs generalizing n with
  | nil => simp [complete, leftover, torn]
  | cons x xs ih =>
    by_cases hx : (encode x).length ≤ n
    · have hleft : leftover encode n (x :: xs) = leftover encode (n - (encode x).length) xs := by
        simp [leftover, torn, hx]
      rw [List.flatMap_cons, List.take_append, List.take_of_length_le hx, ih, hleft]
      simp [complete, hx]
    · have hlt := Nat.lt_of_not_le hx
      rw [List.flatMap_cons, List.take_append_of_le_length (Nat.le_of_lt hlt)]
      simp only [complete, leftover, torn, hx, if_false, List.flatMap_nil, List.nil_append]
      by_cases hn : n = 0
      · simp [hn]
      · simp [hn]

theorem prefix_complete (n : ℕ) (xs : List α) : complete encode n xs <+: xs := by
  induction xs generalizing n with
  | nil => exact List.prefix_rfl
  | cons x xs ih =>
    rw [complete]
    split
    · exact List.cons_prefix_cons.mpr ⟨rfl, ih _⟩
    · exact List.nil_prefix

theorem complete_append (n : ℕ) (xs ys : List α) :
    complete encode n (xs ++ ys) =
      if (xs.flatMap encode).length ≤ n then
        xs ++ complete encode (n - (xs.flatMap encode).length) ys
      else complete encode n xs := by
  induction xs generalizing n with
  | nil => simp
  | cons x xs ih =>
    rw [List.cons_append, complete, complete, List.flatMap_cons, List.length_append]
    by_cases hx : (encode x).length ≤ n
    · rw [if_pos hx, if_pos hx, ih]
      by_cases hxs : (xs.flatMap encode).length ≤ n - (encode x).length
      · rw [if_pos hxs, if_pos (by omega), Nat.sub_sub, List.cons_append]
      · rw [if_neg hxs, if_neg (by omega)]
    · rw [if_neg hx, if_neg hx, if_neg (by omega)]

theorem complete_of_le {n : ℕ} (h : (xs.flatMap encode).length ≤ n) :
    complete encode n xs = xs := by
  induction xs generalizing n with
  | nil => rfl
  | cons x xs ih =>
    rw [List.flatMap_cons, List.length_append] at h
    rw [complete, if_pos (by omega), ih (by omega)]

theorem length_complete_lt {n : ℕ} (h : n < (xs.flatMap encode).length) :
    (complete encode n xs).length < xs.length := by
  induction xs generalizing n with
  | nil => simp at h
  | cons x xs ih =>
    rw [List.flatMap_cons, List.length_append] at h
    rw [complete]
    split
    · exact Nat.succ_lt_succ (ih (by omega))
    · exact Nat.succ_pos _

/-- A cut through groups of frames: the complete groups, then some frames of
the next group but not all of them. -/
theorem complete_flatMap {γ : Type*} (encode : α → List β) (f : γ → List α) (n : ℕ) (ys : List γ) :
    ∃ rest, complete encode n (ys.flatMap f) =
        (complete (fun y ↦ (f y).flatMap encode) n ys).flatMap f ++ rest ∧
      (rest = [] ∨ ∃ y ∈ ys, ∃ k < (f y).length, rest = (f y).take k) := by
  induction ys generalizing n with
  | nil => exact ⟨[], rfl, .inl rfl⟩
  | cons y ys ih =>
    rw [List.flatMap_cons, complete_append]
    by_cases hy : ((f y).flatMap encode).length ≤ n
    · obtain ⟨rest, heq, hrest⟩ := ih (n - ((f y).flatMap encode).length)
      refine ⟨rest, ?_, ?_⟩
      · rw [if_pos hy, heq, complete, if_pos hy, List.flatMap_cons, List.append_assoc]
      · refine hrest.imp_right ?_
        rintro ⟨z, hz, k, hk, hzk⟩
        exact ⟨z, List.mem_cons_of_mem y hz, k, hk, hzk⟩
    · refine ⟨complete encode n (f y), ?_, .inr ⟨y, .head _, _,
        length_complete_lt (Nat.lt_of_not_le hy), ?_⟩⟩
      · rw [if_neg hy, complete, if_neg hy]
        rfl
      · exact List.prefix_iff_eq_take.mp (prefix_complete n (f y))

theorem torn_eq_some {n r : ℕ} {x : α} (h : torn encode n xs = some (x, r)) :
    x ∈ xs ∧ 0 < r ∧ r < (encode x).length := by
  induction xs generalizing n with
  | nil => simp [torn] at h
  | cons y xs ih =>
    rw [torn] at h
    split at h
    · obtain ⟨hmem, hpos, hlt⟩ := ih h
      exact ⟨List.mem_cons_of_mem y hmem, hpos, hlt⟩
    · rename_i hlong
      split at h
      · cases h
      · cases h
        exact ⟨.head _, by omega, by omega⟩

end Cut

end FramedLog
