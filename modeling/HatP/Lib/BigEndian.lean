import HatP.Lib.ByteOrder

/-!
# Encodings that keep the order

Big-endian integers of one width compare like the integers, and a comparison of
concatenations looks at the tails only when the heads agree.  A variable-length
part keeps this property in front of tails that are empty or begin with a zero
byte.
-/

namespace BigEndian

def encode : ℕ → ℕ → List UInt8
  | 0, _ => []
  | width + 1, n => UInt8.ofNat (n / 256 ^ width) :: encode width n

@[simp] theorem length_encode (width n : ℕ) : (encode width n).length = width := by
  induction width with
  | zero => rfl
  | succ width ih => rw [encode, List.length_cons, ih]

variable {m : ℕ}

theorem drop_encode (skipped width n : ℕ) :
    (encode (skipped + width) n).drop skipped = encode width n := by
  induction skipped with
  | zero => rw [Nat.zero_add, List.drop_zero]
  | succ skipped ih => rw [Nat.succ_add, encode, List.drop_succ_cons, ih]

theorem encode_mod (width n : ℕ) : encode width (n % 256 ^ width) = encode width n := by
  suffices h : ∀ k, width ≤ k → encode width (n % 256 ^ k) = encode width n from h width le_rfl
  induction width with
  | zero => exact fun _ _ ↦ rfl
  | succ width ih =>
    intro k hk
    obtain ⟨j, rfl⟩ := Nat.exists_eq_add_of_le hk
    rw [encode, encode, ih _ (by omega)]
    have hsplit : 256 ^ (width + 1 + j) = 256 ^ width * (256 * 256 ^ j) := by ring
    rw [hsplit, Nat.mod_mul_right_div_self]
    congr 1
    rw [← UInt8.toNat_inj, UInt8.toNat_ofNat', UInt8.toNat_ofNat']
    exact Nat.mod_mul_right_mod _ 256 _

/-! ## Comparison -/

section Compare

variable {xs ys : List UInt8}

theorem compare_cons (x y : UInt8) (xs ys : List UInt8) :
    compare (x :: xs) (y :: ys) = (compare x y).then (compare xs ys) :=
  List.compareLex_cons_cons

theorem compare_cons_lt {x y : UInt8} (h : x < y) (xs ys : List UInt8) :
    compare (x :: xs) (y :: ys) = .lt := by
  rw [compare_cons, compare_lt_iff_lt.mpr h]
  rfl

theorem compare_append (h : xs.length = ys.length) (r s : List UInt8) :
    compare (xs ++ r) (ys ++ s) = (compare xs ys).then (compare r s) := by
  induction xs generalizing ys with
  | nil =>
    obtain rfl : ys = [] := List.length_eq_zero_iff.mp h.symm
    rfl
  | cons x xs ih =>
    cases ys with
    | nil => cases h
    | cons y ys =>
      rw [List.cons_append, List.cons_append, compare_cons, compare_cons,
        ih (Nat.succ.inj h), Ordering.then_assoc]

theorem compare_append_left (xs r s : List UInt8) : compare (xs ++ r) (xs ++ s) = compare r s := by
  have hself : compare xs xs = .eq := Std.ReflCmp.compare_self
  rw [compare_append rfl, hself]
  rfl

end Compare

theorem compare_ofNat {n : ℕ} (hm : m < 256) (hn : n < 256) :
    compare (UInt8.ofNat m) (UInt8.ofNat n) = compare m n := by
  have hlt : ∀ {a b : ℕ}, a < 256 → b < 256 → (UInt8.ofNat a < UInt8.ofNat b ↔ a < b) := by
    intro a b ha hb
    rw [UInt8.lt_iff_toNat_lt, UInt8.toNat_ofNat', UInt8.toNat_ofNat', Nat.mod_eq_of_lt ha,
      Nat.mod_eq_of_lt hb]
  rcases lt_trichotomy m n with h | rfl | h
  · rw [compare_lt_iff_lt.mpr h, compare_lt_iff_lt.mpr ((hlt hm hn).mpr h)]
  · rw [compare_eq_iff_eq.mpr rfl, compare_eq_iff_eq.mpr rfl]
  · rw [compare_gt_iff_gt.mpr h, compare_gt_iff_gt.mpr ((hlt hn hm).mpr h)]

theorem compare_div_mod (b m n : ℕ) (hb : 0 < b) :
    compare m n = (compare (m / b) (n / b)).then (compare (m % b) (n % b)) := by
  have hm := Nat.div_add_mod m b
  have hn := Nat.div_add_mod n b
  have hmb := Nat.mod_lt m hb
  have hnb := Nat.mod_lt n hb
  rcases lt_trichotomy (m / b) (n / b) with h | h | h
  · have hle := Nat.mul_le_mul_left b h
    rw [Nat.mul_succ] at hle
    rw [compare_lt_iff_lt.mpr h, compare_lt_iff_lt.mpr (by omega : m < n)]
    rfl
  · rw [compare_eq_iff_eq.mpr h, Ordering.eq_then]
    rw [h] at hm
    rcases lt_trichotomy (m % b) (n % b) with h' | h' | h'
    · rw [compare_lt_iff_lt.mpr h', compare_lt_iff_lt.mpr (by omega : m < n)]
    · rw [compare_eq_iff_eq.mpr h', compare_eq_iff_eq.mpr (by omega : m = n)]
    · rw [compare_gt_iff_gt.mpr h', compare_gt_iff_gt.mpr (by omega : n < m)]
  · have hle := Nat.mul_le_mul_left b h
    rw [Nat.mul_succ] at hle
    rw [compare_gt_iff_gt.mpr h, compare_gt_iff_gt.mpr (by omega : n < m)]
    rfl

theorem compare_encode {width n : ℕ} (hm : m < 256 ^ width) (hn : n < 256 ^ width) :
    compare (encode width m) (encode width n) = compare m n := by
  induction width generalizing m n with
  | zero =>
    obtain rfl : m = 0 := by simpa using hm
    obtain rfl : n = 0 := by simpa using hn
    rfl
  | succ width ih =>
    have hpos : 0 < 256 ^ width := Nat.pow_pos (by norm_num)
    have hdigit : ∀ {k : ℕ}, k < 256 ^ (width + 1) → k / 256 ^ width < 256 := by
      intro k hk
      rwa [Nat.div_lt_iff_lt_mul hpos, ← pow_succ']
    rw [encode, encode, compare_cons, compare_ofNat (hdigit hm) (hdigit hn), ← encode_mod,
      ← encode_mod width n, ih (Nat.mod_lt m hpos) (Nat.mod_lt n hpos),
      ← compare_div_mod _ m n hpos]

/-! ## The sign bit -/

theorem xor_two_pow {k : ℕ} (h : m < 2 ^ (k + 1)) :
    m ^^^ 2 ^ k = if m < 2 ^ k then m + 2 ^ k else m - 2 ^ k := by
  have hpos : 0 < 2 ^ k := Nat.two_pow_pos k
  have hdiv : (m ^^^ 2 ^ k) / 2 ^ k = m / 2 ^ k ^^^ 1 := by
    rw [Nat.xor_div_two_pow, Nat.div_self hpos]
  have hmod : (m ^^^ 2 ^ k) % 2 ^ k = m % 2 ^ k := by
    rw [Nat.xor_mod_two_pow, Nat.mod_self, Nat.xor_zero]
  have hsplit := Nat.div_add_mod (m ^^^ 2 ^ k) (2 ^ k)
  have hm := Nat.div_add_mod m (2 ^ k)
  rw [hdiv, hmod] at hsplit
  split_ifs with hlow
  · rw [Nat.div_eq_of_lt hlow, Nat.mod_eq_of_lt hlow, Nat.zero_xor] at hsplit
    omega
  · have hone : m / 2 ^ k = 1 := by
      rw [Nat.div_eq_iff hpos]
      rw [pow_succ] at h
      omega
    rw [hone, Nat.xor_self] at hsplit
    rw [hone] at hm
    omega

theorem and_two_pow_ne_zero_iff {k : ℕ} (h : m < 2 ^ (k + 1)) : m &&& 2 ^ k ≠ 0 ↔ 2 ^ k ≤ m := by
  have hpos : 0 < 2 ^ k := Nat.two_pow_pos k
  rw [pow_succ] at h
  rw [Nat.and_two_pow, Nat.testBit_eq_decide_div_mod_eq]
  by_cases hlow : m < 2 ^ k
  · simp [Nat.div_eq_of_lt hlow, hlow]
  · have hone : m / 2 ^ k = 1 := by
      rw [Nat.div_eq_iff hpos]
      omega
    simp [hone, not_lt.mp hlow]

/-! ## Parts in front of a separator -/

def Separated (rest : List UInt8) : Prop := rest = [] ∨ ∃ tail, rest = 0 :: tail

/-- In front of separated tails the encoding decides like `cmp`, and hands over
to the tails when `cmp` does not decide. -/
def KeepsOrder {α : Type*} (enc : α → List UInt8) (cmp : α → α → Ordering) : Prop :=
  ∀ a b r s, Separated r → Separated s →
    compare (enc a ++ r) (enc b ++ s) = (cmp a b).then (compare r s)

theorem keepsOrder_encode {α : Type*} {width : ℕ} {key : α → ℕ} {cmp : α → α → Ordering}
    (hkey : ∀ a, key a < 256 ^ width) (hcmp : ∀ a b, compare (key a) (key b) = cmp a b) :
    KeepsOrder (fun a ↦ encode width (key a)) cmp := by
  intro a b r s _ _
  have hlen : (encode width (key a)).length = (encode width (key b)).length := by
    rw [length_encode, length_encode]
  rw [compare_append hlen, compare_encode (hkey a) (hkey b), hcmp]

end BigEndian
