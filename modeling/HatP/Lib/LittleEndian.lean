import Mathlib

/-!
# Little-endian integers in byte strings

Fixed-width little-endian encoding and reads of such fields at an offset of a
longer byte string.
-/

namespace LittleEndian

def encode : ℕ → ℕ → List UInt8
  | 0, _ => []
  | width + 1, n => UInt8.ofNat n :: encode width (n / 256)

def decode : List UInt8 → ℕ
  | [] => 0
  | b :: bs => b.toNat + 256 * decode bs

@[simp] theorem length_encode (width n : ℕ) : (encode width n).length = width := by
  induction width generalizing n with
  | zero => rfl
  | succ width ih => simp [encode, ih]

variable {before : List UInt8}

theorem decode_encode {width n : ℕ} (h : n < 256 ^ width) : decode (encode width n) = n := by
  induction width generalizing n with
  | zero =>
    have hn : n = 0 := by simpa using h
    simp [encode, decode, hn]
  | succ width ih =>
    have hdiv : n / 256 < 256 ^ width := by
      rw [Nat.div_lt_iff_lt_mul (by norm_num)]
      rwa [pow_succ] at h
    rw [encode, decode, ih hdiv, UInt8.toNat_ofNat']
    exact Nat.mod_add_div n 256

theorem decode_lt (bytes : List UInt8) : decode bytes < 256 ^ bytes.length := by
  induction bytes with
  | nil => exact Nat.one_pos
  | cons b bytes ih =>
    have hb := b.toNat_lt
    rw [decode, List.length_cons, pow_succ]
    omega

theorem encode_decode (bytes : List UInt8) : encode bytes.length (decode bytes) = bytes := by
  induction bytes with
  | nil => rfl
  | cons b bytes ih =>
    have hb : b.toNat < 256 := b.toNat_lt
    have hlow : UInt8.ofNat (b.toNat + 256 * decode bytes) = b := by
      apply UInt8.toNat_inj.mp
      rw [UInt8.toNat_ofNat', Nat.add_mul_mod_self_left]
      exact Nat.mod_eq_of_lt hb
    rw [List.length_cons, decode, encode, hlow, Nat.add_mul_div_left _ _ (by norm_num),
      Nat.div_eq_of_lt hb, Nat.zero_add, ih]

theorem decode_inj {a b : List UInt8} (hlen : a.length = b.length) (h : decode a = decode b) :
    a = b := by
  rw [← encode_decode a, ← encode_decode b, hlen, h]

theorem UInt16.ofNat_decode_encode (v : UInt16) : UInt16.ofNat (decode (encode 2 v.toNat)) = v := by
  rw [decode_encode v.toNat_lt, UInt16.ofNat_toNat]

theorem UInt32.ofNat_decode_encode (v : UInt32) : UInt32.ofNat (decode (encode 4 v.toNat)) = v := by
  rw [decode_encode v.toNat_lt, UInt32.ofNat_toNat]

theorem UInt64.ofNat_decode_encode (v : UInt64) : UInt64.ofNat (decode (encode 8 v.toNat)) = v := by
  rw [decode_encode v.toNat_lt, UInt64.ofNat_toNat]

def slice (data : List UInt8) (offset len : ℕ) : List UInt8 :=
  (data.drop offset).take len

def readAt (width : ℕ) (data : List UInt8) (offset : ℕ) : ℕ :=
  decode (slice data offset width)

theorem slice_eq {data field after : List UInt8} {offset len : ℕ}
    (hdata : data = before ++ (field ++ after)) (hoffset : offset = before.length)
    (hlen : len = field.length) : slice data offset len = field := by
  subst hdata hoffset hlen
  simp [slice]

theorem readAt_eq {width n offset : ℕ} {data after : List UInt8}
    (hdata : data = before ++ (encode width n ++ after)) (hoffset : offset = before.length)
    (h : n < 256 ^ width) : readAt width data offset = n := by
  rw [readAt, slice_eq hdata hoffset (length_encode width n).symm, decode_encode h]

/-! ## Reads of a byte string with one byte changed -/

section Modify

variable {data : List UInt8} {offset len pos : ℕ} {f : UInt8 → UInt8}

theorem getElem?_slice (data : List UInt8) (offset len i : ℕ) :
    (slice data offset len)[i]? = if i < len then data[offset + i]? else none := by
  rw [slice, List.getElem?_take, List.getElem?_drop]

theorem slice_modify_of_disjoint (h : pos < offset ∨ offset + len ≤ pos) :
    slice (data.modify pos f) offset len = slice data offset len := by
  apply List.ext_getElem?
  intro i
  rw [getElem?_slice, getElem?_slice]
  split
  · have hne : pos ≠ offset + i := by omega
    simp only [List.getElem?_modify, hne, if_false]
    exact id_map _
  · rfl

theorem slice_modify_of_le (hle : offset ≤ pos) :
    slice (data.modify pos f) offset len = (slice data offset len).modify (pos - offset) f := by
  apply List.ext_getElem?
  intro i
  rw [List.getElem?_modify, getElem?_slice, getElem?_slice]
  have hiff : pos = offset + i ↔ pos - offset = i := by omega
  split
  · simp only [List.getElem?_modify, hiff]
  · rfl

end Modify

end LittleEndian
