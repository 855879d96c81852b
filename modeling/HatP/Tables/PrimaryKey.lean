import HatP.Lib.BigEndian
import HatP.Rows.Scalar
import HatP.Tables.Store

/-!
# Primary keys

A row is stored under its table name and the encoded values of its primary-key
columns, each behind a zero byte.  Fixed-width parts may contain zero bytes and
strings are escaped, so that the keys of one table compare like the tuples of
values they were made from.
-/

namespace HatP

open BigEndian

/-! ## The encoding -/

def signFlipBe (v : Int64) (width : ℕ) : Bytes :=
  let flipped := v.toUInt64 ^^^ (1 <<< UInt64.ofNat (width * 8 - 1))
  (encode 8 flipped.toNat).drop (8 - width)

def floatTotalOrderF64 (bits : UInt64) : Bytes :=
  let sign := (1 : UInt64) <<< 63
  let ordered := if bits &&& sign ≠ 0 then ~~~bits else bits ^^^ sign
  encode 8 ordered.toNat

def floatTotalOrderF32 (bits : UInt32) : Bytes :=
  let sign := (1 : UInt32) <<< 31
  let ordered := if bits &&& sign ≠ 0 then ~~~bits else bits ^^^ sign
  encode 4 ordered.toNat

def escapeBytes : Bytes → Bytes
  | [] => [0]
  | byte :: bytes => if byte = 0 then 0 :: 255 :: escapeBytes bytes else byte :: escapeBytes bytes

/-- `none` for a missing value and for the types that cannot be in a key. -/
def encodePkValue : ScalarValue → Option Bytes
  | .int8 (some v) => some (signFlipBe v.toInt64 1)
  | .int16 (some v) => some (signFlipBe v.toInt64 2)
  | .int32 (some v) => some (signFlipBe v.toInt64 4)
  | .int64 (some v) => some (signFlipBe v 8)
  | .uint8 (some v) => some (encode 1 v.toNat)
  | .uint16 (some v) => some (encode 2 v.toNat)
  | .uint32 (some v) => some (encode 4 v.toNat)
  | .uint64 (some v) => some (encode 8 v.toNat)
  | .float32 (some bits) => some (floatTotalOrderF32 bits)
  | .float64 (some bits) => some (floatTotalOrderF64 bits)
  | .boolean (some v) => some [if v then 1 else 0]
  | .utf8 (some s) => some (escapeBytes s)
  | .largeUtf8 (some s) => some (escapeBytes s)
  | .date32 (some v) => some (signFlipBe v.toInt64 4)
  | .date64 (some v) => some (signFlipBe v 8)
  | .timestamp _ (some v) _ => some (signFlipBe v 8)
  | _ => none

structure NullPrimaryKey where
  table : Bytes
  column : String
deriving DecidableEq

def pkPart (table : Bytes) (column : String × ScalarValue) : Except NullPrimaryKey Bytes :=
  match encodePkValue column.2 with
  | some bytes => .ok bytes
  | none => .error ⟨table, column.1⟩

/-! ## The types of key columns -/

inductive PkType
  | int8
  | int16
  | int32
  | int64
  | uint8
  | uint16
  | uint32
  | uint64
  | float32
  | float64
  | boolean
  | utf8
  | largeUtf8
  | date32
  | date64
  | timestamp (unit : TimeUnit) (tz : Option String)

/-- The order of the reals on the numbers, with the two zeros apart and the
not-a-numbers at both ends: magnitudes ascend when the sign bit is clear and
descend when it is set. -/
def floatOrder (signBit bits : ℕ) : ℤ :=
  if bits < 2 ^ signBit then bits else 2 ^ signBit - 1 - bits

namespace PkType

def Value : PkType → Type
  | int8 => Int8
  | int16 => Int16
  | int32 | date32 => Int32
  | int64 | date64 | timestamp _ _ => Int64
  | uint8 => UInt8
  | uint16 => UInt16
  | uint32 | float32 => UInt32
  | uint64 | float64 => UInt64
  | boolean => Bool
  | utf8 | largeUtf8 => Bytes

def scalar : (ty : PkType) → ty.Value → ScalarValue
  | int8, v => .int8 (some v)
  | int16, v => .int16 (some v)
  | int32, v => .int32 (some v)
  | int64, v => .int64 (some v)
  | uint8, v => .uint8 (some v)
  | uint16, v => .uint16 (some v)
  | uint32, v => .uint32 (some v)
  | uint64, v => .uint64 (some v)
  | float32, bits => .float32 (some bits)
  | float64, bits => .float64 (some bits)
  | boolean, v => .boolean (some v)
  | utf8, s => .utf8 (some s)
  | largeUtf8, s => .largeUtf8 (some s)
  | date32, v => .date32 (some v)
  | date64, v => .date64 (some v)
  | timestamp unit tz, v => .timestamp unit (some v) tz

def cmp : (ty : PkType) → ty.Value → ty.Value → Ordering
  | int8, a, b => compare (Int8.toInt a) (Int8.toInt b)
  | int16, a, b => compare (Int16.toInt a) (Int16.toInt b)
  | int32, a, b | date32, a, b => compare (Int32.toInt a) (Int32.toInt b)
  | int64, a, b | date64, a, b | timestamp _ _, a, b => compare (Int64.toInt a) (Int64.toInt b)
  | uint8, a, b => compare (UInt8.toNat a) (UInt8.toNat b)
  | uint16, a, b => compare (UInt16.toNat a) (UInt16.toNat b)
  | uint32, a, b => compare (UInt32.toNat a) (UInt32.toNat b)
  | uint64, a, b => compare (UInt64.toNat a) (UInt64.toNat b)
  | float32, a, b => compare (floatOrder 31 (UInt32.toNat a)) (floatOrder 31 (UInt32.toNat b))
  | float64, a, b => compare (floatOrder 63 (UInt64.toNat a)) (floatOrder 63 (UInt64.toNat b))
  | boolean, a, b => compare (Bool.toNat a) (Bool.toNat b)
  | utf8, a, b | largeUtf8, a, b => (compare : Bytes → Bytes → Ordering) a b

def encoded (ty : PkType) (v : ty.Value) : Bytes := (encodePkValue (ty.scalar v)).getD []

theorem encodePkValue_scalar (ty : PkType) (v : ty.Value) :
    encodePkValue (ty.scalar v) = some (ty.encoded v) := by
  cases ty <;> rfl

end PkType

/-! ## Each type keeps its order -/

variable {k width signBit : ℕ}

theorem toNat_mod_eq (v : Int64) (hk : k ≤ 64) :
    ((v.toUInt64.toNat % 2 ^ k : ℕ) : ℤ) = v.toInt % 2 ^ k := by
  have hwhole : v.toInt % (2 ^ 64 : ℕ) = v.toUInt64.toNat % (2 ^ 64 : ℕ) := by
    rw [← Int64.toInt_toBitVec, BitVec.toInt_eq_toNat_bmod, Int.bmod_emod]
    rfl
  have hdvd : (2 ^ k : ℤ) ∣ (2 ^ 64 : ℕ) := by
    rw [Nat.cast_pow, Nat.cast_ofNat]
    exact pow_dvd_pow 2 hk
  have hpart := congrArg (· % (2 ^ k : ℤ)) hwhole
  simp only [Int.emod_emod_of_dvd _ hdvd] at hpart
  rw [hpart]
  norm_num

theorem xor_mod_eq {v : Int64} (hk : k < 64) (hlow : -2 ^ k ≤ v.toInt) (hhigh : v.toInt < 2 ^ k) :
    (v.toUInt64.toNat ^^^ 2 ^ k) % 2 ^ (k + 1) = (v.toInt + 2 ^ k).toNat := by
  have hpos : 0 < 2 ^ (k + 1) := Nat.two_pow_pos _
  have hmod := toNat_mod_eq v (by omega : k + 1 ≤ 64)
  have hhalf : 2 ^ k % 2 ^ (k + 1) = 2 ^ k :=
    Nat.mod_eq_of_lt (Nat.pow_lt_pow_right (by omega) (by omega))
  rw [Nat.xor_mod_two_pow, hhalf, xor_two_pow (Nat.mod_lt _ hpos)]
  generalize v.toUInt64.toNat % 2 ^ (k + 1) = m at hmod ⊢
  have hdouble : (2 ^ (k + 1) : ℤ) = 2 * 2 ^ k := pow_succ' 2 k
  have hcast : ((2 ^ k : ℕ) : ℤ) = 2 ^ k := by push_cast; rfl
  by_cases hneg : v.toInt < 0
  · have hshift : v.toInt % 2 ^ (k + 1) = v.toInt + 2 ^ (k + 1) := by
      rw [← Int.add_emod_right, Int.emod_eq_of_lt (by omega) (by omega)]
    rw [if_neg (by omega)]
    omega
  · rw [Int.emod_eq_of_lt (by omega) (by omega)] at hmod
    rw [if_pos (by omega)]
    omega

theorem signFlipBe_eq {v : Int64} (hpos : 1 ≤ width) (hwidth : width ≤ 8)
    (hlow : -2 ^ (width * 8 - 1) ≤ v.toInt) (hhigh : v.toInt < 2 ^ (width * 8 - 1)) :
    signFlipBe v width = encode width (v.toInt + 2 ^ (width * 8 - 1)).toNat := by
  obtain ⟨k, hk⟩ : ∃ k, width * 8 - 1 = k := ⟨_, rfl⟩
  have hsize : 256 ^ width = 2 ^ (k + 1) := by
    rw [← hk, Nat.sub_add_cancel (by omega), Nat.mul_comm, pow_mul]
    norm_num
  have hshift : ((1 : UInt64) <<< UInt64.ofNat k).toNat = 2 ^ k := by
    have hlt : 2 ^ k < 2 ^ 64 := Nat.pow_lt_pow_right (by omega) (by omega)
    rw [UInt64.toNat_shiftLeft, UInt64.toNat_ofNat', Nat.mod_eq_of_lt (by omega : k < 2 ^ 64),
      Nat.mod_eq_of_lt (by omega : k < 64), UInt64.toNat_one, Nat.one_shiftLeft,
      Nat.mod_eq_of_lt hlt]
  have hdrop (n : ℕ) : (encode 8 n).drop (8 - width) = encode width n := by
    have h := drop_encode (8 - width) width n
    rwa [Nat.sub_add_cancel hwidth] at h
  rw [hk] at hlow hhigh ⊢
  rw [signFlipBe, hk, hdrop, UInt64.toNat_xor, hshift, ← encode_mod, hsize,
    xor_mod_eq (by omega) hlow hhigh]

theorem compare_toNat_add {a b c : ℤ} (ha : 0 ≤ a + c) (hb : 0 ≤ b + c) :
    compare (a + c).toNat (b + c).toNat = compare a b := by
  rcases lt_trichotomy a b with h | rfl | h
  · rw [compare_lt_iff_lt.mpr h, compare_lt_iff_lt.mpr (by omega)]
  · rw [compare_eq_iff_eq.mpr rfl, compare_eq_iff_eq.mpr rfl]
  · rw [compare_gt_iff_gt.mpr h, compare_gt_iff_gt.mpr (by omega)]

theorem keepsOrder_offset {α : Type} {key : α → ℤ} (hsize : 256 ^ width = 2 ^ (k + 1))
    (hkey : ∀ a, -2 ^ k ≤ key a ∧ key a < 2 ^ k) :
    KeepsOrder (fun a ↦ encode width (key a + 2 ^ k).toNat) fun a b ↦ compare (key a) (key b) := by
  apply keepsOrder_encode
  · intro a
    have hbounds := hkey a
    have hcast : ((2 ^ k : ℕ) : ℤ) = 2 ^ k := by push_cast; rfl
    rw [hsize, pow_succ]
    omega
  · intro a b
    have ha := (hkey a).1
    have hb := (hkey b).1
    exact compare_toNat_add (by omega) (by omega)

theorem keepsOrder_signFlip {α : Type} {toInt64 : α → Int64} {toInt : α → ℤ}
    (hpos : 1 ≤ width) (hwidth : width ≤ 8) (htoInt : ∀ a, (toInt64 a).toInt = toInt a)
    (hlow : ∀ a, -2 ^ (width * 8 - 1) ≤ toInt a) (hhigh : ∀ a, toInt a < 2 ^ (width * 8 - 1)) :
    KeepsOrder (fun a ↦ signFlipBe (toInt64 a) width) fun a b ↦ compare (toInt a) (toInt b) := by
  have henc : (fun a ↦ signFlipBe (toInt64 a) width) =
      fun a ↦ encode width (toInt a + 2 ^ (width * 8 - 1)).toNat := by
    funext a
    rw [signFlipBe_eq hpos hwidth (htoInt a ▸ hlow a) (htoInt a ▸ hhigh a), htoInt]
  have hsize : 256 ^ width = 2 ^ (width * 8 - 1 + 1) := by
    rw [Nat.sub_add_cancel (by omega), Nat.mul_comm, pow_mul]
    norm_num
  rw [henc]
  exact keepsOrder_offset hsize fun a ↦ ⟨hlow a, hhigh a⟩

theorem escapeBytes_cons {byte : UInt8} (h : byte ≠ 0) (bytes : Bytes) :
    escapeBytes (byte :: bytes) = byte :: escapeBytes bytes :=
  if_neg h

/-- A string that ends first meets a terminator: either the other one has a
byte above zero there, or an escaped zero, which puts 255 against the separator. -/
theorem compare_terminator (y : UInt8) (b : Bytes) {r s : Bytes} (hr : Separated r) :
    compare (0 :: r) (escapeBytes (y :: b) ++ s) = .lt := by
  by_cases hy : y = 0
  · rw [escapeBytes, if_pos hy]
    rcases hr with rfl | ⟨tail, rfl⟩
    · rfl
    · rfl
  · rw [escapeBytes_cons hy]
    exact compare_cons_lt (UInt8.pos_iff_ne_zero.mpr hy) _ _

theorem keepsOrder_escapeBytes : KeepsOrder escapeBytes (compare : Bytes → Bytes → Ordering) := by
  intro a b r s hr hs
  induction a generalizing b with
  | nil =>
    cases b with
    | nil => exact compare_cons 0 0 r s
    | cons y b => exact compare_terminator y b hr
  | cons x a ih =>
    cases b with
    | nil =>
      have hswap : compare (0 :: s) (escapeBytes (x :: a) ++ r) = .lt :=
        compare_terminator x a hs
      exact Std.OrientedCmp.gt_of_lt hswap
    | cons y b =>
      rw [compare_cons]
      by_cases hx : x = 0 <;> by_cases hy : y = 0
      · rw [escapeBytes, escapeBytes, if_pos hx, if_pos hy, hx, hy]
        exact ih b
      · rw [escapeBytes, if_pos hx, escapeBytes_cons hy, hx,
          compare_lt_iff_lt.mpr (UInt8.pos_iff_ne_zero.mpr hy)]
        exact compare_cons_lt (UInt8.pos_iff_ne_zero.mpr hy) _ _
      · rw [escapeBytes_cons hx, escapeBytes, if_pos hy, hy,
          compare_gt_iff_gt.mpr (UInt8.pos_iff_ne_zero.mpr hx)]
        exact Std.OrientedCmp.gt_of_lt
          (compare_cons_lt (UInt8.pos_iff_ne_zero.mpr hx) _ _)
      · rw [escapeBytes_cons hx, escapeBytes_cons hy, List.cons_append, List.cons_append,
          compare_cons, ih b, Ordering.then_assoc]

/-- Inverting the numbers with a sign bit and setting it in the others turns a
float into its offset from the least one. -/
theorem floatOrder_offset {bits : ℕ} (h : bits < 2 ^ (signBit + 1)) :
    (floatOrder signBit bits + 2 ^ signBit).toNat =
      if 2 ^ signBit ≤ bits then 2 ^ (signBit + 1) - 1 - bits else bits ^^^ 2 ^ signBit := by
  have hcast : ((2 ^ signBit : ℕ) : ℤ) = 2 ^ signBit := by push_cast; rfl
  rw [xor_two_pow h]
  rw [pow_succ] at h ⊢
  unfold floatOrder
  by_cases hset : 2 ^ signBit ≤ bits
  · rw [if_neg (by omega), if_pos hset]
    omega
  · rw [if_pos (by omega), if_neg hset, if_pos (by omega)]
    omega

theorem floatTotalOrderF64_eq (bits : UInt64) :
    floatTotalOrderF64 bits = encode 8 (floatOrder 63 bits.toNat + 2 ^ 63).toNat := by
  have hbits : bits.toNat < 2 ^ (63 + 1) := bits.toNat_lt
  have hset : bits &&& (1 : UInt64) <<< 63 ≠ 0 ↔ 2 ^ 63 ≤ bits.toNat := by
    rw [← and_two_pow_ne_zero_iff hbits, Ne, ← UInt64.toNat_inj, UInt64.toNat_and]
    rfl
  rw [floatTotalOrderF64, floatOrder_offset hbits]
  by_cases h : 2 ^ 63 ≤ bits.toNat
  · rw [if_pos (hset.mpr h), if_pos h, UInt64.toNat_not]
    rfl
  · rw [if_neg (fun hne ↦ h (hset.mp hne)), if_neg h, UInt64.toNat_xor]
    rfl

theorem floatTotalOrderF32_eq (bits : UInt32) :
    floatTotalOrderF32 bits = encode 4 (floatOrder 31 bits.toNat + 2 ^ 31).toNat := by
  have hbits : bits.toNat < 2 ^ (31 + 1) := bits.toNat_lt
  have hset : bits &&& (1 : UInt32) <<< 31 ≠ 0 ↔ 2 ^ 31 ≤ bits.toNat := by
    rw [← and_two_pow_ne_zero_iff hbits, Ne, ← UInt32.toNat_inj, UInt32.toNat_and]
    rfl
  rw [floatTotalOrderF32, floatOrder_offset hbits]
  by_cases h : 2 ^ 31 ≤ bits.toNat
  · rw [if_pos (hset.mpr h), if_pos h, UInt32.toNat_not]
    rfl
  · rw [if_neg (fun hne ↦ h (hset.mp hne)), if_neg h, UInt32.toNat_xor]
    rfl

theorem floatOrder_bounds {bits : ℕ} (h : bits < 2 ^ (signBit + 1)) :
    -2 ^ signBit ≤ floatOrder signBit bits ∧ floatOrder signBit bits < 2 ^ signBit := by
  have hcast : ((2 ^ signBit : ℕ) : ℤ) = 2 ^ signBit := by push_cast; rfl
  rw [pow_succ] at h
  unfold floatOrder
  split_ifs
  · omega
  · omega

theorem PkType.keepsOrder (ty : PkType) : KeepsOrder ty.encoded ty.cmp := by
  have hint32 : KeepsOrder (fun v : Int32 ↦ signFlipBe v.toInt64 4)
      fun a b ↦ compare a.toInt b.toInt :=
    keepsOrder_signFlip (by omega) (by omega) Int32.toInt_toInt64 Int32.le_toInt Int32.toInt_lt
  have hint64 : KeepsOrder (fun v : Int64 ↦ signFlipBe v 8)
      fun a b ↦ compare a.toInt b.toInt :=
    keepsOrder_signFlip (by omega) (by omega) (fun _ ↦ rfl) Int64.le_toInt Int64.toInt_lt
  cases ty with
  | int8 =>
    exact keepsOrder_signFlip (by omega) (by omega) Int8.toInt_toInt64 Int8.le_toInt
      Int8.toInt_lt
  | int16 =>
    exact keepsOrder_signFlip (by omega) (by omega) Int16.toInt_toInt64 Int16.le_toInt
      Int16.toInt_lt
  | int32 | date32 => exact hint32
  | int64 | date64 | timestamp unit tz => exact hint64
  | uint8 => exact keepsOrder_encode UInt8.toNat_lt fun _ _ ↦ rfl
  | uint16 => exact keepsOrder_encode UInt16.toNat_lt fun _ _ ↦ rfl
  | uint32 => exact keepsOrder_encode UInt32.toNat_lt fun _ _ ↦ rfl
  | uint64 => exact keepsOrder_encode UInt64.toNat_lt fun _ _ ↦ rfl
  | float32 =>
    change KeepsOrder floatTotalOrderF32 _
    rw [funext floatTotalOrderF32_eq]
    exact keepsOrder_offset (by norm_num) fun bits ↦ floatOrder_bounds bits.toNat_lt
  | float64 =>
    change KeepsOrder floatTotalOrderF64 _
    rw [funext floatTotalOrderF64_eq]
    exact keepsOrder_offset (by norm_num) fun bits ↦ floatOrder_bounds bits.toNat_lt
  | boolean =>
    intro a b r s _ _
    cases a <;> cases b <;> rfl
  | utf8 | largeUtf8 => exact keepsOrder_escapeBytes

/-! ## Tuples -/

/-- The values of the primary-key columns of one row. -/
inductive PkTuple : List PkType → Type
  | nil : PkTuple []
  | cons {ty : PkType} {types : List PkType} (v : ty.Value) (rest : PkTuple types) :
      PkTuple (ty :: types)

namespace PkTuple

def scalars : {types : List PkType} → PkTuple types → List ScalarValue
  | _, nil => []
  | ty :: _, cons v rest => ty.scalar v :: rest.scalars

def parts : {types : List PkType} → PkTuple types → List Bytes
  | _, nil => []
  | ty :: _, cons v rest => ty.encoded v :: rest.parts

/-- Column by column, from the first. -/
def cmp : {types : List PkType} → PkTuple types → PkTuple types → Ordering
  | _, nil, nil => .eq
  | ty :: _, cons a first, cons b second => (ty.cmp a b).then (first.cmp second)

theorem mapM_scalars {types : List PkType} (t : PkTuple types) :
    t.scalars.mapM encodePkValue = some t.parts := by
  induction t with
  | nil => rfl
  | cons v rest ih => simp [scalars, parts, PkType.encodePkValue_scalar, ih]

end PkTuple

theorem floatOrder_injective {a b : ℕ} (h : floatOrder signBit a = floatOrder signBit b) :
    a = b := by
  have hcast : ((2 ^ signBit : ℕ) : ℤ) = 2 ^ signBit := by push_cast; rfl
  unfold floatOrder at h
  split_ifs at h <;> omega

theorem PkType.eq_of_cmp {ty : PkType} {a b : ty.Value} (h : ty.cmp a b = .eq) : a = b := by
  have hbytes : ∀ {s t : Bytes}, compare s t = .eq → s = t := Std.LawfulEqCmp.eq_of_compare
  cases ty with
  | int8 => exact Int8.toInt_inj.mp (compare_eq_iff_eq.mp h)
  | int16 => exact Int16.toInt_inj.mp (compare_eq_iff_eq.mp h)
  | int32 | date32 => exact Int32.toInt_inj.mp (compare_eq_iff_eq.mp h)
  | int64 | date64 | timestamp unit tz => exact Int64.toInt_inj.mp (compare_eq_iff_eq.mp h)
  | uint8 => exact UInt8.toNat_inj.mp (compare_eq_iff_eq.mp h)
  | uint16 => exact UInt16.toNat_inj.mp (compare_eq_iff_eq.mp h)
  | uint32 => exact UInt32.toNat_inj.mp (compare_eq_iff_eq.mp h)
  | uint64 => exact UInt64.toNat_inj.mp (compare_eq_iff_eq.mp h)
  | float32 => exact UInt32.toNat_inj.mp (floatOrder_injective (compare_eq_iff_eq.mp h))
  | float64 => exact UInt64.toNat_inj.mp (floatOrder_injective (compare_eq_iff_eq.mp h))
  | boolean =>
    cases a <;> cases b
    · rfl
    · cases h
    · cases h
    · rfl
  | utf8 | largeUtf8 => exact hbytes h

namespace PkTuple

variable {types : List PkType}

theorem separated_parts (t : PkTuple types) : Separated (t.parts.flatMap (0 :: ·)) := by
  cases t with
  | nil => exact .inl rfl
  | cons v rest => exact .inr ⟨_, rfl⟩

theorem eq_of_cmp {t u : PkTuple types} (h : t.cmp u = .eq) : t = u := by
  induction t with
  | nil =>
    cases u
    rfl
  | cons a rest ih =>
    cases u with
    | cons b rest' =>
      obtain ⟨hfirst, hrest⟩ := Ordering.then_eq_eq.mp h
      rw [PkType.eq_of_cmp hfirst, ih hrest]

theorem compare_parts (t u : PkTuple types) :
    compare (t.parts.flatMap (0 :: ·)) (u.parts.flatMap (0 :: ·)) = t.cmp u := by
  induction t with
  | nil =>
    cases u
    rfl
  | @cons ty types a rest ih =>
    cases u with
    | cons b rest' =>
      have hpart := ty.keepsOrder a b _ _ rest.separated_parts rest'.separated_parts
      rw [ih] at hpart
      exact hpart

end PkTuple

/-- Keys of one table compare like the tuples that they encode, and different
tuples have different keys. -/
theorem assembleTableKey_order (table : Bytes) {types : List PkType} (t u : PkTuple types) :
    t.scalars.mapM encodePkValue = some t.parts ∧
      u.scalars.mapM encodePkValue = some u.parts ∧
        compare (assembleTableKey table t.parts) (assembleTableKey table u.parts) = t.cmp u ∧
          (assembleTableKey table t.parts = assembleTableKey table u.parts → t = u) := by
  have horder : compare (assembleTableKey table t.parts) (assembleTableKey table u.parts) =
      t.cmp u := by
    unfold assembleTableKey
    rw [compare_append_left, PkTuple.compare_parts]
  refine ⟨t.mapM_scalars, u.mapM_scalars, horder, fun heq ↦ PkTuple.eq_of_cmp ?_⟩
  rw [← horder, heq]
  exact Std.ReflCmp.compare_self

end HatP
