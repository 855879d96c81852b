import HatP.Lib.BlockFold
import HatP.Version

/-!
# The bloom sidecar

A filter of `numBits` bits probed by double hashing with FNV-1a and DJB2.  The
source sizes a filter in floating point; here its two parameters are given.
-/

namespace HatP

def fnv1a (data : Bytes) : UInt64 :=
  data.foldl (fun hash byte ↦ (hash ^^^ byte.toUInt64) * 0x100000001b3) 0xcbf29ce484222325

def djb2 (data : Bytes) : UInt64 :=
  data.foldl (fun hash byte ↦ hash * 33 + byte.toUInt64) 5381

section Unrolled

/-- One round of the hash loops, which take four bytes at a time. -/
def fourBytes (step : UInt64 → UInt8 → UInt64) (hash : UInt64) : Bytes → UInt64
  | [a, b, c, d] => step (step (step (step hash a) b) c) d
  | _ => hash

theorem fourBytes_eq_foldl (step : UInt64 → UInt8 → UInt64) (hash : UInt64) {bytes : Bytes}
    (h : bytes.length = 4) : fourBytes step hash bytes = bytes.foldl step hash := by
  match bytes, h with
  | [_, _, _, _], _ => rfl

def fnv1aUnrolled (data : Bytes) : UInt64 :=
  let step := fun (hash : UInt64) (byte : UInt8) ↦ (hash ^^^ byte.toUInt64) * 0x100000001b3
  BlockFold.unrolled 4 (fourBytes step) step 0xcbf29ce484222325 data

def djb2Unrolled (data : Bytes) : UInt64 :=
  let step := fun (hash : UInt64) (byte : UInt8) ↦ hash * 33 + byte.toUInt64
  BlockFold.unrolled 4 (fourBytes step) step 5381 data

theorem unrolled_hashes_eq (data : Bytes) :
    fnv1aUnrolled data = fnv1a data ∧ djb2Unrolled data = djb2 data :=
  ⟨BlockFold.unrolled_eq_foldl (fun hash _ ↦ fourBytes_eq_foldl _ hash) _ data,
    BlockFold.unrolled_eq_foldl (fun hash _ ↦ fourBytes_eq_foldl _ hash) _ data⟩

end Unrolled

/-- What `BloomFilter::new` computes from the row count: a power of two of at
least 64 bits and between one and 32 probes. -/
structure BloomSize where
  log2Words : ℕ
  numHashes : ℕ
  log2Words_lt : log2Words < 58
  numHashes_pos : 0 < numHashes
  numHashes_le : numHashes ≤ 32

/-- One word and one probe. -/
def BloomSize.smallest : BloomSize := ⟨0, 1, by decide, by decide, by decide⟩

structure BloomFilter where
  numBits : UInt64
  numHashes : ℕ
  bits : List UInt64
deriving DecidableEq

namespace BloomFilter

def new (size : BloomSize) : BloomFilter :=
  ⟨UInt64.ofNat (64 * 2 ^ size.log2Words), size.numHashes, List.replicate (2 ^ size.log2Words) 0⟩

def probeBit (filter : BloomFilter) (key : Bytes) (probe : ℕ) : UInt64 :=
  (fnv1a key + UInt64.ofNat probe * djb2 key) &&& (filter.numBits - 1)

def setBit (filter : BloomFilter) (bit : UInt64) : BloomFilter :=
  { filter with
    bits := filter.bits.modify (bit >>> 6).toNat fun word ↦ word ||| (1 <<< (bit &&& 63)) }

def insert (filter : BloomFilter) (key : Bytes) : BloomFilter :=
  (List.range filter.numHashes).foldl (fun f probe ↦ f.setBit (f.probeBit key probe)) filter

def testBit (filter : BloomFilter) (bit : UInt64) : Bool :=
  filter.bits.getD (bit >>> 6).toNat 0 &&& (1 <<< (bit &&& 63)) != 0

def contains (filter : BloomFilter) (key : Bytes) : Bool :=
  if filter.bits.isEmpty || filter.numHashes == 0 then false
  else (List.range filter.numHashes).all fun probe ↦ filter.testBit (filter.probeBit key probe)

/-! ## No key is lost -/

theorem or_and_self (word mask : UInt64) : (word ||| mask) &&& mask = mask := by
  apply UInt64.toBitVec_inj.mp
  ext i
  simp only [UInt64.toBitVec_and, UInt64.toBitVec_or, BitVec.getElem_and, BitVec.getElem_or]
  cases mask.toBitVec[i]
  · simp
  · simp

variable {filter : BloomFilter} {key : Bytes} {bit : UInt64}

theorem and_eq_zero_of_or {word mask : UInt64} (h : (word ||| mask) &&& bit = 0) :
    word &&& bit = 0 := by
  apply UInt64.toBitVec_inj.mp
  have hbits := UInt64.toBitVec_inj.mpr h
  ext i
  have hbit := congrArg (fun bits ↦ bits[i]) hbits
  simp only [UInt64.toBitVec_and, UInt64.toBitVec_or, UInt64.toBitVec_zero, BitVec.getElem_and,
    BitVec.getElem_or, BitVec.getElem_zero, Bool.and_eq_false_iff, Bool.or_eq_false_iff]
    at hbit ⊢
  exact hbit.imp And.left id

theorem one_shiftLeft_ne_zero (bit : UInt64) : (1 : UInt64) <<< (bit &&& 63) ≠ 0 := by
  intro h
  have hnat := congrArg UInt64.toNat h
  rw [UInt64.toNat_shiftLeft, UInt64.toNat_and] at hnat
  have hlt : bit.toNat &&& (63 : UInt64).toNat < 64 :=
    Nat.lt_of_le_of_lt Nat.and_le_right (by decide)
  rw [Nat.mod_eq_of_lt hlt, UInt64.toNat_one, Nat.shiftLeft_eq, one_mul,
    Nat.mod_eq_of_lt (Nat.pow_lt_pow_right (by decide) hlt)] at hnat
  exact absurd hnat (Nat.two_pow_pos _).ne'

/-- Every probe falls into the words of the filter. -/
def Sized (filter : BloomFilter) : Prop :=
  ∀ key probe, (filter.probeBit key probe >>> 6).toNat < filter.bits.length

theorem sized_of_two_pow {log2Words : ℕ} (hbits : filter.numBits.toNat = 2 ^ (log2Words + 6))
    (hwords : filter.bits.length = 2 ^ log2Words) : filter.Sized := by
  intro key probe
  have hpos : 0 < 2 ^ (log2Words + 6) := Nat.two_pow_pos _
  have hone : (1 : UInt64) ≤ filter.numBits := by
    rw [UInt64.le_iff_toNat_le, hbits]
    exact hpos
  have hmask : (filter.numBits - 1).toNat = 2 ^ (log2Words + 6) - 1 := by
    rw [UInt64.toNat_sub_of_le _ _ hone, hbits, UInt64.toNat_one]
  have hlt : (filter.probeBit key probe).toNat < 2 ^ (log2Words + 6) := by
    rw [probeBit, UInt64.toNat_and, hmask, Nat.and_two_pow_sub_one_eq_mod]
    exact Nat.mod_lt _ hpos
  rw [UInt64.toNat_shiftRight, hwords]
  change (filter.probeBit key probe).toNat >>> 6 < 2 ^ log2Words
  rw [Nat.shiftRight_eq_div_pow, Nat.div_lt_iff_lt_mul (by decide), ← Nat.pow_add]
  exact hlt

theorem toNat_numBits_new (size : BloomSize) :
    (new size).numBits.toNat = 2 ^ (size.log2Words + 6) := by
  have hpow : 64 * 2 ^ size.log2Words = 2 ^ (size.log2Words + 6) := by
    rw [Nat.pow_add, mul_comm]
  have hlt : 2 ^ (size.log2Words + 6) < 2 ^ 64 :=
    Nat.pow_lt_pow_right (by decide) (by have := size.log2Words_lt; omega)
  rw [new, hpow, UInt64.toNat_ofNat']
  exact Nat.mod_eq_of_lt hlt

theorem sized_new (size : BloomSize) : (new size).Sized :=
  sized_of_two_pow (toNat_numBits_new size) List.length_replicate

theorem testBit_setBit_self
    (h : (bit >>> 6).toNat < filter.bits.length) : (filter.setBit bit).testBit bit = true := by
  rw [testBit, setBit, List.getD_eq_getElem?_getD, List.getElem?_modify, List.getElem?_eq_getElem h]
  simp only [if_true, Option.map_eq_map, Option.map_some, Option.getD_some, or_and_self, bne_iff_ne]
  exact one_shiftLeft_ne_zero bit

theorem testBit_setBit (other : UInt64)
    (h : filter.testBit bit = true) : (filter.setBit other).testBit bit = true := by
  rw [testBit, List.getD_eq_getElem?_getD, bne_iff_ne] at h
  rw [testBit, setBit, List.getD_eq_getElem?_getD, List.getElem?_modify, bne_iff_ne]
  cases hword : filter.bits[(bit >>> 6).toNat]? with
  | none =>
    rw [hword] at h
    exact absurd UInt64.zero_and h
  | some word =>
    rw [hword] at h
    split
    · exact fun hzero ↦ h (and_eq_zero_of_or hzero)
    · exact h

section Insert

variable {filter : BloomFilter} (key : Bytes)

def setProbes (filter : BloomFilter) (probes : List ℕ) : BloomFilter :=
  probes.foldl (fun f probe ↦ f.setBit (f.probeBit key probe)) filter

theorem numHashes_setProbes (probes : List ℕ) :
    (filter.setProbes key probes).numHashes = filter.numHashes := by
  induction probes generalizing filter with
  | nil => rfl
  | cons probe probes ih => exact ih

theorem numBits_setProbes (probes : List ℕ) :
    (filter.setProbes key probes).numBits = filter.numBits := by
  induction probes generalizing filter with
  | nil => rfl
  | cons probe probes ih => exact ih

theorem probeBit_setProbes (probes : List ℕ) (other : Bytes) (probe : ℕ) :
    (filter.setProbes key probes).probeBit other probe = filter.probeBit other probe := by
  induction probes generalizing filter with
  | nil => rfl
  | cons first probes ih => exact ih

theorem length_setProbes (probes : List ℕ) :
    (filter.setProbes key probes).bits.length = filter.bits.length := by
  induction probes generalizing filter with
  | nil => rfl
  | cons probe probes ih => exact ih.trans (List.length_modify _ _ _)

theorem testBit_setProbes {bit : UInt64} (probes : List ℕ) (h : filter.testBit bit = true) :
    (filter.setProbes key probes).testBit bit = true := by
  induction probes generalizing filter with
  | nil => exact h
  | cons probe probes ih => exact ih (testBit_setBit _ h)

theorem testBit_probeBit_setProbes (hsized : filter.Sized) {probes : List ℕ} {probe : ℕ}
    (h : probe ∈ probes) :
    (filter.setProbes key probes).testBit (filter.probeBit key probe) = true := by
  induction probes generalizing filter with
  | nil => cases h
  | cons first probes ih =>
    rcases List.mem_cons.mp h with rfl | hrest
    · exact testBit_setProbes key probes (testBit_setBit_self (hsized key probe))
    · apply ih _ hrest
      exact fun other p ↦ (hsized other p).trans_eq (List.length_modify _ _ _).symm

end Insert

/-- What the keys that went into a filter have in common. -/
structure Holds (filter : BloomFilter) (key : Bytes) : Prop where
  numHashes_pos : 0 < filter.numHashes
  sized : filter.Sized
  tested : ∀ probe < filter.numHashes, filter.testBit (filter.probeBit key probe) = true

theorem Holds.contains (h : filter.Holds key) : filter.contains key = true := by
  have hbits : filter.bits.isEmpty = false := by
    rw [List.isEmpty_eq_false_iff]
    rintro hnil
    have hlt := h.sized key 0
    rw [hnil] at hlt
    exact absurd hlt (Nat.not_lt_zero _)
  have hhashes : (filter.numHashes == 0) = false := by
    rw [beq_eq_false_iff_ne]
    exact h.numHashes_pos.ne'
  rw [BloomFilter.contains, hbits, hhashes, Bool.or_false, if_neg Bool.false_ne_true,
    List.all_eq_true]
  exact fun probe hprobe ↦ h.tested probe (List.mem_range.mp hprobe)

theorem Sized.insert (h : filter.Sized) (key : Bytes) : (filter.insert key).Sized := by
  intro other probe
  have hlt := h other probe
  rw [← probeBit_setProbes key (List.range filter.numHashes),
    ← length_setProbes key (List.range filter.numHashes)] at hlt
  exact hlt

theorem holds_insert_self (hpos : 0 < filter.numHashes)
    (hsized : filter.Sized) (key : Bytes) : (filter.insert key).Holds key where
  numHashes_pos := (numHashes_setProbes key _).symm ▸ hpos
  sized := hsized.insert key
  tested probe hprobe := by
    have hlt : probe < filter.numHashes := numHashes_setProbes key _ ▸ hprobe
    have htest := testBit_probeBit_setProbes key hsized (List.mem_range.mpr hlt)
    rw [← probeBit_setProbes key (List.range filter.numHashes)] at htest
    exact htest

theorem Holds.insert (h : filter.Holds key) (other : Bytes) : (filter.insert other).Holds key where
  numHashes_pos := (numHashes_setProbes other _).symm ▸ h.numHashes_pos
  sized := h.sized.insert other
  tested probe hprobe := by
    have hlt : probe < filter.numHashes := numHashes_setProbes other _ ▸ hprobe
    have htest := testBit_setProbes other (List.range filter.numHashes) (h.tested probe hlt)
    rw [← probeBit_setProbes other (List.range filter.numHashes)] at htest
    exact htest

theorem contains_foldl_insert (hpos : 0 < filter.numHashes)
    (hsized : filter.Sized) {keys : List Bytes} (h : key ∈ keys) :
    (keys.foldl insert filter).contains key = true := by
  have hkept : ∀ (keys : List Bytes) (filter : BloomFilter), filter.Holds key →
      (keys.foldl insert filter).Holds key := by
    intro keys
    induction keys with
    | nil => exact fun _ hholds ↦ hholds
    | cons other keys ih => exact fun filter hholds ↦ ih _ (hholds.insert other)
  apply Holds.contains
  induction keys generalizing filter with
  | nil => cases h
  | cons first keys ih =>
    rcases List.mem_cons.mp h with rfl | hrest
    · exact hkept keys _ (holds_insert_self hpos hsized key)
    · have hhashes : (filter.insert first).numHashes = filter.numHashes :=
        numHashes_setProbes first _
      exact ih (hhashes ▸ hpos) (hsized.insert first) hrest

end BloomFilter

end HatP
