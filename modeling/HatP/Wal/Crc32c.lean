import HatP.Lib.Crc
import HatP.Wal.Codec

/-!
# The paths of CRC32C

The software path looks every byte up in a table of 256 words, eight bytes a
round from 1024 bytes on.  The SSE4.2 path gives eight bytes at a time to the
processor and the rest to the software path.
-/

namespace HatP

open LittleEndian

/-! ## The checksum bit by bit -/

theorem and_one_ne_zero_iff (crc : UInt32) : crc &&& 1 ≠ 0 ↔ crc.toBitVec.getLsbD 0 = true := by
  rw [ne_eq, ← UInt32.toBitVec_inj, UInt32.toBitVec_and]
  have hbit : crc.toBitVec &&& (1 : UInt32).toBitVec =
      BitVec.setWidth 32 (BitVec.ofBool (crc.toBitVec.getLsbD 0)) :=
    BitVec.and_one_eq_setWidth_ofBool_getLsbD
  rw [hbit]
  cases crc.toBitVec.getLsbD 0 <;> decide

theorem toBitVec_crcShift (crc : UInt32) :
    (crcShift crc).toBitVec = Crc.shift crcPoly.toBitVec crc.toBitVec := by
  rw [crcShift, Crc.shift]
  by_cases hlow : crc &&& 1 ≠ 0
  · rw [if_pos hlow, if_pos ((and_one_ne_zero_iff crc).mp hlow)]
    rfl
  · rw [if_neg hlow, if_neg (hlow ∘ (and_one_ne_zero_iff crc).mpr)]
    rfl

theorem toBitVec_iterate_crcShift (n : ℕ) (crc : UInt32) :
    (crcShift^[n] crc).toBitVec = (Crc.shift crcPoly.toBitVec)^[n] crc.toBitVec := by
  induction n with
  | zero => rfl
  | succ n ih => rw [Function.iterate_succ_apply', Function.iterate_succ_apply',
      toBitVec_crcShift, ih]

theorem toBitVec_crcTable_step (crc : UInt32) (byte : UInt8) :
    ((crc >>> 8) ^^^ crcTable ((crc ^^^ byte.toUInt32) &&& 0xFF)).toBitVec =
      Crc.step crcPoly.toBitVec crc.toBitVec byte := by
  have hmask : ∀ i, ((crc ^^^ byte.toUInt32) &&& 0xFF).toBitVec.getLsbD i =
      (decide (i < 8) && (crc.toBitVec ^^^ byte.toBitVec.setWidth 32).getLsbD i) := by
    intro i
    have hones : (0xFF : UInt32).toBitVec.getLsbD i = decide (i < 8) := by
      change (255 : ℕ).testBit i = _
      rw [show (255 : ℕ) = 2 ^ 8 - 1 from rfl, Nat.testBit_two_pow_sub_one]
    rw [UInt32.toBitVec_and, BitVec.getLsbD_and, hones, Bool.and_comm]
    rfl
  have hmoved : (crc.toBitVec ^^^ byte.toBitVec.setWidth 32) >>> 8 = crc.toBitVec >>> 8 := by
    rw [BitVec.ushiftRight_xor_distrib]
    have hgone : byte.toBitVec.setWidth 32 >>> 8 = 0#32 := by
      apply BitVec.eq_of_getLsbD_eq
      intro i _
      simp [BitVec.getLsbD_ushiftRight, BitVec.getLsbD_setWidth]
    rw [hgone, BitVec.xor_zero]
  rw [Crc.step, Crc.iterate_shift_eq crcPoly.toBitVec 8 hmask, hmoved, UInt32.toBitVec_xor,
    crcTable, toBitVec_iterate_crcShift]
  rfl

theorem toBitVec_crc32cWithState (bytes : Bytes) (init : UInt32) :
    (crc32cWithState bytes init).toBitVec = Crc.update crcPoly.toBitVec init.toBitVec bytes := by
  induction bytes generalizing init with
  | nil => rfl
  | cons byte bytes ih =>
    have hstep := toBitVec_crcTable_step init byte
    have hrest := ih ((init >>> 8) ^^^ crcTable ((init ^^^ byte.toUInt32) &&& 0xFF))
    rw [hstep] at hrest
    exact hrest

/-! ## The two paths -/

/-- `TABLE`, as `build_table` fills it. -/
def crcTableWords : List UInt32 := (List.range 256).map fun i ↦ crcTable (UInt32.ofNat i)

def crcTableStep (crc : UInt32) (byte : UInt8) : UInt32 :=
  (crc >>> 8) ^^^ crcTableWords.getD ((crc ^^^ byte.toUInt32) &&& 0xFF).toNat 0

def crcEightBytes (crc : UInt32) : Bytes → UInt32
  | [b0, b1, b2, b3, b4, b5, b6, b7] =>
    let crc := crcTableStep (crcTableStep (crcTableStep (crcTableStep crc b0) b1) b2) b3
    crcTableStep (crcTableStep (crcTableStep (crcTableStep crc b4) b5) b6) b7
  | _ => crc

def crc32cSoftware (bytes : Bytes) (init : UInt32) : UInt32 :=
  if bytes.length < 1024 then bytes.foldl crcTableStep init
  else BlockFold.unrolled 8 crcEightBytes crcTableStep init bytes

/-- What the instruction does with the low half of its first operand. -/
def mmCrc32U64 (crc word : UInt64) : UInt64 :=
  (UInt32.ofBitVec (Crc.update crcPoly.toBitVec crc.toUInt32.toBitVec
    (encode 8 word.toNat))).toUInt64

/-- The path of a 64-bit processor. -/
def crc32cSse42 (bytes : Bytes) (init : UInt32) : UInt32 :=
  let (crc, tail) := BlockFold.blocks 8
    (fun crc word ↦ mmCrc32U64 crc (UInt64.ofNat (decode word))) (bytes.length / 8)
    (init.toUInt64 &&& 0xFFFFFFFF) bytes
  if tail.isEmpty then crc.toUInt32
  else (crc32cSoftware tail crc.toUInt32).toUInt64.toUInt32

structure Hasher where
  state : UInt32

/-- The path is chosen by what the processor can do. -/
def Hasher.update (sse42 : Bool) (hasher : Hasher) (bytes : Bytes) : Hasher :=
  ⟨if sse42 then crc32cSse42 bytes hasher.state else crc32cSoftware bytes hasher.state⟩

theorem crcTableStep_eq (crc : UInt32) (byte : UInt8) :
    crcTableStep crc byte = (crc >>> 8) ^^^ crcTable ((crc ^^^ byte.toUInt32) &&& 0xFF) := by
  have hlt : ((crc ^^^ byte.toUInt32) &&& 0xFF).toNat < 256 := by
    rw [UInt32.toNat_and]
    exact Nat.lt_succ_of_le Nat.and_le_right
  rw [crcTableStep, crcTableWords, List.getD_eq_getElem _ _ (by simpa using hlt),
    List.getElem_map, List.getElem_range, UInt32.ofNat_toNat]

theorem foldl_crcTableStep (bytes : Bytes) (init : UInt32) :
    bytes.foldl crcTableStep init = crc32cWithState bytes init := by
  rw [crc32cWithState, funext fun crc ↦ funext (crcTableStep_eq crc)]

theorem crc32cSoftware_eq (bytes : Bytes) (init : UInt32) :
    crc32cSoftware bytes init = crc32cWithState bytes init := by
  have hround : ∀ crc (block : Bytes), block.length = 8 →
      crcEightBytes crc block = block.foldl crcTableStep crc := by
    intro crc block h
    match block, h with
    | [_, _, _, _, _, _, _, _], _ => rfl
  rw [← foldl_crcTableStep, crc32cSoftware]
  split
  · rfl
  · exact BlockFold.unrolled_eq_foldl hround init bytes

theorem mmCrc32U64_eq (crc : UInt32) {word : Bytes} (h : word.length = 8) :
    mmCrc32U64 crc.toUInt64 (UInt64.ofNat (decode word)) = (crc32cWithState word crc).toUInt64 := by
  have hlt : decode word < 2 ^ 64 := by
    have hword := decode_lt word
    rw [h] at hword
    exact hword
  have hbytes : encode 8 (UInt64.ofNat (decode word)).toNat = word := by
    rw [UInt64.toNat_ofNat_of_lt' hlt, ← h, encode_decode]
  rw [mmCrc32U64, hbytes, UInt32.toUInt32_toUInt64, ← toBitVec_crc32cWithState,
    UInt32.ofBitVec_toBitVec]

theorem crc32cSse42_eq (bytes : Bytes) (init : UInt32) :
    crc32cSse42 bytes init = crc32cWithState bytes init := by
  have hinit : init.toUInt64 &&& 0xFFFFFFFF = init.toUInt64 := by
    apply UInt64.toNat_inj.mp
    rw [UInt64.toNat_and, UInt32.toNat_toUInt64]
    exact Nat.and_two_pow_sub_one_of_lt_two_pow init.toNat_lt
  have hfold : ∀ crc (word : Bytes), word.length = 8 →
      crc32cWithState word crc = word.foldl crcTableStep crc :=
    fun crc word _ ↦ (foldl_crcTableStep word crc).symm
  have hrounds := Nat.div_mul_le_self bytes.length 8
  unfold crc32cSse42
  rw [hinit, BlockFold.blocks_map UInt32.toUInt64 (fun crc _ h ↦ mmCrc32U64_eq crc h) hrounds,
    ← foldl_crcTableStep, ← BlockFold.foldl_blocks hfold hrounds]
  dsimp only
  split
  next htail => rw [List.isEmpty_iff.mp htail, UInt32.toUInt32_toUInt64, List.foldl_nil]
  next =>
    rw [UInt32.toUInt32_toUInt64, UInt32.toUInt32_toUInt64, crc32cSoftware_eq, foldl_crcTableStep]

theorem Hasher.update_eq (sse42 : Bool) (hasher : Hasher) (bytes : Bytes) :
    hasher.update sse42 bytes = ⟨crc32cWithState bytes hasher.state⟩ := by
  rw [Hasher.update, crc32cSse42_eq, crc32cSoftware_eq, ite_self]

theorem Hasher.foldl_update (sse42 : Bool) (hasher : Hasher) (pieces : List Bytes) :
    pieces.foldl (Hasher.update sse42) hasher = hasher.update sse42 pieces.flatten := by
  induction pieces generalizing hasher with
  | nil => exact (Hasher.update_eq sse42 hasher []).symm
  | cons piece pieces ih =>
    rw [List.foldl_cons, ih, List.flatten_cons, Hasher.update_eq, Hasher.update_eq,
      Hasher.update_eq, crc32cWithState, crc32cWithState, crc32cWithState, List.foldl_append]

/-- Both paths compute the check bit by bit, and the pieces of a byte string give
what the whole gives. -/
theorem crc32c_paths_agree (init : UInt32) :
    (∀ bytes, (crc32cSoftware bytes init).toBitVec =
        Crc.update 0x82F63B78#32 init.toBitVec bytes ∧
      (crc32cSse42 bytes init).toBitVec = Crc.update 0x82F63B78#32 init.toBitVec bytes) ∧
    ∀ (sse42 : Bool) (pieces : List Bytes),
      pieces.foldl (Hasher.update sse42) ⟨init⟩ = Hasher.update sse42 ⟨init⟩ pieces.flatten := by
  refine ⟨fun bytes ↦ ?_, fun sse42 pieces ↦ Hasher.foldl_update sse42 ⟨init⟩ pieces⟩
  rw [crc32cSse42_eq, crc32cSoftware_eq]
  exact ⟨toBitVec_crc32cWithState bytes init, toBitVec_crc32cWithState bytes init⟩

end HatP
