import HatP.Wal.Crc32c

/-!
# Single-bit damage of a frame

The checksum of a frame is a reflected check with a zero initial state, so a
frame with one flipped bit is never decoded as a record, as long as the decoder
looks for the checksum where the encoder has put it.  It does not when a key or a
value has the length that stands for an absent value.
-/

namespace HatP

open LittleEndian

variable {f : UInt8 → UInt8}

theorem crc32cWithState_modify_ne {bytes : Bytes} {pos : ℕ}
    (hpos : pos < bytes.length) (hf : ∀ byte, f byte ≠ byte) (init : UInt32) :
    crc32cWithState (bytes.modify pos f) init ≠ crc32cWithState bytes init := by
  have hsplit : bytes = bytes.take pos ++ bytes[pos] :: bytes.drop (pos + 1) := by
    rw [← List.drop_eq_getElem_cons hpos, List.take_append_drop]
  have hmodify : bytes.modify pos f = bytes.take pos ++ f bytes[pos] :: bytes.drop (pos + 1) :=
    List.modify_eq_take_cons_drop hpos
  rw [ne_eq, ← UInt32.toBitVec_inj, toBitVec_crc32cWithState, toBitVec_crc32cWithState, hmodify]
  conv => enter [1, 2]; rw [hsplit]
  exact Crc.update_ne_of_byte (by decide) (by decide) _ _ _ (hf _)

/-! ## Flips -/

def flipBit (bytes : Bytes) (pos : ℕ) (bit : Fin 8) : Bytes :=
  bytes.modify pos fun byte ↦ byte ^^^ (1 <<< UInt8.ofNat bit)

theorem flip_ne (bit : Fin 8) (byte : UInt8) : byte ^^^ (1 <<< UInt8.ofNat bit) ≠ byte := by
  intro h
  have hzero : (1 : UInt8) <<< UInt8.ofNat bit = 0 := by
    have hcancel := congrArg (byte ^^^ ·) h
    simpa [← UInt8.xor_assoc] using hcancel
  clear h
  revert bit
  decide

theorem modify_ne {bytes : Bytes} {pos : ℕ} (hpos : pos < bytes.length)
    (hf : ∀ byte, f byte ≠ byte) : bytes.modify pos f ≠ bytes := by
  intro h
  have hbyte := congrArg (·[pos]?) h
  simp only [List.getElem?_modify, if_true, List.getElem?_eq_getElem hpos] at hbyte
  exact hf _ (Option.some.inj hbyte)

namespace Wal

theorem crc_of_decodeFrame {buf : Bytes} {cursor keyLen valueLen : ℕ} {frame : DecodedFrame}
    (hkeyLen : readAt 4 buf (cursor + 13) = keyLen)
    (hvalueLen : readAt 4 buf (cursor + 17) = valueLen)
    (h : decodeFrame buf cursor = .ok (some frame)) :
    (crc32cWithState (slice buf cursor
        (frameHeaderLen + lenUsize keyLen + lenUsize valueLen)) 0).toNat =
      readAt 4 buf (cursor + (frameHeaderLen + lenUsize keyLen + lenUsize valueLen)) := by
  unfold decodeFrame at h
  split at h
  · cases h
  split at h
  · cases h
  split at h
  · cases h
  dsimp only at h
  rw [hkeyLen, hvalueLen] at h
  split at h
  · cases h
  split at h
  · cases h
  rename_i hcrc
  have hsum := not_not.mp hcrc
  have hend : cursor + frameHeaderLen + lenUsize keyLen + lenUsize valueLen =
      cursor + (frameHeaderLen + lenUsize keyLen + lenUsize valueLen) := by omega
  rwa [hend, Nat.add_sub_cancel_left] at hsum

/-- No flip of one bit of the frame outside its two length fields leaves
something that decodes as a record, wherever the frame stands. -/
def DetectsFlips (bytes : Bytes) : Prop :=
  ∀ (pre post : Bytes) (pos : ℕ) (bit : Fin 8), pos < bytes.length → pos < 13 ∨ 21 ≤ pos →
    ∀ frame, decodeFrame (pre ++ (flipBit bytes pos bit ++ post)) pre.length ≠ .ok (some frame)

section Detect

variable {record : WalRecord}

theorem flipBit_frame (pre post : Bytes) {bytes : Bytes} {pos : ℕ} (hpos : pos < bytes.length)
    (bit : Fin 8) :
    pre ++ (flipBit bytes pos bit ++ post) =
      flipBit (pre ++ (bytes ++ post)) (pre.length + pos) bit := by
  have hiff : ∀ i, pre.length ≤ i → (pre.length + pos = i ↔ pos = i - pre.length) := by omega
  apply List.ext_getElem?
  intro i
  simp only [flipBit, List.getElem?_modify, List.getElem?_append, List.length_modify]
  by_cases hpre : i < pre.length
  · have hne : pre.length + pos ≠ i := by omega
    simp [hpre, hne]
  · by_cases hbytes : i - pre.length < bytes.length
    · simp [hpre, hbytes, hiff i (Nat.not_lt.mp hpre)]
    · have hne : pre.length + pos ≠ i := by omega
      simp [hpre, hbytes, hne]

theorem slice_frameBody (record : WalRecord) (pre post : Bytes) :
    slice (pre ++ (frameBytes record ++ post)) pre.length (frameBody record).length =
      frameBody record := by
  rw [frameBytes, List.append_assoc]
  exact slice_eq rfl rfl rfl

theorem slice_checksum (record : WalRecord) (pre post : Bytes) :
    slice (pre ++ (frameBytes record ++ post))
        (pre.length + (frameBody record).length) 4 =
      encode 4 (crc32cWithState (frameBody record) 0).toNat := by
  rw [frameBytes, List.append_assoc, ← List.append_assoc pre]
  exact slice_eq rfl List.length_append.symm (length_encode _ _).symm

/-- The checksum that is compared with the bytes behind the body is wrong for
every flip in the body, and the bytes are wrong for every flip in them. -/
theorem crc_ne_of_flip (record : WalRecord) (pre post : Bytes) {pos : ℕ}
    (hpos : pos < (frameBytes record).length) (bit : Fin 8) :
    let buf := flipBit (pre ++ (frameBytes record ++ post)) (pre.length + pos) bit
    (crc32cWithState (slice buf pre.length (frameBody record).length) 0).toNat ≠
      readAt 4 buf (pre.length + (frameBody record).length) := by
  intro buf hcrc
  have hlen : (frameBytes record).length = (frameBody record).length + 4 := by
    rw [length_frameBytes, length_frameBody, frameCrcLen]
  simp only [buf, flipBit, readAt] at hcrc
  by_cases hbody : pos < (frameBody record).length
  · have hstored : pre.length + pos < pre.length + (frameBody record).length := by omega
    rw [slice_modify_of_le (Nat.le_add_right _ _), Nat.add_sub_cancel_left,
      slice_frameBody, slice_modify_of_disjoint (.inl hstored), slice_checksum,
      decode_encode (UInt32.toNat_lt _)] at hcrc
    exact crc32cWithState_modify_ne hbody (flip_ne bit) 0 (UInt32.toNat_inj.mp hcrc)
  · have hstored : pre.length + (frameBody record).length ≤ pre.length + pos := by omega
    rw [slice_modify_of_disjoint (.inr hstored), slice_frameBody,
      slice_modify_of_le hstored, slice_checksum] at hcrc
    have hflipped := decode_inj (List.length_modify _ _ _)
      (hcrc.symm.trans (decode_encode (UInt32.toNat_lt _)).symm)
    refine modify_ne ?_ (flip_ne bit) hflipped
    rw [length_encode]
    omega

theorem detectsFlips_frameBytes (hkey : record.key.length < valueNone)
    (hvalue : (record.value.getD []).length < valueNone) : DetectsFlips (frameBytes record) := by
  intro pre post pos bit hpos hfield frame hdecode
  obtain ⟨hvalueLen, hvalueUsize⟩ := valueLen_usize hvalue
  have hkeyUsize : lenUsize record.key.length = record.key.length := if_neg hkey.ne
  rw [flipBit_frame pre post hpos bit] at hdecode
  -- the flip misses both length fields, so the decoder looks for the checksum in the right place
  have hfields : ∀ offset, 13 ≤ offset → offset + 4 ≤ 21 →
      readAt 4 (flipBit (pre ++ (frameBytes record ++ post)) (pre.length + pos) bit)
          (pre.length + offset) =
        readAt 4 (pre ++ (frameBytes record ++ post)) (pre.length + offset) := by
    intro offset hlo hhi
    rw [readAt, flipBit, slice_modify_of_disjoint (by omega)]
    rfl
  have hkeyLen := hfields 13 (by decide) (by decide)
  have hvalueAt := hfields 17 (by decide) (by decide)
  rw [frameBytes_eq, List.append_assoc] at hkeyLen hvalueAt hdecode
  rw [readAt_keyLen pre _ (hkey.trans (by decide))] at hkeyLen
  rw [readAt_valueLen pre _ (hvalueLen.trans_lt (by decide))] at hvalueAt
  have hcrc := crc_of_decodeFrame hkeyLen hvalueAt hdecode
  rw [hkeyUsize, hvalueUsize, ← length_frameBody, ← List.append_assoc (frameHeader ..),
    ← frameBytes_eq] at hcrc
  exact crc_ne_of_flip record pre post hpos bit hcrc

end Detect

/-! ## Lengths that are misread -/

section Misread

variable {keyLen : ℕ} {valueLen : Option ℕ}

/-- The decoder takes a length for the one of an absent value. -/
def Misread (keyLen : ℕ) (valueLen : Option ℕ) : Prop :=
  keyLen = valueNone ∨ valueLen = some valueNone

def shownLen (keyLen : ℕ) (valueLen : Option ℕ) : ℕ :=
  lenUsize keyLen + lenUsize (valueLen.getD valueNone)

def shownBody (keyLen : ℕ) (valueLen : Option ℕ) : Bytes :=
  frameHeader 0 .put keyLen (valueLen.getD valueNone) ++ List.replicate (shownLen keyLen valueLen) 0

/-- A payload that has the checksum of what the decoder looks at right behind it. -/
def imitation (keyLen : ℕ) (valueLen : Option ℕ) : Bytes :=
  List.replicate (shownLen keyLen valueLen) 0 ++
    (encode 4 (crc32cWithState (shownBody keyLen valueLen) 0).toNat ++
      List.replicate (keyLen + valueLen.getD 0 - shownLen keyLen valueLen - 4) 0)

def imitatingRecord (keyLen : ℕ) (valueLen : Option ℕ) : WalRecord where
  txId := 0
  op := .put
  key := (imitation keyLen valueLen).take keyLen
  value := valueLen.map fun _ ↦ (imitation keyLen valueLen).drop keyLen

theorem lenUsize_le (len : ℕ) : lenUsize len ≤ len := by
  rw [lenUsize]
  split
  · exact Nat.zero_le _
  · exact le_rfl

theorem lenUsize_getD_le (valueLen : Option ℕ) :
    lenUsize (valueLen.getD valueNone) ≤ valueLen.getD 0 := by
  cases valueLen with
  | none => simp [lenUsize]
  | some len => exact lenUsize_le len

section

variable (h : Misread keyLen valueLen)

include h

theorem Misread.room : shownLen keyLen valueLen + 4 ≤ keyLen + valueLen.getD 0 := by
  have hkey := lenUsize_le keyLen
  have hvalue := lenUsize_getD_le valueLen
  have hnone : 4 ≤ valueNone := by decide
  rw [shownLen]
  rcases h with rfl | rfl
  · rw [show lenUsize valueNone = 0 from if_pos rfl]
    omega
  · rw [Option.getD_some, Option.getD_some, show lenUsize valueNone = 0 from if_pos rfl]
    omega

theorem Misread.length_imitation :
    (imitation keyLen valueLen).length = keyLen + valueLen.getD 0 := by
  have hroom := h.room
  simp only [imitation, List.length_append, List.length_replicate, length_encode]
  omega

theorem Misread.length_key : (imitatingRecord keyLen valueLen).key.length = keyLen := by
  apply List.length_take_of_le
  rw [h.length_imitation]
  exact Nat.le_add_right _ _

theorem Misread.length_value :
    (imitatingRecord keyLen valueLen).value.map List.length = valueLen := by
  have hlen := h.length_imitation
  cases valueLen with
  | none => rfl
  | some len =>
    simp only [imitatingRecord, Option.map_some, List.length_drop, hlen, Option.getD_some,
      Nat.add_sub_cancel_left]

theorem Misread.payload :
    (imitatingRecord keyLen valueLen).key ++ (imitatingRecord keyLen valueLen).value.getD [] =
      imitation keyLen valueLen := by
  have hlen := h.length_imitation
  cases valueLen with
  | none => exact (List.append_nil _).trans (List.take_of_length_le hlen.le)
  | some len => exact List.take_append_drop _ _

theorem Misread.frameBytes_eq :
    ∃ rest own : Bytes, own.length = 4 ∧ frameBytes (imitatingRecord keyLen valueLen) =
      (shownBody keyLen valueLen ++ (encode 4
        (crc32cWithState (shownBody keyLen valueLen) 0).toNat ++ rest)) ++ own := by
  refine ⟨List.replicate (keyLen + valueLen.getD 0 - shownLen keyLen valueLen - 4) 0,
    encode 4 (crc32cWithState (frameBody (imitatingRecord keyLen valueLen)) 0).toNat,
    length_encode _ _, ?_⟩
  rw [frameBytes, frameBody, h.payload, h.length_key, h.length_value, shownBody, imitation]
  simp only [List.append_assoc]
  rfl

end

theorem decodeFrame_shownBody (hkey : keyLen ≤ maxU32) (hvalue : valueLen.getD valueNone ≤ maxU32)
    (tail : Bytes) :
    ∃ frame, decodeFrame (shownBody keyLen valueLen ++ (encode 4
      (crc32cWithState (shownBody keyLen valueLen) 0).toNat ++ tail)) 0 = .ok (some frame) := by
  set sum := (crc32cWithState (shownBody keyLen valueLen) 0).toNat with hsum
  set buf := shownBody keyLen valueLen ++ (encode 4 sum ++ tail) with hbuf
  have hheader : buf = [] ++ (frameHeader 0 .put keyLen (valueLen.getD valueNone) ++
      (List.replicate (shownLen keyLen valueLen) 0 ++ (encode 4 sum ++ tail))) := by
    simp [hbuf, shownBody]
  have hshown : (shownBody keyLen valueLen).length = frameHeaderLen + shownLen keyLen valueLen := by
    simp [shownBody]
  have hend : ([] : Bytes).length + frameHeaderLen + lenUsize keyLen +
      lenUsize (valueLen.getD valueNone) = (shownBody keyLen valueLen).length := by
    rw [hshown, shownLen, List.length_nil]
    omega
  have hlen : ¬buf.length < (shownBody keyLen valueLen).length + frameCrcLen := by
    simp only [hbuf, List.length_append, length_encode, frameCrcLen]
    omega
  have hslice : slice buf 0 (shownBody keyLen valueLen).length = shownBody keyLen valueLen :=
    slice_eq (List.nil_append buf).symm rfl rfl
  have hread : readAt 4 buf (shownBody keyLen valueLen).length = sum :=
    readAt_eq rfl rfl (UInt32.toNat_lt _)
  have hdecode := decodeFrame_frameHeader [] (List.replicate
    (shownLen keyLen valueLen) 0 ++ (encode 4 sum ++ tail)) .put (by decide : 0 < 256 ^ 8)
    (hkey.trans_lt (by decide)) (hvalue.trans_lt (by decide))
  rw [← hheader] at hdecode
  dsimp only at hdecode
  rw [hend, if_neg hlen, List.length_nil, Nat.sub_zero, hslice, hread,
    if_neg (not_not.mpr hsum.symm)]
    at hdecode
  exact ⟨_, hdecode⟩

theorem Misread.not_detectsFlips (h : Misread keyLen valueLen) (hkey : keyLen ≤ maxU32)
    (hvalue : valueLen.getD valueNone ≤ maxU32) :
    ¬DetectsFlips (frameBytes (imitatingRecord keyLen valueLen)) := by
  intro hdetects
  obtain ⟨rest, own, hown, hbytes⟩ := h.frameBytes_eq
  rw [hbytes] at hdetects
  set front := shownBody keyLen valueLen ++ (encode 4
    (crc32cWithState (shownBody keyLen valueLen) 0).toNat ++ rest) with hfront
  have hlong : 21 ≤ front.length := by
    simp only [hfront, shownBody, List.length_append, length_frameHeader, frameHeaderLen]
    omega
  have hlast : 3 < own.length := hown.symm ▸ (by decide)
  have hflip := flipBit_frame front [] hlast 0
  rw [List.append_nil, List.append_nil] at hflip
  obtain ⟨frame, hframe⟩ := decodeFrame_shownBody hkey hvalue (rest ++ flipBit own 3 0)
  refine hdetects [] [] (front.length + 3) 0 ?_ (.inr (by omega)) frame ?_
  · have hlen : (front ++ own).length = front.length + own.length := List.length_append
    omega
  · rw [← hflip, List.append_nil, List.nil_append, List.length_nil, hfront, List.append_assoc,
      List.append_assoc, hframe]

/-- One flipped bit outside the length fields is detected in all frames with
these lengths exactly if no length is the one of an absent value. -/
theorem detects_flips_iff (keyLen : ℕ) (valueLen : Option ℕ) (hkey : keyLen ≤ maxU32)
    (hvalue : ∀ len, valueLen = some len → len ≤ maxU32) :
    (∀ record bytes, record.txId < 2 ^ 64 → record.key.length = keyLen →
      record.value.map List.length = valueLen → encodeFrame record = .ok bytes →
        DetectsFlips bytes) ↔
      keyLen ≠ valueNone ∧ valueLen ≠ some valueNone := by
  have hvalueMax : valueLen.getD valueNone ≤ maxU32 := by
    cases valueLen with
    | none => exact le_rfl
    | some len => exact hvalue len rfl
  constructor
  · intro hdetects
    by_contra hnot
    have hmisread : Misread keyLen valueLen := by
      rw [Misread]
      tauto
    apply hmisread.not_detectsFlips hkey hvalueMax
    refine hdetects (imitatingRecord keyLen valueLen) _ (Nat.two_pow_pos 64) hmisread.length_key
      hmisread.length_value ?_
    rw [encodeFrame, hmisread.length_value, hmisread.length_key, if_neg, if_neg hkey.not_gt]
    cases valueLen with
    | none => decide
    | some len => exact (hvalue len rfl).not_gt
  · rintro ⟨hkeyNe, hvalueNe⟩ record bytes - rfl rfl hbytes
    have hvalueLt : (record.value.getD []).length < valueNone := by
      cases hv : record.value with
      | none => decide
      | some value =>
        rw [hv] at hvalue hvalueNe
        exact lt_of_le_of_ne (hvalue value.length rfl) fun heq ↦ hvalueNe (congrArg some heq)
    obtain ⟨-, rfl⟩ := (encodeFrame_eq_ok_iff record bytes).mp hbytes
    exact detectsFlips_frameBytes (lt_of_le_of_ne hkey hkeyNe) hvalueLt

/-- Keys of one byte and values of two. -/
theorem detects_flips_iff_short :
    1 ≤ maxU32 ∧ (∀ record bytes, record.txId < 2 ^ 64 → record.key.length = 1 →
      record.value.map List.length = some 2 → encodeFrame record = .ok bytes →
        DetectsFlips bytes) := by
  have hkey : 1 ≤ maxU32 := by decide
  have hvalue : ∀ len, some 2 = some len → len ≤ maxU32 := by
    rintro _ ⟨⟩
    decide
  exact ⟨hkey, (detects_flips_iff 1 (some 2) hkey hvalue).mpr ⟨by decide, by decide⟩⟩

/-- A put of a value of `2 ^ 32 - 1` bytes that starts with a checksum. -/
theorem flip_decodes_as_record :
    ∃ record bytes, record.op = .put ∧ record.txId = 0 ∧ record.key.length = 1 ∧
      record.value.map List.length = some valueNone ∧ encodeFrame record = .ok bytes ∧
        ¬DetectsFlips bytes := by
  have hmisread : Misread 1 (some valueNone) := .inr rfl
  refine ⟨imitatingRecord 1 (some valueNone), _, rfl, rfl, hmisread.length_key,
    hmisread.length_value, ?_, hmisread.not_detectsFlips (by decide) (by decide)⟩
  rw [encodeFrame, hmisread.length_value, hmisread.length_key, if_neg (by decide),
    if_neg (by decide)]

end Misread

end Wal

end HatP
