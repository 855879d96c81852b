import HatP.Engine
import HatP.Lib.FramedLog

/-!
# The frames of the write-ahead log

A frame holds the magic, the transaction, the operation, the lengths of key and
value, key and value, and a checksum of all of it.  A length field of
`0xFFFFFFFF` stands for "no value", and the decoder reads it as length zero.
The decoder takes anything incomplete or damaged at the end of the log for a
torn write and stops there.
-/

namespace HatP

open FramedLog LittleEndian

/-! ## Records -/

inductive OpType
  | put
  | delete
  | commit
  | abort
deriving DecidableEq

structure WalRecord where
  txId : ℕ
  op : OpType
  key : Bytes
  value : Option Bytes
deriving DecidableEq

def WalRecord.frameSize (record : WalRecord) : ℕ :=
  4 + 8 + 1 + 4 + 4 + record.key.length + (record.value.map List.length).getD 0 + 4

def Mutation.walRecord (txId : ℕ) : Mutation → WalRecord
  | put key value => ⟨txId, .put, key, some value⟩
  | delete key => ⟨txId, .delete, key, none⟩

/-- `encode_mutations`: a frame for each mutation, then the commit frame. -/
def encodeMutations (txId : ℕ) (mutations : List Mutation) : List WalRecord :=
  mutations.map (Mutation.walRecord txId) ++ [⟨txId, .commit, [], none⟩]

def walSize (wal : List WalRecord) : ℕ := (wal.map WalRecord.frameSize).sum

/-- A write that passed its checks and its pre-commit hook. -/
structure PendingWrite where
  txId : ℕ
  mutations : List Mutation
  txId_ne : txId ≠ 0
  nonempty : mutations ≠ []

/-- The write after number `previous`. -/
def PendingWrite.ofCons (previous : ℕ) (first : Mutation) (rest : List Mutation) : PendingWrite :=
  ⟨previous + 1, first :: rest, Nat.succ_ne_zero previous, List.cons_ne_nil first rest⟩

structure Commit where
  txId : ℕ
  commitTs : ℕ
  mutations : List Mutation

def Commit.frames (commit : Commit) : List WalRecord :=
  encodeMutations commit.txId commit.mutations

def PendingWrite.frames (w : PendingWrite) : List WalRecord := encodeMutations w.txId w.mutations

/-! ## Checksums -/

def crcPoly : UInt32 := 0x82F63B78

def crcShift (crc : UInt32) : UInt32 :=
  if crc &&& 1 ≠ 0 then (crc >>> 1) ^^^ crcPoly else crc >>> 1

def crcTable (index : UInt32) : UInt32 := crcShift^[8] index

/-- `crc32c_with_state`; the wide loop and the hardware path compute the same
fold. -/
def crc32cWithState (bytes : Bytes) (init : UInt32) : UInt32 :=
  bytes.foldl (fun crc byte ↦ (crc >>> 8) ^^^ crcTable ((crc ^^^ byte.toUInt32) &&& 0xFF)) init

namespace Wal

variable {records : List WalRecord}

/-! ## Encoding -/

def magicWal1 : Bytes := [87, 65, 76, 49]

def frameHeaderLen : ℕ := 4 + 8 + 1 + 4 + 4

def frameCrcLen : ℕ := 4

def maxU32 : ℕ := 0xFFFFFFFF

def valueNone : ℕ := 0xFFFFFFFF

def hexByte (value : UInt8) : String :=
  let digits := Nat.toDigits 16 value.toNat
  "0x" ++ String.ofList (if digits.length < 2 then '0' :: digits else digits)

def encodeOp : OpType → UInt8
  | .put => 1
  | .delete => 2
  | .commit => 3
  | .abort => 4

def decodeOp (value : UInt8) : Except EngineError OpType :=
  if value = 1 then .ok .put
  else if value = 2 then .ok .delete
  else if value = 3 then .ok .commit
  else if value = 4 then .ok .abort
  else .error (.corruptMessage ("unknown WAL operation tag " ++ hexByte value))

def frameHeader (txId : ℕ) (op : OpType) (keyLen valueLen : ℕ) : Bytes :=
  magicWal1 ++ (encode 8 txId ++ (encodeOp op :: (encode 4 keyLen ++ encode 4 valueLen)))

def frameBody (record : WalRecord) : Bytes :=
  frameHeader record.txId record.op record.key.length
    ((record.value.map List.length).getD valueNone) ++ (record.key ++ record.value.getD [])

def frameBytes (record : WalRecord) : Bytes :=
  frameBody record ++ encode 4 (crc32cWithState (frameBody record) 0).toNat

def encodeFrame (record : WalRecord) : Except EngineError Bytes :=
  if (record.value.map List.length).getD 0 > maxU32 then
    .error (.outOfRange "WAL value length exceeds u32::MAX")
  else if record.key.length > maxU32 then
    .error (.outOfRange "WAL key length exceeds u32::MAX")
  else .ok (frameBytes record)

def encodeRecords : List WalRecord → Except EngineError Bytes
  | [] => .ok []
  | record :: records => do
    let frame ← encodeFrame record
    let rest ← encodeRecords records
    return frame ++ rest

def encodeMutations (txId : ℕ) (mutations : List Mutation) : Except EngineError Bytes :=
  encodeRecords (HatP.encodeMutations txId mutations)

/-! ## Decoding -/

structure DecodedFrame where
  txId : ℕ
  op : OpType
  key : Bytes
  value : Option Bytes
  nextOffset : Option ℕ
deriving DecidableEq

def lenUsize (len : ℕ) : ℕ := if len = valueNone then 0 else len

/-- The sums of offsets and `u32` lengths do not overflow a 64-bit `usize`. -/
def decodeFrame (buf : Bytes) (cursor : ℕ) : Except EngineError (Option DecodedFrame) :=
  if buf.length < cursor + frameHeaderLen then .ok none
  else if readAt 4 buf cursor ≠ decode magicWal1 then .ok none
  else
    let txId := readAt 8 buf (cursor + 4)
    match decodeOp (buf.getD (cursor + 12) 0) with
    | .error err => .error err
    | .ok op =>
      let keyLen := readAt 4 buf (cursor + 13)
      let valueLen := readAt 4 buf (cursor + 17)
      let keyLenUsize := lenUsize keyLen
      let valueLenUsize := lenUsize valueLen
      let bodyStart := cursor + frameHeaderLen
      let bodyEnd := bodyStart + keyLenUsize + valueLenUsize
      let crcEnd := bodyEnd + frameCrcLen
      if buf.length < crcEnd then .ok none
      else if (crc32cWithState (slice buf cursor (bodyEnd - cursor)) 0).toNat ≠
          readAt 4 buf bodyEnd then .ok none
      else
        .ok (some
          { txId := txId
            op := op
            key := slice buf bodyStart keyLenUsize
            value := if valueLen = valueNone then none
              else some (slice buf (bodyStart + keyLenUsize) valueLenUsize)
            nextOffset := if crcEnd = buf.length then none else some crcEnd })

/-- Only a put keeps its value. -/
def DecodedFrame.record (frame : DecodedFrame) : WalRecord where
  txId := frame.txId
  op := frame.op
  key := frame.key
  value := match frame.op with
    | .put => frame.value
    | _ => none

def frameEnd (cursor : ℕ) (frame : DecodedFrame) : ℕ :=
  cursor + frameHeaderLen + frame.key.length + (frame.value.map List.length).getD 0 + frameCrcLen

def decodeLoop (buf : Bytes) : ℕ → ℕ → ℕ → Except EngineError (List WalRecord × ℕ)
  | 0, _, lastValid => .ok ([], lastValid)
  | fuel + 1, cursor, lastValid =>
    match decodeFrame buf cursor with
    | .error err => .error err
    | .ok none => .ok ([], lastValid)
    | .ok (some frame) =>
      match frame.nextOffset with
      | none => .ok ([frame.record], frameEnd cursor frame)
      | some next =>
        (decodeLoop buf fuel next (frameEnd cursor frame)).map fun rest ↦
          (frame.record :: rest.1, rest.2)

/-- Every frame takes at least one byte, so the log's length bounds their
number. -/
def decodeAll (buf : Bytes) : Except EngineError (List WalRecord × ℕ) :=
  decodeLoop buf (buf.length + 1) 0 0

/-- `recover_records_with_truncation` of a log file; a missing file is an empty
one. -/
def recover (bytes : Bytes) : Except EngineError (List WalRecord × ℕ) :=
  if bytes = [] then .ok ([], 0)
  else if bytes.take 4 ≠ magicWal1 then
    .error (.corruptMessage ("WAL file uses an unsupported format: only the binary WAL1 format " ++
      "is accepted (legacy Arrow-IPC WAL files are no longer supported)"))
  else decodeAll bytes

/-! ## Reading a header -/

@[simp] theorem decodeOp_encodeOp (op : OpType) : decodeOp (encodeOp op) = .ok op := by
  cases op <;> rfl

@[simp] theorem length_frameHeader (txId : ℕ) (op : OpType) (keyLen valueLen : ℕ) :
    (frameHeader txId op keyLen valueLen).length = frameHeaderLen := by
  simp [frameHeader, frameHeaderLen, magicWal1]

section Header

variable {txId keyLen valueLen : ℕ} {op : OpType} (pre rest : Bytes)

theorem readAt_magic :
    readAt 4 (pre ++ (frameHeader txId op keyLen valueLen ++ rest)) pre.length =
      decode magicWal1 := by
  have hdata : pre ++ (frameHeader txId op keyLen valueLen ++ rest) =
      pre ++ (magicWal1 ++ (encode 8 txId ++ (encodeOp op ::
        (encode 4 keyLen ++ (encode 4 valueLen ++ rest))))) := by
    simp [frameHeader]
  have hslice : slice (pre ++ (frameHeader txId op keyLen valueLen ++ rest))
      pre.length 4 = magicWal1 := slice_eq hdata rfl rfl
  rw [readAt, hslice]

theorem readAt_txId (h : txId < 256 ^ 8) :
    readAt 8 (pre ++ (frameHeader txId op keyLen valueLen ++ rest))
      (pre.length + 4) = txId := by
  have hdata : pre ++ (frameHeader txId op keyLen valueLen ++ rest) =
      (pre ++ magicWal1) ++ (encode 8 txId ++ (encodeOp op ::
        (encode 4 keyLen ++ (encode 4 valueLen ++ rest)))) := by
    simp [frameHeader]
  exact readAt_eq hdata (by simp [magicWal1]) h

theorem getD_op :
    (pre ++ (frameHeader txId op keyLen valueLen ++ rest)).getD (pre.length + 12) 0 =
      encodeOp op := by
  have hdata : pre ++ (frameHeader txId op keyLen valueLen ++ rest) =
      (pre ++ (magicWal1 ++ encode 8 txId)) ++ (encodeOp op ::
        (encode 4 keyLen ++ (encode 4 valueLen ++ rest))) := by
    simp [frameHeader]
  have hlen : pre.length + 12 = (pre ++ (magicWal1 ++ encode 8 txId)).length := by
    simp [magicWal1]
  rw [hdata, hlen, List.getD_eq_getElem?_getD, List.getElem?_append_right (Nat.le_refl _)]
  simp

theorem readAt_keyLen (h : keyLen < 256 ^ 4) :
    readAt 4 (pre ++ (frameHeader txId op keyLen valueLen ++ rest))
      (pre.length + 13) = keyLen := by
  have hdata : pre ++ (frameHeader txId op keyLen valueLen ++ rest) =
      (pre ++ (magicWal1 ++ (encode 8 txId ++ [encodeOp op]))) ++
        (encode 4 keyLen ++ (encode 4 valueLen ++ rest)) := by
    simp [frameHeader]
  exact readAt_eq hdata (by simp [magicWal1]) h

theorem readAt_valueLen (h : valueLen < 256 ^ 4) :
    readAt 4 (pre ++ (frameHeader txId op keyLen valueLen ++ rest))
      (pre.length + 17) = valueLen := by
  have hdata : pre ++ (frameHeader txId op keyLen valueLen ++ rest) =
      (pre ++ (magicWal1 ++ (encode 8 txId ++ (encodeOp op ::
        encode 4 keyLen)))) ++ (encode 4 valueLen ++ rest) := by
    simp [frameHeader]
  exact readAt_eq hdata (by simp [magicWal1]) h

theorem decodeFrame_frameHeader (op : OpType) (htx : txId < 256 ^ 8) (hkey : keyLen < 256 ^ 4)
    (hvalue : valueLen < 256 ^ 4) :
    decodeFrame (pre ++ (frameHeader txId op keyLen valueLen ++ rest)) pre.length =
      let buf := pre ++ (frameHeader txId op keyLen valueLen ++ rest)
      let keyLenUsize := lenUsize keyLen
      let valueLenUsize := lenUsize valueLen
      let bodyStart := pre.length + frameHeaderLen
      let bodyEnd := bodyStart + keyLenUsize + valueLenUsize
      if buf.length < bodyEnd + frameCrcLen then .ok none
      else if (crc32cWithState (slice buf pre.length (bodyEnd - pre.length)) 0).toNat ≠
          readAt 4 buf bodyEnd then .ok none
      else
        .ok (some
          { txId := txId
            op := op
            key := slice buf bodyStart keyLenUsize
            value := if valueLen = valueNone then none
              else some (slice buf (bodyStart + keyLenUsize) valueLenUsize)
            nextOffset := if bodyEnd + frameCrcLen = buf.length then none
              else some (bodyEnd + frameCrcLen) }) := by
  have hlen : ¬(pre ++ (frameHeader txId op keyLen valueLen ++ rest)).length <
      pre.length + frameHeaderLen := by
    simp only [List.length_append, length_frameHeader]
    omega
  unfold decodeFrame
  rw [if_neg hlen, readAt_magic, if_neg (not_not.mpr rfl), readAt_txId pre rest htx, getD_op,
    readAt_keyLen pre rest hkey, readAt_valueLen pre rest hvalue, decodeOp_encodeOp]

end Header

/-! ## Whole frames -/

/-- A record that a frame can carry: the fields fit, no length is the one that
stands for an absent value, and only a put has a value. -/
structure InRange (record : WalRecord) : Prop where
  txId : record.txId < 2 ^ 64
  key : record.key.length < valueNone
  value : (record.value.getD []).length < valueNone
  shape : record.op ≠ .put → record.value = none

variable {record : WalRecord}

@[simp] theorem length_frameBody (record : WalRecord) :
    (frameBody record).length =
      frameHeaderLen + record.key.length + (record.value.getD []).length := by
  simp [frameBody, Nat.add_assoc]

@[simp] theorem length_frameBytes (record : WalRecord) :
    (frameBytes record).length =
      frameHeaderLen + record.key.length + (record.value.getD []).length + frameCrcLen := by
  simp [frameBytes, frameCrcLen]

theorem frameBytes_eq (record : WalRecord) :
    frameBytes record =
      frameHeader record.txId record.op record.key.length
        ((record.value.map List.length).getD valueNone) ++ (record.key ++ (record.value.getD [] ++
          encode 4 (crc32cWithState (frameBody record) 0).toNat)) := by
  simp [frameBytes, frameBody]

theorem frameBytes_ne_nil (record : WalRecord) : frameBytes record ≠ [] := by
  intro h
  have hlen := congrArg List.length h
  simp [frameCrcLen] at hlen

theorem valueLen_usize (hvalue : (record.value.getD []).length < valueNone) :
    (record.value.map List.length).getD valueNone ≤ maxU32 ∧
      lenUsize ((record.value.map List.length).getD valueNone) = (record.value.getD []).length := by
  cases hv : record.value with
  | none => exact ⟨by decide, by simp [lenUsize]⟩
  | some value =>
    rw [hv] at hvalue
    exact ⟨hvalue.le, if_neg hvalue.ne⟩

section

variable (h : InRange record)

include h

theorem InRange.lengths :
    (record.value.map List.length).getD valueNone < 256 ^ 4 ∧
    lenUsize record.key.length = record.key.length ∧
    lenUsize ((record.value.map List.length).getD valueNone) = (record.value.getD []).length := by
  obtain ⟨hmax, husize⟩ := valueLen_usize h.value
  exact ⟨hmax.trans_lt (by decide), if_neg h.key.ne, husize⟩

theorem InRange.value_eq :
    (if (record.value.map List.length).getD valueNone = valueNone then none
      else some (record.value.getD [])) = record.value := by
  have hvalue := h.value
  cases hv : record.value with
  | none => simp
  | some value =>
    rw [hv] at hvalue
    exact if_neg hvalue.ne

theorem InRange.record_eq (nextOffset : Option ℕ) :
    DecodedFrame.record ⟨record.txId, record.op, record.key, record.value, nextOffset⟩ =
      record := by
  obtain ⟨txId, op, key, value⟩ := record
  have hshape := h.shape
  cases op with
  | put => rfl
  | _ =>
    have hnone : value = none := hshape (by simp)
    rw [hnone]
    rfl

theorem decodeFrame_frameBytes (pre post : Bytes) :
    decodeFrame (pre ++ (frameBytes record ++ post)) pre.length =
      .ok (some
        { txId := record.txId
          op := record.op
          key := record.key
          value := record.value
          nextOffset := if post = [] then none
            else some (pre.length + (frameBytes record).length) }) := by
  obtain ⟨hvalueLen, hkeyUsize, hvalueUsize⟩ := h.lengths
  have hkeyLen : record.key.length < 256 ^ 4 := h.key.trans (by decide)
  set checksum := encode 4 (crc32cWithState (frameBody record) 0).toNat with hchecksum
  have hbuf : pre ++ (frameBytes record ++ post) =
      pre ++ (frameHeader record.txId record.op record.key.length
        ((record.value.map List.length).getD valueNone) ++
          (record.key ++ (record.value.getD [] ++ (checksum ++ post)))) := by
    simp [frameBytes, frameBody, hchecksum]
  have hbody : pre ++ (frameBytes record ++ post) =
      pre ++ (frameBody record ++ (checksum ++ post)) := by
    simp [frameBytes, hchecksum]
  have hend : pre.length + frameHeaderLen + record.key.length + (record.value.getD []).length =
      pre.length + (frameBody record).length := by
    simp [Nat.add_assoc]
  have hsum : slice (pre ++ (frameBytes record ++ post)) pre.length
      (pre.length + (frameBody record).length - pre.length) = frameBody record :=
    slice_eq hbody rfl (Nat.add_sub_cancel_left _ _)
  have hcrc : readAt 4 (pre ++ (frameBytes record ++ post))
      (pre.length + (frameBody record).length) = (crc32cWithState (frameBody record) 0).toNat :=
    readAt_eq (hbody.trans (by rw [← List.append_assoc])) List.length_append.symm
      (UInt32.toNat_lt _)
  have hkey : slice (pre ++ (frameBytes record ++ post))
      (pre.length + frameHeaderLen) record.key.length = record.key :=
    slice_eq (hbuf.trans (by rw [← List.append_assoc])) (by simp) rfl
  have hvalue : slice (pre ++ (frameBytes record ++ post))
      (pre.length + frameHeaderLen + record.key.length) (record.value.getD []).length =
        record.value.getD [] :=
    slice_eq (hbuf.trans (by rw [← List.append_assoc, ← List.append_assoc]))
      (by simp [Nat.add_assoc]) rfl
  have hlen : (pre ++ (frameBytes record ++ post)).length =
      pre.length + (frameBody record).length + frameCrcLen + post.length := by
    simp [Nat.add_assoc]
  have hread := decodeFrame_frameHeader pre
    (record.key ++ (record.value.getD [] ++ (checksum ++ post))) record.op h.txId hkeyLen hvalueLen
  rw [← hbuf] at hread
  rw [hread]
  dsimp only
  rw [hkeyUsize, hvalueUsize, hend, hsum, hcrc, hkey, hvalue, hlen, if_neg (by omega),
    if_neg (not_not.mpr rfl), h.value_eq]
  congr 3
  cases post with
  | nil => simp
  | cons b post => simp [Nat.add_assoc, frameCrcLen]

theorem decodeFrame_take_frameBytes (pre : Bytes) {n : ℕ} (hn : n < (frameBytes record).length) :
    decodeFrame (pre ++ (frameBytes record).take n) pre.length = .ok none := by
  by_cases hheader : n < frameHeaderLen
  · unfold decodeFrame
    rw [if_pos]
    rw [List.length_append, List.length_take]
    omega
  · obtain ⟨hvalueLen, hkeyUsize, hvalueUsize⟩ := h.lengths
    have hkeyLen : record.key.length < 256 ^ 4 := h.key.trans (by decide)
    have htake : (frameBytes record).take n =
        frameHeader record.txId record.op record.key.length
          ((record.value.map List.length).getD valueNone) ++
            (record.key ++ (record.value.getD [] ++
              encode 4 (crc32cWithState (frameBody record) 0).toNat)).take
                (n - frameHeaderLen) := by
      rw [frameBytes_eq, List.take_append, length_frameHeader, List.take_of_length_le]
      rw [length_frameHeader]
      omega
    have hlen : ((frameBytes record).take n).length = n := by
      rw [List.length_take]
      omega
    rw [length_frameBytes] at hn
    rw [htake] at hlen ⊢
    rw [decodeFrame_frameHeader pre _ record.op h.txId hkeyLen hvalueLen]
    dsimp only
    rw [hkeyUsize, hvalueUsize, if_pos]
    rw [List.length_append, hlen]
    omega

end

/-! ## Whole logs -/

def frameAt (buf : Bytes) (cursor : ℕ) : Except EngineError (Option (WalRecord × ℕ)) :=
  (decodeFrame buf cursor).map fun frame ↦
    frame.map fun frame ↦ (frame.record, frameEnd cursor frame)

theorem length_slice {buf : Bytes} {offset len : ℕ} (h : offset + len ≤ buf.length) :
    (slice buf offset len).length = len := by
  rw [slice, List.length_take, List.length_drop]
  omega

theorem nextOffset_eq {buf : Bytes} {cursor : ℕ} {frame : DecodedFrame}
    (h : decodeFrame buf cursor = .ok (some frame)) :
    frameEnd cursor frame ≤ buf.length ∧
      frame.nextOffset = if frameEnd cursor frame = buf.length then none
        else some (frameEnd cursor frame) := by
  unfold decodeFrame at h
  split at h
  · cases h
  split at h
  · cases h
  split at h
  · cases h
  dsimp only at h
  split at h
  · cases h
  rename_i hfits
  split at h
  · cases h
  have hframe := Option.some.inj (Except.ok.inj h)
  have hend : frameEnd cursor frame = cursor + frameHeaderLen +
      lenUsize (readAt 4 buf (cursor + 13)) +
      lenUsize (readAt 4 buf (cursor + 17)) + frameCrcLen := by
    have hkey : frame.key.length = lenUsize (readAt 4 buf (cursor + 13)) := by
      rw [← hframe]
      exact length_slice (by omega)
    have hvalue : (frame.value.map List.length).getD 0 = lenUsize (readAt 4 buf (cursor + 17)) := by
      rw [← hframe]
      dsimp only
      split
      · rename_i hnone
        rw [hnone]
        rfl
      · exact length_slice (by omega)
    rw [frameEnd, hkey, hvalue]
  rw [hend]
  refine ⟨Nat.le_of_not_lt hfits, ?_⟩
  rw [← hframe]

theorem decodeLoop_eq (buf : Bytes) (fuel : ℕ) {cursor : ℕ} (hcursor : cursor ≤ buf.length) :
    decodeLoop buf fuel cursor cursor = decodeFrom frameAt buf fuel cursor := by
  induction fuel generalizing cursor with
  | zero => rfl
  | succ fuel ih =>
    rw [decodeLoop, decodeFrom]
    by_cases hlt : cursor < buf.length
    · rw [if_pos hlt, frameAt]
      cases hframe : decodeFrame buf cursor with
      | error err => rfl
      | ok result =>
        cases result with
        | none => rfl
        | some frame =>
          obtain ⟨hle, hnext⟩ := nextOffset_eq hframe
          simp only [Except.map, Option.map_some, hnext]
          by_cases hlast : frameEnd cursor frame = buf.length
          · have hdone : decodeFrom frameAt buf fuel (frameEnd cursor frame) =
                .ok ([], frameEnd cursor frame) := by
              cases fuel with
              | zero => rfl
              | succ fuel => rw [decodeFrom, if_neg (by omega)]
            simp only [hlast] at hdone ⊢
            simp [hdone]
          · simp only [hlast, if_false]
            rw [ih hle]
    · have hstop : decodeFrame buf cursor = .ok none := by
        unfold decodeFrame
        rw [if_pos]
        simp only [frameHeaderLen]
        omega
      rw [if_neg hlt, hstop]

theorem decodes (h : InRange record) : Decodes frameAt frameBytes record where
  nonempty := frameBytes_ne_nil record
  complete pre post := by
    rw [frameAt, decodeFrame_frameBytes h, length_frameBytes]
    have hvalue : (record.value.map List.length).getD 0 = (record.value.getD []).length := by
      cases record.value <;> rfl
    simp only [Except.map, Option.map_some, h.record_eq, frameEnd, hvalue, Nat.add_assoc]

theorem decodeAll_eq (buf : Bytes) : decodeAll buf = FramedLog.decodeAll frameAt buf :=
  decodeLoop_eq buf (buf.length + 1) (Nat.zero_le _)

def IsTorn (tail : Bytes) : Prop :=
  tail = [] ∨ ∃ record n, InRange record ∧ n < (frameBytes record).length ∧
    tail = (frameBytes record).take n

theorem decodeAll_append {tail : Bytes}
    (hrecords : ∀ record ∈ records, InRange record) (htail : IsTorn tail) :
    decodeAll (records.flatMap frameBytes ++ tail) =
      .ok (records, (records.flatMap frameBytes).length) := by
  rw [decodeAll_eq]
  apply decodeAll_of_torn fun record hrecord ↦ decodes (hrecords record hrecord)
  refine htail.imp_right ?_
  rintro ⟨record, n, hrange, hn, rfl⟩
  rw [frameAt, decodeFrame_take_frameBytes hrange _ hn]
  rfl

theorem isTorn_leftover (n : ℕ) (hrecords : ∀ record ∈ records, InRange record) :
    IsTorn (leftover frameBytes n records) := by
  unfold leftover
  split
  · exact .inl rfl
  · rename_i record r htorn
    obtain ⟨hmem, -, hlt⟩ := torn_eq_some htorn
    exact .inr ⟨record, r, hrecords record hmem, hlt, rfl⟩

/-- Decoding a log that is cut anywhere gives the complete frames. -/
theorem decodeAll_take (n : ℕ) (hrecords : ∀ record ∈ records, InRange record) :
    decodeAll ((records.flatMap frameBytes).take n) =
      .ok (complete frameBytes n records,
        ((complete frameBytes n records).flatMap frameBytes).length) := by
  rw [take_flatMap]
  refine decodeAll_append (fun record hrecord ↦ hrecords record ?_) (isTorn_leftover n hrecords)
  exact (prefix_complete n records).subset hrecord

theorem take_four_frameBytes (record : WalRecord) : (frameBytes record).take 4 = magicWal1 := by
  simp [frameBytes, frameBody, frameHeader, magicWal1]

theorem recover_take {n : ℕ} (hn : n = 0 ∨ 4 ≤ n) (hrecords : ∀ record ∈ records, InRange record) :
    recover ((records.flatMap frameBytes).take n) =
      .ok (complete frameBytes n records,
        ((complete frameBytes n records).flatMap frameBytes).length) := by
  have hall := decodeAll_take n hrecords
  unfold recover
  split
  · rename_i hnil
    rw [hnil] at hall
    exact hall
  · rename_i hne
    rw [if_neg, hall]
    rw [not_not]
    cases records with
    | nil => simp at hne
    | cons record records =>
      have hfour : 4 ≤ n := by
        rcases hn with rfl | hfour
        · simp at hne
        · exact hfour
      have hlong : 4 ≤ (frameBytes record).length := by
        rw [length_frameBytes, frameCrcLen]
        omega
      rw [List.take_take, Nat.min_eq_left hfour, List.flatMap_cons,
        List.take_append_of_le_length hlong, take_four_frameBytes]

theorem recover_append {tail : Bytes}
    (hrecords : ∀ record ∈ records, InRange record) (htail : IsTorn tail) (hne : records ≠ []) :
    recover (records.flatMap frameBytes ++ tail) =
      .ok (records, (records.flatMap frameBytes).length) := by
  obtain ⟨record, rest, rfl⟩ := List.exists_cons_of_ne_nil hne
  have hlong : 4 ≤ (frameBytes record).length := by
    rw [length_frameBytes, frameCrcLen]
    omega
  have hbytes : ((record :: rest).flatMap frameBytes ++ tail).take 4 = magicWal1 := by
    rw [List.flatMap_cons, List.append_assoc, List.take_append_of_le_length hlong,
      take_four_frameBytes]
  have hnil : (record :: rest).flatMap frameBytes ++ tail ≠ [] := by
    intro h
    rw [h] at hbytes
    cases hbytes
  rw [recover, if_neg hnil, if_neg (not_not.mpr hbytes), decodeAll_append hrecords htail]

theorem recover_flatMap (hrecords : ∀ record ∈ records, InRange record) :
    recover (records.flatMap frameBytes) = .ok (records, (records.flatMap frameBytes).length) := by
  by_cases hnil : records = []
  · subst hnil
    rfl
  · have h := recover_append hrecords (.inl rfl) hnil
    rwa [List.append_nil] at h

def Fits (record : WalRecord) : Prop :=
  record.key.length ≤ maxU32 ∧ (record.value.getD []).length ≤ maxU32

theorem InRange.fits (h : InRange record) : Fits record := ⟨h.key.le, h.value.le⟩

theorem encodeFrame_eq_ok_iff (record : WalRecord) (frame : Bytes) :
    encodeFrame record = .ok frame ↔ Fits record ∧ frame = frameBytes record := by
  have hlen : (record.value.map List.length).getD 0 = (record.value.getD []).length := by
    cases record.value <;> rfl
  rw [encodeFrame, hlen, Fits]
  split_ifs with hvalue hkey
  · simp [Nat.not_le_of_gt hvalue]
  · simp [Nat.not_le_of_gt hkey]
  · simp [Nat.le_of_not_gt hvalue, Nat.le_of_not_gt hkey, eq_comm]

theorem encodeRecords_eq_ok_iff {bytes : Bytes} :
    encodeRecords records = .ok bytes ↔
      (∀ record ∈ records, Fits record) ∧ bytes = records.flatMap frameBytes :=
  encodeAll_eq_ok_iff encodeRecords rfl (fun _ _ ↦ rfl) encodeFrame_eq_ok_iff

end Wal

end HatP
