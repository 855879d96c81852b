import HatP.Engine
import HatP.Lib.Fallible
import HatP.Lib.RawReader
import HatP.Rows.Scalar

/-!
# The row codec

A row is stored as one field for each column: a zero byte for a missing value, or a
one byte and the value.  The decoder is driven by the schema.  It reads fixed-width
values without looking at the length of the payload.
-/

namespace HatP

open LittleEndian

/-! ## Encoding -/

def putLenPrefixed (bytes : Bytes) : Except EngineError Bytes :=
  if bytes.length < 2 ^ 32 then .ok (encode 4 bytes.length ++ bytes)
  else .error (.outOfRange "row value > u32::MAX")

def scalarToValueBytes : ScalarValue → Except EngineError Bytes
  | .int8 (some v) => .ok [v.toUInt8]
  | .int16 (some v) => .ok (encode 2 v.toUInt16.toNat)
  | .int32 (some v) => .ok (encode 4 v.toUInt32.toNat)
  | .int64 (some v) => .ok (encode 8 v.toUInt64.toNat)
  | .uint8 (some v) => .ok [v]
  | .uint16 (some v) => .ok (encode 2 v.toNat)
  | .uint32 (some v) => .ok (encode 4 v.toNat)
  | .uint64 (some v) => .ok (encode 8 v.toNat)
  | .float32 (some bits) => .ok (encode 4 bits.toNat)
  | .float64 (some bits) => .ok (encode 8 bits.toNat)
  | .boolean (some v) => .ok [if v then 1 else 0]
  | .utf8 (some s) | .largeUtf8 (some s) => putLenPrefixed s
  | .binary (some v) | .largeBinary (some v) => putLenPrefixed v
  | .date32 (some v) => .ok (encode 4 v.toUInt32.toNat)
  | .date64 (some v) => .ok (encode 8 v.toUInt64.toNat)
  | .timestamp _ (some v) _ => .ok (encode 8 v.toUInt64.toNat)
  | .time32Second (some v) | .time32Millisecond (some v) => .ok (encode 4 v.toUInt32.toNat)
  | .time64Microsecond (some v) | .time64Nanosecond (some v) => .ok (encode 8 v.toUInt64.toNat)
  | .intervalYearMonth (some v) => .ok (encode 4 v.toUInt32.toNat)
  | .intervalDayTime (some v) =>
    .ok (encode 4 v.days.toUInt32.toNat ++ encode 4 v.milliseconds.toUInt32.toNat)
  | .intervalMonthDayNano (some v) =>
    .ok (encode 4 v.months.toUInt32.toNat ++ encode 4 v.days.toUInt32.toNat ++
      encode 8 v.nanoseconds.toUInt64.toNat)
  | .duration _ (some v) => .ok (encode 8 v.toUInt64.toNat)
  | scalar => .error (.corruptMessage ("row codec: unsupported value type " ++
      scalar.dataType.display))

def encodeColumn (slot : Slot) : Except EngineError Bytes :=
  let scalar := arraySlotToScalar slot
  if scalar.isNull then .ok [0]
  else do
    let bytes ← scalarToValueBytes scalar
    return 1 :: bytes

def encodeRowNarrow (batch : RecordBatch) (row : Fin batch.numRows)
    (cols : List (Fin batch.schema.length)) : Except EngineError Bytes :=
  cols.foldlM (fun out col ↦ do
    let field ← encodeColumn (batch.slot row col)
    return out ++ field) []

def encodeRow (batch : RecordBatch) (row : Fin batch.numRows) : Except EngineError Bytes :=
  encodeRowNarrow batch row (List.finRange batch.schema.length)

/-! ## Decoding -/

abbrev RowReader := RawReader UInt8 EngineError

def typedNull : DataType → ScalarValue
  | .int8 => .int8 none
  | .int16 => .int16 none
  | .int32 => .int32 none
  | .int64 => .int64 none
  | .uint8 => .uint8 none
  | .uint16 => .uint16 none
  | .uint32 => .uint32 none
  | .uint64 => .uint64 none
  | .float32 => .float32 none
  | .float64 => .float64 none
  | .boolean => .boolean none
  | .utf8 => .utf8 none
  | .largeUtf8 => .largeUtf8 none
  | .binary => .binary none
  | .largeBinary => .largeBinary none
  | .date32 => .date32 none
  | .date64 => .date64 none
  | .timestamp unit tz => .timestamp unit none tz
  | .time32Second => .time32Second none
  | .time32Millisecond => .time32Millisecond none
  | .time64Microsecond => .time64Microsecond none
  | .time64Nanosecond => .time64Nanosecond none
  | .intervalYearMonth => .intervalYearMonth none
  | .intervalDayTime => .intervalDayTime none
  | .intervalMonthDayNano => .intervalMonthDayNano none
  | .duration unit => .duration unit none
  | _ => .null

section Readers

open RawReader

def readByte : RowReader UInt8 := do
  let bytes ← unchecked 1
  return bytes.headD 0

def readU16 : RowReader UInt16 := do
  let bytes ← unchecked 2
  return UInt16.ofNat (decode bytes)

def readU32 : RowReader UInt32 := do
  let bytes ← unchecked 4
  return UInt32.ofNat (decode bytes)

def readU64 : RowReader UInt64 := do
  let bytes ← unchecked 8
  return UInt64.ofNat (decode bytes)

def readI32 : RowReader Int32 := do
  let bits ← readU32
  return bits.toInt32

def readI64 : RowReader Int64 := do
  let bits ← readU64
  return bits.toInt64

def takeLenPrefixed : RowReader Bytes := do
  let lenBytes ← take 4 (.corrupt "row codec: truncated length")
  take (decode lenBytes) (.corrupt "row codec: truncated payload")

def takeString : RowReader Bytes := do
  let s ← takeLenPrefixed
  if validUtf8 s then return s else fail (.corrupt "row codec: non-UTF8 string")

def valueBytesToScalar : DataType → RowReader ScalarValue
  | .int8 => do
    let bits ← readByte
    return .int8 (some bits.toInt8)
  | .int16 => do
    let bits ← readU16
    return .int16 (some bits.toInt16)
  | .int32 => do
    let v ← readI32
    return .int32 (some v)
  | .int64 => do
    let v ← readI64
    return .int64 (some v)
  | .uint8 => do
    let v ← readByte
    return .uint8 (some v)
  | .uint16 => do
    let v ← readU16
    return .uint16 (some v)
  | .uint32 => do
    let v ← readU32
    return .uint32 (some v)
  | .uint64 => do
    let v ← readU64
    return .uint64 (some v)
  | .float32 => do
    let bits ← readU32
    return .float32 (some bits)
  | .float64 => do
    let bits ← readU64
    return .float64 (some bits)
  | .boolean => do
    let byte ← readByte
    return .boolean (some (byte != 0))
  | .utf8 => do
    let s ← takeString
    return .utf8 (some s)
  | .largeUtf8 => do
    let s ← takeString
    return .largeUtf8 (some s)
  | .binary => do
    let bytes ← takeLenPrefixed
    return .binary (some bytes)
  | .largeBinary => do
    let bytes ← takeLenPrefixed
    return .largeBinary (some bytes)
  | .date32 => do
    let v ← readI32
    return .date32 (some v)
  | .date64 => do
    let v ← readI64
    return .date64 (some v)
  | .timestamp unit tz => do
    let v ← readI64
    return .timestamp unit (some v) tz
  | .time32Second => do
    let v ← readI32
    return .time32Second (some v)
  | .time32Millisecond => do
    let v ← readI32
    return .time32Millisecond (some v)
  | .time64Microsecond => do
    let v ← readI64
    return .time64Microsecond (some v)
  | .time64Nanosecond => do
    let v ← readI64
    return .time64Nanosecond (some v)
  | .intervalYearMonth => do
    let months ← readI32
    return .intervalYearMonth (some months)
  | .intervalDayTime => do
    let days ← readI32
    let milliseconds ← readI32
    return .intervalDayTime (some ⟨days, milliseconds⟩)
  | .intervalMonthDayNano => do
    let months ← readI32
    let days ← readI32
    let nanoseconds ← readI64
    return .intervalMonthDayNano (some ⟨months, days, nanoseconds⟩)
  | .duration unit => do
    let v ← readI64
    return .duration unit (some v)
  | dataType => fail (.corruptMessage ("row codec: unsupported column type " ++ dataType.display))

def fieldType (schema : List ColumnField) (col : ℕ) : RowReader DataType :=
  match schema[col]? with
  | some field => return field.dataType
  | none => fail (.corruptMessage (s!"row codec: column index {col} out of range (schema has " ++
      s!"{schema.length} columns)"))

def nullMarker : RowReader UInt8 := element (.corrupt "row codec: truncated null marker")

def decodeMarked (dataType : DataType) (marker : UInt8) : RowReader ScalarValue :=
  if marker = 0 then return typedNull dataType else valueBytesToScalar dataType

def decodeColumn (schema : List ColumnField) (col : ℕ) : RowReader ScalarValue := do
  let dataType ← fieldType schema col
  let marker ← nullMarker
  decodeMarked dataType marker

def decodeRowFull (schema : List ColumnField) (ncols : ℕ) : RowReader (List ScalarValue) :=
  all (decodeColumn schema) (List.range ncols)

/-- Which columns are requested, and their places in the output. -/
def columnTables (ncols : ℕ) (cols : List ℕ) : List Bool × List ℕ :=
  cols.zipIdx.foldl (fun tables entry ↦
    if entry.1 < ncols then (tables.1.set entry.1 true, tables.2.set entry.1 entry.2) else tables)
    (List.replicate ncols false, List.replicate ncols (2 ^ 64 - 1))

def decodeWanted (schema : List ColumnField) (wanted : List Bool) (colOrder : List ℕ) :
    List ℕ → List (Option ScalarValue) → RowReader (List (Option ScalarValue))
  | [], values => return values
  | col :: rest, values => do
    let dataType ← fieldType schema col
    let marker ← nullMarker
    if wanted.getD col false then
      let scalar ← decodeMarked dataType marker
      decodeWanted schema wanted colOrder rest
        (values.set (colOrder.getD col (2 ^ 64 - 1)) (some scalar))
    else if marker ≠ 0 then
      let _ ← valueBytesToScalar dataType
      decodeWanted schema wanted colOrder rest values
    else decodeWanted schema wanted colOrder rest values

def decodeRowNarrow (schema : List ColumnField) (cols : List ℕ) : RowReader (List ScalarValue) :=
  let ncols := schema.length
  if cols.length = ncols ∧ cols.zipIdx.all fun entry ↦ entry.2 = entry.1 then
    decodeRowFull schema ncols
  else do
    let (wanted, colOrder) := columnTables ncols cols
    let values ← decodeWanted schema wanted colOrder (List.range ncols)
      (List.replicate cols.length none)
    return values.map fun value ↦ value.getD .null

def decodeRowValues (schema : List ColumnField) : RowReader (List ScalarValue) :=
  decodeRowNarrow schema (List.range schema.length)

/-- The vector is cleared first and keeps the columns in front of an error. -/
def decodeRowInto (schema : List ColumnField) (s : Slice UInt8) (_out : List ScalarValue) :
    Except EngineError Cursor × List ScalarValue :=
  go (List.range schema.length) (.after 0) []
where
  go : List ℕ → Cursor → List ScalarValue → Except EngineError Cursor × List ScalarValue
  | [], c, out => (.ok c, out)
  | col :: rest, c, out =>
    match decodeColumn schema col s c with
    | .error err => (.error err, out)
    | .ok (scalar, next) => go rest next (out ++ [scalar])

end Readers

/-! ## One value -/

section Values

open RawReader

variable {field : Bytes}

theorem reads_readByte (v : UInt8) : Reads readByte [v] v :=
  (reads_unchecked [v]).map fun bytes ↦ bytes.headD 0

theorem reads_unchecked_encode (width n : ℕ) :
    Reads (unchecked width : RowReader Bytes) (encode width n) (encode width n) := by
  have h : Reads (unchecked (encode width n).length : RowReader Bytes) _ _ := reads_unchecked _
  rwa [length_encode] at h

theorem reads_readU16 (v : UInt16) : Reads readU16 (encode 2 v.toNat) v := by
  have h := (reads_unchecked_encode 2 v.toNat).map fun bytes ↦ UInt16.ofNat (decode bytes)
  rwa [UInt16.ofNat_decode_encode] at h

theorem reads_readU32 (v : UInt32) : Reads readU32 (encode 4 v.toNat) v := by
  have h := (reads_unchecked_encode 4 v.toNat).map fun bytes ↦ UInt32.ofNat (decode bytes)
  rwa [UInt32.ofNat_decode_encode] at h

theorem reads_readU64 (v : UInt64) : Reads readU64 (encode 8 v.toNat) v := by
  have h := (reads_unchecked_encode 8 v.toNat).map fun bytes ↦ UInt64.ofNat (decode bytes)
  rwa [UInt64.ofNat_decode_encode] at h

theorem reads_readI32 (v : Int32) : Reads readI32 (encode 4 v.toUInt32.toNat) v :=
  (reads_readU32 v.toUInt32).map UInt32.toInt32

theorem reads_readI64 (v : Int64) : Reads readI64 (encode 8 v.toUInt64.toNat) v :=
  (reads_readU64 v.toUInt64).map UInt64.toInt64

theorem reads_takeLenPrefixed {bytes : Bytes} (h : putLenPrefixed bytes = .ok field) :
    Reads takeLenPrefixed field bytes := by
  rw [putLenPrefixed] at h
  split at h
  next hlen =>
    cases h
    have hfirst := reads_take (encode 4 bytes.length)
      (EngineError.corrupt "row codec: truncated length")
    rw [length_encode] at hfirst
    refine hfirst.bind ?_
    rw [decode_encode hlen]
    exact reads_take bytes _
  next => cases h

theorem reads_takeString {s : Bytes} (hvalid : validUtf8 s = true)
    (h : putLenPrefixed s = .ok field) : Reads takeString field s := by
  rw [← List.append_nil field]
  refine (reads_takeLenPrefixed h).bind ?_
  rw [if_pos hvalid]
  exact .pure s

theorem reads_valueBytesToScalar {slot : Slot}
    (h : scalarToValueBytes (arraySlotToScalar slot) = .ok field) :
    Reads (valueBytesToScalar slot.dataType) field slot.scalar := by
  obtain ⟨dataType, value⟩ := slot
  cases value with
  | none => cases h
  | some v =>
    cases dataType with
    | null => exact v.elim
    | int8 => cases h; exact (reads_readByte v.toUInt8).map _
    | int16 => cases h; exact (reads_readU16 v.toUInt16).map _
    | int32 | date32 => cases h; exact (reads_readI32 v).map _
    | int64 | date64 | timestamp unit tz => cases h; exact (reads_readI64 v).map _
    | uint8 => cases h; exact (reads_readByte v).map _
    | uint16 => cases h; exact (reads_readU16 v).map _
    | uint32 | float32 => cases h; exact (reads_readU32 v).map _
    | uint64 | float64 => cases h; exact (reads_readU64 v).map _
    | boolean =>
      cases h
      cases v with
      | false => exact (reads_readByte 0).map _
      | true => exact (reads_readByte 1).map _
    | utf8 | largeUtf8 => exact (reads_takeString v.property h).map _
    | binary | largeBinary => exact (reads_takeLenPrefixed h).map _
    | time32Second | time32Millisecond | time64Microsecond | time64Nanosecond
    | intervalYearMonth | intervalDayTime | intervalMonthDayNano | duration | other => cases h

end Values

/-! ## One column -/

def DataType.extracted : DataType → Bool
  | .int8 | .int16 | .int32 | .int64 | .uint8 | .uint16 | .uint32 | .uint64 | .float32 | .float64
  | .boolean | .utf8 | .largeUtf8 | .binary | .largeBinary | .date32 | .date64
  | .timestamp _ _ => true
  | _ => false

/-- The slot survives being stored: it is extracted, or it is empty and its type has a
typed null. -/
def Slot.Carried (slot : Slot) : Prop :=
  slot.dataType.extracted = true ∨ slot.value = none ∧ ∀ name, slot.dataType ≠ .other name

def Slot.recovered (slot : Slot) : ScalarValue :=
  if slot.dataType.extracted && slot.value.isSome then slot.scalar else typedNull slot.dataType

variable {bytes : Bytes} {batch : RecordBatch}

theorem isNull_arraySlotToScalar (slot : Slot) :
    (arraySlotToScalar slot).isNull = !(slot.dataType.extracted && slot.value.isSome) := by
  obtain ⟨dataType, value⟩ := slot
  cases value with
  | none => simp [arraySlotToScalar, ScalarValue.isNull]
  | some v => cases dataType <;> rfl

theorem isNull_typedNull (dataType : DataType) : (typedNull dataType).isNull = true := by
  cases dataType <;> rfl

theorem Slot.isNull_scalar (slot : Slot) : slot.scalar.isNull = slot.value.isNone := by
  obtain ⟨dataType, value⟩ := slot
  cases value with
  | none => cases dataType <;> rfl
  | some v =>
    cases dataType with
    | null => exact v.elim
    | _ => rfl

theorem Slot.scalar_of_empty {slot : Slot} (hempty : slot.value = none)
    (hlisted : ∀ name, slot.dataType ≠ .other name) : slot.scalar = typedNull slot.dataType := by
  obtain ⟨dataType, value⟩ := slot
  dsimp only at hempty hlisted
  subst hempty
  cases dataType with
  | other name => exact absurd rfl (hlisted name)
  | _ => rfl

theorem Slot.recovered_eq_scalar_iff (slot : Slot) :
    slot.recovered = slot.scalar ↔ slot.Carried := by
  by_cases hextracted : slot.dataType.extracted = true
  · refine iff_of_true ?_ (.inl hextracted)
    rw [recovered, hextracted, Bool.true_and]
    split
    · rfl
    next hvalue =>
      have hempty : slot.value = none := Option.not_isSome_iff_eq_none.mp hvalue
      refine (scalar_of_empty hempty fun name hname ↦ ?_).symm
      rw [hname] at hextracted
      cases hextracted
  · rw [Bool.not_eq_true] at hextracted
    rw [recovered, hextracted, Bool.false_and, if_neg Bool.false_ne_true, Carried, hextracted,
      or_iff_right Bool.false_ne_true]
    constructor
    · intro heq
      have hnull := slot.isNull_scalar
      rw [← heq, isNull_typedNull] at hnull
      refine ⟨Option.isNone_iff_eq_none.mp hnull.symm, fun name hname ↦ ?_⟩
      obtain ⟨dataType, value⟩ := slot
      cases hname
      cases heq
    · intro h
      exact (scalar_of_empty h.1 h.2).symm

section Columns

open RawReader

def decodeTyped (dataType : DataType) : RowReader ScalarValue := do
  let marker ← nullMarker
  decodeMarked dataType marker

theorem decodeRowFull_eq (schema : List ColumnField) :
    decodeRowFull schema schema.length = all decodeTyped (schema.map ColumnField.dataType) := by
  have hrange : List.range schema.length = (List.finRange schema.length).map Fin.val :=
    List.map_coe_finRange_eq_range.symm
  have hschema : schema.map ColumnField.dataType =
      (List.finRange schema.length).map fun col ↦ (schema.get col).dataType := by
    nth_rewrite 1 [← List.map_get_finRange schema]
    rw [List.map_map]
    rfl
  rw [decodeRowFull, hrange, hschema, all_map, all_map]
  refine all_congr fun col _ ↦ ?_
  rw [decodeColumn, fieldType, List.getElem?_eq_getElem col.isLt]
  rfl

theorem decodeRowValues_eq (schema : List ColumnField) :
    decodeRowValues schema = all decodeTyped (schema.map ColumnField.dataType) := by
  have hidentity : ∀ entry ∈ (List.range schema.length).zipIdx, entry.2 = entry.1 := by
    intro entry hentry
    obtain ⟨_, hlt, heq⟩ := List.mem_zipIdx hentry
    simpa using heq.symm
  rw [decodeRowValues, decodeRowNarrow, if_pos, decodeRowFull_eq]
  exact ⟨List.length_range, List.all_eq_true.mpr fun entry h ↦ decide_eq_true (hidentity entry h)⟩

theorem reads_decodeTyped {slot : Slot} {field : Bytes} (h : encodeColumn slot = .ok field) :
    Reads (decodeTyped slot.dataType) field slot.recovered := by
  have hnull := isNull_arraySlotToScalar slot
  rw [encodeColumn, hnull] at h
  rw [Slot.recovered]
  cases hstored : slot.dataType.extracted && slot.value.isSome with
  | false =>
    rw [hstored] at h
    cases h
    exact (reads_element 0 _).bind (.pure _)
  | true =>
    rw [hstored] at h
    obtain ⟨bytes, hbytes, ⟨⟩⟩ := Fallible.bind_eq_ok h
    exact (reads_element 1 _).bind (reads_valueBytesToScalar hbytes)

end Columns

/-! ## Narrow decoding -/

section Narrow

open RawReader

def placeColumn (wanted : List Bool) (colOrder : List ℕ) (values : List (Option ScalarValue))
    (entry : ℕ × ScalarValue) : List (Option ScalarValue) :=
  if wanted.getD entry.1 false then
    values.set (colOrder.getD entry.1 (2 ^ 64 - 1)) (some entry.2)
  else values

/-- Every column is decoded; the requested ones are kept. -/
theorem decodeWanted_eq (schema : List ColumnField) (wanted : List Bool) (colOrder todo : List ℕ)
    (values : List (Option ScalarValue)) :
    decodeWanted schema wanted colOrder todo values = (do
      let scalars ← all (decodeColumn schema) todo
      return (todo.zip scalars).foldl (placeColumn wanted colOrder) values) := by
  induction todo generalizing values with
  | nil => rfl
  | cons col todo ih =>
    rw [decodeWanted, all, decodeColumn]
    simp only [bind_assoc, pure_bind, List.zip_cons_cons, List.foldl_cons]
    refine bind_congr fun dataType ↦ bind_congr fun marker ↦ ?_
    simp only [placeColumn]
    by_cases hwanted : wanted.getD col false = true
    · rw [if_pos hwanted]
      simp only [ih, if_pos hwanted]
    · rw [if_neg hwanted]
      simp only [ih, if_neg hwanted, decodeMarked]
      by_cases hmarker : marker = 0
      · rw [if_neg (not_not_intro hmarker), if_pos hmarker, pure_bind]
      · rw [if_pos hmarker, if_neg hmarker]

def projectColumns (ncols : ℕ) (cols : List ℕ) (scalars : List ScalarValue) : List ScalarValue :=
  let (wanted, colOrder) := columnTables ncols cols
  (((List.range ncols).zip scalars).foldl (placeColumn wanted colOrder)
    (List.replicate cols.length none)).map fun value ↦ value.getD .null

/-- Without the fast path, narrow decoding is full decoding and a projection. -/
theorem decodeRowNarrow_eq {schema : List ColumnField} {cols : List ℕ}
    (h : ¬(cols.length = schema.length ∧ cols.zipIdx.all fun entry ↦ entry.2 = entry.1)) :
    decodeRowNarrow schema cols = (do
      let scalars ← decodeRowFull schema schema.length
      return projectColumns schema.length cols scalars) := by
  rw [decodeRowNarrow, if_neg h]
  change (decodeWanted schema _ _ _ _ >>= _) = _
  rw [decodeWanted_eq, bind_assoc]
  rfl

end Narrow

/-! ## Rows -/

def Slot.field (slot : Slot) : Bytes :=
  match encodeColumn slot with
  | .ok field => field
  | .error _ => []

theorem encodeColumns_eq_ok {α : Type} (slot : α → Slot) {cols : List α} {out : Bytes}
    (h : cols.foldlM (fun out col ↦ do
      let field ← encodeColumn (slot col)
      return out ++ field) out = .ok bytes) :
    bytes = out ++ (cols.map slot).flatMap Slot.field ∧
      ∀ col ∈ cols, encodeColumn (slot col) = .ok (slot col).field := by
  induction cols generalizing out with
  | nil =>
    cases h
    simp
  | cons col cols ih =>
    rw [List.foldlM_cons] at h
    obtain ⟨_, hfirst, hrest⟩ := Fallible.bind_eq_ok h
    obtain ⟨field, hcol, ⟨⟩⟩ := Fallible.bind_eq_ok hfirst
    obtain ⟨hbytes, hcols⟩ := ih hrest
    have hfield : (slot col).field = field := by rw [Slot.field, hcol]
    constructor
    · rw [hbytes, List.map_cons, List.flatMap_cons, hfield, List.append_assoc]
    · rw [List.forall_mem_cons]
      exact ⟨by rw [hcol, hfield], hcols⟩

theorem encodeRowNarrow_eq_ok {row : Fin batch.numRows} {cols : List (Fin batch.schema.length)}
    (h : encodeRowNarrow batch row cols = .ok bytes) :
    bytes = (cols.map (batch.slot row)).flatMap Slot.field ∧
      ∀ slot ∈ cols.map (batch.slot row), encodeColumn slot = .ok slot.field := by
  obtain ⟨hbytes, hcols⟩ := encodeColumns_eq_ok (batch.slot row) h
  refine ⟨hbytes, fun slot hslot ↦ ?_⟩
  obtain ⟨col, hcol, rfl⟩ := List.mem_map.mp hslot
  exact hcols col hcol

theorem encodeRowNarrow_of_ok {row : Fin batch.numRows} {cols : List (Fin batch.schema.length)}
    (h : ∀ col ∈ cols, encodeColumn (batch.slot row col) = .ok (batch.slot row col).field) :
    encodeRowNarrow batch row cols = .ok ((cols.map (batch.slot row)).flatMap Slot.field) := by
  rw [encodeRowNarrow, ← List.nil_append ((cols.map (batch.slot row)).flatMap Slot.field)]
  generalize ([] : Bytes) = out
  induction cols generalizing out with
  | nil => rw [List.map_nil, List.flatMap_nil, List.append_nil]; rfl
  | cons col cols ih =>
    obtain ⟨hcol, hcols⟩ := List.forall_mem_cons.mp h
    rw [List.foldlM_cons, hcol, List.map_cons, List.flatMap_cons, ← List.append_assoc]
    exact ih hcols _

theorem reads_slots {slots : List Slot} (h : ∀ slot ∈ slots, encodeColumn slot = .ok slot.field) :
    RawReader.Reads (RawReader.all decodeTyped (slots.map Slot.dataType))
      (slots.flatMap Slot.field) (slots.map Slot.recovered) := by
  rw [RawReader.all_map]
  exact .all fun slot hslot ↦ reads_decodeTyped (h slot hslot)

theorem reads_decodeRowValues {row : Fin batch.numRows} (h : encodeRow batch row = .ok bytes) :
    RawReader.Reads (decodeRowValues batch.schema) bytes ((batch.row row).map Slot.recovered) := by
  obtain ⟨hbytes, hslots⟩ := encodeRowNarrow_eq_ok h
  rw [decodeRowValues_eq, ← batch.dataType_row row, hbytes]
  exact reads_slots hslots

/-- A stored row decodes to its values if and only if each of its slots is carried. -/
theorem decodeRowValues_encodeRow_iff {batch : RecordBatch} {row : Fin batch.numRows}
    {bytes : Bytes} (h : encodeRow batch row = .ok bytes) (behind : ℕ → UInt8) :
    (decodeRowValues batch.schema).run ⟨bytes, behind⟩ =
        .ok ((batch.row row).map Slot.scalar, .after bytes.length) ↔
      ∀ slot ∈ batch.row row, slot.Carried := by
  rw [(reads_decodeRowValues h).run behind, Except.ok.injEq, Prod.mk.injEq, and_iff_left rfl,
    List.map_inj_left]
  exact forall₂_congr fun slot _ ↦ slot.recovered_eq_scalar_iff

def orderRow : RecordBatch where
  schema := [⟨"id", .int64⟩, ⟨"name", .utf8⟩, ⟨"paid", .boolean⟩, ⟨"at", .time32Second⟩]
  numRows := 1
  value
    | 0, _ => some (42 : Int64)
    | 1, _ => some ⟨[97, 108], rfl⟩
    | 2, _ | 3, _ => none

def orderBytes : Bytes := [1, 42, 0, 0, 0, 0, 0, 0, 0, 1, 2, 0, 0, 0, 97, 108, 0, 0]

theorem decodeRowValues_encodeRow_orderRow :
    encodeRow orderRow (0 : Fin 1) = .ok orderBytes ∧
      (decodeRowValues orderRow.schema).run ⟨orderBytes, 0⟩ =
        .ok ([.int64 (some 42), .utf8 (some [97, 108]), .boolean none, .time32Second none],
          .after 18) := by
  have hencode : encodeRow orderRow (0 : Fin 1) = .ok orderBytes := rfl
  have hcarried : ∀ slot ∈ orderRow.row (0 : Fin 1), slot.Carried := by
    intro slot hslot
    fin_cases hslot
    · exact .inl rfl
    · exact .inl rfl
    · exact .inl rfl
    · exact .inr ⟨rfl, nofun⟩
  exact ⟨hencode, (decodeRowValues_encodeRow_iff hencode 0).mpr hcarried⟩

def timeRow : RecordBatch := ⟨[⟨"at", .time32Second⟩], 1, fun | 0, _ => some (5 : Int32)⟩

/-- A time is stored as if it were missing. -/
theorem time_decodes_as_null :
    (timeRow.row (0 : Fin 1)).map Slot.scalar = [.time32Second (some 5)] ∧
      encodeRow timeRow (0 : Fin 1) = .ok [0] ∧
      ∀ behind, (decodeRowValues timeRow.schema).run ⟨[0], behind⟩ =
        .ok ([.time32Second none], .after 1) :=
  ⟨rfl, rfl, fun _ ↦ rfl⟩

end HatP
