import HatP.Version

/-!
# Scalars and record batches

The values that move between record batches, stored rows, primary keys and
predicates.  A float is given by its bits and a string by its bytes.
-/

namespace HatP

inductive TimeUnit
  | second
  | millisecond
  | microsecond
  | nanosecond
deriving DecidableEq

structure IntervalDayTime where
  days : Int32
  milliseconds : Int32
deriving DecidableEq

structure IntervalMonthDayNano where
  months : Int32
  days : Int32
  nanoseconds : Int64
deriving DecidableEq

/-- A value or a missing value of one of the types, or a value without a type. -/
inductive ScalarValue
  | null
  | int8 (v : Option Int8)
  | int16 (v : Option Int16)
  | int32 (v : Option Int32)
  | int64 (v : Option Int64)
  | uint8 (v : Option UInt8)
  | uint16 (v : Option UInt16)
  | uint32 (v : Option UInt32)
  | uint64 (v : Option UInt64)
  | float32 (bits : Option UInt32)
  | float64 (bits : Option UInt64)
  | boolean (v : Option Bool)
  | utf8 (s : Option Bytes)
  | largeUtf8 (s : Option Bytes)
  | binary (v : Option Bytes)
  | largeBinary (v : Option Bytes)
  | date32 (v : Option Int32)
  | date64 (v : Option Int64)
  | timestamp (unit : TimeUnit) (v : Option Int64) (tz : Option String)
  | time32Second (v : Option Int32)
  | time32Millisecond (v : Option Int32)
  | time64Microsecond (v : Option Int64)
  | time64Nanosecond (v : Option Int64)
  | intervalYearMonth (v : Option Int32)
  | intervalDayTime (v : Option IntervalDayTime)
  | intervalMonthDayNano (v : Option IntervalMonthDayNano)
  | duration (unit : TimeUnit) (v : Option Int64)
  /-- A value of any other type, which nothing looks into. -/
  | other (name : String) (v : Option Bytes)
deriving DecidableEq

def ScalarValue.isNull : ScalarValue → Bool
  | .null => true
  | .int8 v => v.isNone
  | .int16 v => v.isNone
  | .int32 v | .date32 v | .time32Second v | .time32Millisecond v | .intervalYearMonth v =>
    v.isNone
  | .int64 v | .date64 v | .timestamp _ v _ | .time64Microsecond v | .time64Nanosecond v
  | .duration _ v => v.isNone
  | .uint8 v => v.isNone
  | .uint16 v => v.isNone
  | .uint32 v | .float32 v => v.isNone
  | .uint64 v | .float64 v => v.isNone
  | .boolean v => v.isNone
  | .utf8 v | .largeUtf8 v | .binary v | .largeBinary v | .other _ v => v.isNone
  | .intervalDayTime v => v.isNone
  | .intervalMonthDayNano v => v.isNone

/-! ## UTF-8 -/

def utf8Tail (lead : UInt8) : Option (List (UInt8 × UInt8)) :=
  if lead < 0x80 then some []
  else if lead < 0xC2 then none
  else if lead < 0xE0 then some [(0x80, 0xBF)]
  else if lead = 0xE0 then some [(0xA0, 0xBF), (0x80, 0xBF)]
  else if lead = 0xED then some [(0x80, 0x9F), (0x80, 0xBF)]
  else if lead < 0xF0 then some [(0x80, 0xBF), (0x80, 0xBF)]
  else if lead = 0xF0 then some [(0x90, 0xBF), (0x80, 0xBF), (0x80, 0xBF)]
  else if lead < 0xF4 then some [(0x80, 0xBF), (0x80, 0xBF), (0x80, 0xBF)]
  else if lead = 0xF4 then some [(0x80, 0x8F), (0x80, 0xBF), (0x80, 0xBF)]
  else none

def continuesUtf8 : List (UInt8 × UInt8) → Bytes → Bool
  | [], [] => true
  | _ :: _, [] => false
  | [], byte :: bytes =>
    match utf8Tail byte with
    | some expected => continuesUtf8 expected bytes
    | none => false
  | (low, high) :: expected, byte :: bytes =>
    low ≤ byte && byte ≤ high && continuesUtf8 expected bytes

def validUtf8 (bytes : Bytes) : Bool := continuesUtf8 [] bytes

/-! ## Column types -/

inductive DataType
  | null
  | int8
  | int16
  | int32
  | int64
  | uint8
  | uint16
  | uint32
  | uint64
  | float32
  | float64
  | boolean
  | utf8
  | largeUtf8
  | binary
  | largeBinary
  | date32
  | date64
  | timestamp (unit : TimeUnit) (tz : Option String)
  | time32Second
  | time32Millisecond
  | time64Microsecond
  | time64Nanosecond
  | intervalYearMonth
  | intervalDayTime
  | intervalMonthDayNano
  | duration (unit : TimeUnit)
  | other (name : String)
deriving DecidableEq

def TimeUnit.display : TimeUnit → String
  | .second => "s"
  | .millisecond => "ms"
  | .microsecond => "µs"
  | .nanosecond => "ns"

namespace DataType

def display : DataType → String
  | null => "Null"
  | int8 => "Int8"
  | int16 => "Int16"
  | int32 => "Int32"
  | int64 => "Int64"
  | uint8 => "UInt8"
  | uint16 => "UInt16"
  | uint32 => "UInt32"
  | uint64 => "UInt64"
  | float32 => "Float32"
  | float64 => "Float64"
  | boolean => "Boolean"
  | utf8 => "Utf8"
  | largeUtf8 => "LargeUtf8"
  | binary => "Binary"
  | largeBinary => "LargeBinary"
  | date32 => "Date32"
  | date64 => "Date64"
  | timestamp unit none => "Timestamp(" ++ unit.display ++ ")"
  | timestamp unit (some tz) => "Timestamp(" ++ unit.display ++ ", \"" ++ tz ++ "\")"
  | time32Second => "Time32(s)"
  | time32Millisecond => "Time32(ms)"
  | time64Microsecond => "Time64(µs)"
  | time64Nanosecond => "Time64(ns)"
  | intervalYearMonth => "Interval(YearMonth)"
  | intervalDayTime => "Interval(DayTime)"
  | intervalMonthDayNano => "Interval(MonthDayNano)"
  | duration unit => "Duration(" ++ unit.display ++ ")"
  | other name => name

def Value : DataType → Type
  | null => Empty
  | int8 => Int8
  | int16 => Int16
  | int32 | date32 | time32Second | time32Millisecond | intervalYearMonth => Int32
  | int64 | date64 | timestamp _ _ | time64Microsecond | time64Nanosecond | duration _ => Int64
  | uint8 => UInt8
  | uint16 => UInt16
  | uint32 | float32 => UInt32
  | uint64 | float64 => UInt64
  | boolean => Bool
  | utf8 | largeUtf8 => { s : Bytes // validUtf8 s = true }
  | binary | largeBinary | other _ => Bytes
  | intervalDayTime => IntervalDayTime
  | intervalMonthDayNano => IntervalMonthDayNano

end DataType

def ScalarValue.dataType : ScalarValue → DataType
  | .null => .null
  | .int8 _ => .int8
  | .int16 _ => .int16
  | .int32 _ => .int32
  | .int64 _ => .int64
  | .uint8 _ => .uint8
  | .uint16 _ => .uint16
  | .uint32 _ => .uint32
  | .uint64 _ => .uint64
  | .float32 _ => .float32
  | .float64 _ => .float64
  | .boolean _ => .boolean
  | .utf8 _ => .utf8
  | .largeUtf8 _ => .largeUtf8
  | .binary _ => .binary
  | .largeBinary _ => .largeBinary
  | .date32 _ => .date32
  | .date64 _ => .date64
  | .timestamp unit _ tz => .timestamp unit tz
  | .time32Second _ => .time32Second
  | .time32Millisecond _ => .time32Millisecond
  | .time64Microsecond _ => .time64Microsecond
  | .time64Nanosecond _ => .time64Nanosecond
  | .intervalYearMonth _ => .intervalYearMonth
  | .intervalDayTime _ => .intervalDayTime
  | .intervalMonthDayNano _ => .intervalMonthDayNano
  | .duration unit _ => .duration unit
  | .other name _ => .other name

/-! ## Record batches -/

/-- What one array has at one row: a value of the array's type or nothing. -/
structure Slot where
  dataType : DataType
  value : Option dataType.Value

def Slot.scalar : Slot → ScalarValue
  | ⟨.null, _⟩ => .null
  | ⟨.int8, v⟩ => .int8 v
  | ⟨.int16, v⟩ => .int16 v
  | ⟨.int32, v⟩ => .int32 v
  | ⟨.int64, v⟩ => .int64 v
  | ⟨.uint8, v⟩ => .uint8 v
  | ⟨.uint16, v⟩ => .uint16 v
  | ⟨.uint32, v⟩ => .uint32 v
  | ⟨.uint64, v⟩ => .uint64 v
  | ⟨.float32, v⟩ => .float32 v
  | ⟨.float64, v⟩ => .float64 v
  | ⟨.boolean, v⟩ => .boolean v
  | ⟨.utf8, v⟩ => .utf8 (v.map Subtype.val)
  | ⟨.largeUtf8, v⟩ => .largeUtf8 (v.map Subtype.val)
  | ⟨.binary, v⟩ => .binary v
  | ⟨.largeBinary, v⟩ => .largeBinary v
  | ⟨.date32, v⟩ => .date32 v
  | ⟨.date64, v⟩ => .date64 v
  | ⟨.timestamp unit tz, v⟩ => .timestamp unit v tz
  | ⟨.time32Second, v⟩ => .time32Second v
  | ⟨.time32Millisecond, v⟩ => .time32Millisecond v
  | ⟨.time64Microsecond, v⟩ => .time64Microsecond v
  | ⟨.time64Nanosecond, v⟩ => .time64Nanosecond v
  | ⟨.intervalYearMonth, v⟩ => .intervalYearMonth v
  | ⟨.intervalDayTime, v⟩ => .intervalDayTime v
  | ⟨.intervalMonthDayNano, v⟩ => .intervalMonthDayNano v
  | ⟨.duration unit, v⟩ => .duration unit v
  | ⟨.other name, v⟩ => .other name v

/-- The types that are not listed give the untyped null, as missing values do. -/
def arraySlotToScalar : Slot → ScalarValue
  | ⟨_, none⟩ => .null
  | ⟨.int64, some v⟩ => .int64 (some v)
  | ⟨.int32, some v⟩ => .int32 (some v)
  | ⟨.int16, some v⟩ => .int16 (some v)
  | ⟨.int8, some v⟩ => .int8 (some v)
  | ⟨.uint64, some v⟩ => .uint64 (some v)
  | ⟨.uint32, some v⟩ => .uint32 (some v)
  | ⟨.uint16, some v⟩ => .uint16 (some v)
  | ⟨.uint8, some v⟩ => .uint8 (some v)
  | ⟨.float64, some v⟩ => .float64 (some v)
  | ⟨.float32, some v⟩ => .float32 (some v)
  | ⟨.utf8, some v⟩ => .utf8 (some v.val)
  | ⟨.largeUtf8, some v⟩ => .largeUtf8 (some v.val)
  | ⟨.binary, some v⟩ => .binary (some v)
  | ⟨.largeBinary, some v⟩ => .largeBinary (some v)
  | ⟨.boolean, some v⟩ => .boolean (some v)
  | ⟨.date32, some v⟩ => .date32 (some v)
  | ⟨.date64, some v⟩ => .date64 (some v)
  | ⟨.timestamp unit _, some v⟩ => .timestamp unit (some v) none
  | _ => .null

/-- A field of the schema of a batch, by what keys and rows need of it. -/
structure ColumnField where
  name : String
  dataType : DataType
deriving DecidableEq

def indexOf (schema : List ColumnField) (name : String) : Option ℕ :=
  schema.findIdx? fun field ↦ field.name = name

/-- Columns of one length, each with values of the type that the schema gives it. -/
structure RecordBatch where
  schema : List ColumnField
  numRows : ℕ
  value : (col : Fin schema.length) → Fin numRows → Option (schema.get col).dataType.Value

namespace RecordBatch

def slot (batch : RecordBatch) (row : Fin batch.numRows) (col : Fin batch.schema.length) : Slot :=
  ⟨(batch.schema.get col).dataType, batch.value col row⟩

def row (batch : RecordBatch) (row : Fin batch.numRows) : List Slot :=
  (List.finRange batch.schema.length).map (batch.slot row)

theorem dataType_row (batch : RecordBatch) (row : Fin batch.numRows) :
    (batch.row row).map Slot.dataType = batch.schema.map ColumnField.dataType := by
  have hschema := congrArg (List.map ColumnField.dataType) (List.map_get_finRange batch.schema)
  rw [List.map_map] at hschema
  rw [RecordBatch.row, List.map_map, ← hschema]
  rfl

end RecordBatch

end HatP
