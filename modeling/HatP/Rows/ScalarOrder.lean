import HatP.Tables.Predicate
import HatP.Tables.PrimaryKey

/-!
# The order of scalars

Two scalars of one type are compared by integers that stand for their values.  Time
zones do not take part, and scalars of different types are not comparable.
-/

namespace HatP

def textOrder (s : Bytes) : List ℤ := s.map fun byte ↦ (byte.toNat : ℤ)

def ScalarValue.rank : ScalarValue → Option (List ℤ)
  | .null => none
  | .int8 v => v.map fun v ↦ [v.toInt]
  | .int16 v => v.map fun v ↦ [v.toInt]
  | .int32 v | .date32 v | .time32Second v | .time32Millisecond v | .intervalYearMonth v =>
    v.map fun v ↦ [v.toInt]
  | .int64 v | .date64 v | .timestamp _ v _ | .time64Microsecond v | .time64Nanosecond v
  | .duration _ v => v.map fun v ↦ [v.toInt]
  | .uint8 v => v.map fun v ↦ [(v.toNat : ℤ)]
  | .uint16 v => v.map fun v ↦ [(v.toNat : ℤ)]
  | .uint32 v => v.map fun v ↦ [(v.toNat : ℤ)]
  | .uint64 v => v.map fun v ↦ [(v.toNat : ℤ)]
  | .float32 bits => bits.map fun bits ↦ [floatOrder 31 bits.toNat]
  | .float64 bits => bits.map fun bits ↦ [floatOrder 63 bits.toNat]
  | .boolean v => v.map fun v ↦ [if v then 1 else 0]
  | .utf8 v | .largeUtf8 v | .binary v | .largeBinary v | .other _ v => v.map textOrder
  | .intervalDayTime v => v.map fun v ↦ [v.days.toInt, v.milliseconds.toInt]
  | .intervalMonthDayNano v =>
    v.map fun v ↦ [v.months.toInt, v.days.toInt, v.nanoseconds.toInt]

def DataType.withoutZone : DataType → DataType
  | .timestamp unit _ => .timestamp unit none
  | dataType => dataType

/-- A missing value comes before every other of its type. -/
def ScalarValue.partialCmp (a b : ScalarValue) : Option Ordering :=
  if a.dataType.withoutZone = b.dataType.withoutZone then some (compare a.rank b.rank) else none

theorem ScalarValue.partialCmp_swap (a b : ScalarValue) :
    (a.partialCmp b).map Ordering.swap = b.partialCmp a := by
  unfold partialCmp
  by_cases h : a.dataType.withoutZone = b.dataType.withoutZone
  · rw [if_pos h, if_pos h.symm, Option.map_some, ← Std.OrientedCmp.eq_swap]
  · rw [if_neg h, if_neg (Ne.symm h), Option.map_none]

def ColumnPredicate.evaluateScalar (pred : ColumnPredicate ScalarValue) (value : ScalarValue) :
    Bool :=
  if value.isNull then false
  else match pred with
    | .eq _ rhs => value.partialCmp rhs = some .eq
    | .lessThan _ rhs => value.partialCmp rhs = some .lt
    | .lessThanOrEqual _ rhs => (value.partialCmp rhs).any Ordering.isLE
    | .greaterThan _ rhs => value.partialCmp rhs = some .gt
    | .greaterThanOrEqual _ rhs => (value.partialCmp rhs).any Ordering.isGE
    | .range _ lower upper =>
      (lower.all fun low ↦
        if low.inclusive then (value.partialCmp low.value).any Ordering.isGE
        else value.partialCmp low.value = some .gt) &&
      upper.all fun high ↦
        if high.inclusive then (value.partialCmp high.value).any Ordering.isLE
        else value.partialCmp high.value = some .lt

/-- A missing column does not match. -/
def rowMatches (decoded : List ScalarValue) (predicates : List (ColumnPredicate ScalarValue)) :
    Bool :=
  predicates.all fun pred ↦ decoded[pred.column]?.any pred.evaluateScalar

end HatP
