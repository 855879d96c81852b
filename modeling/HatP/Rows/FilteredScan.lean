import HatP.Rows.BusinessColumns
import HatP.Rows.ScalarOrder

/-!
# Filtered scans of a file

A scan splits its predicates.  Those that `can_vortex_pushdown` accepts become filter
expressions on the columns of the file, the others are checked on the decoded rows.  The
two case analyses do not agree: some accepted predicates have no expression and are
dropped, columns from number 256 on share the name of column 0, and a missing Boolean is
stored as false.
-/

namespace HatP

open RawReader

/-! ## Predicates as filter expressions -/

def ScalarValue.pushable : ScalarValue → Bool
  | .int8 v => v.isSome
  | .int16 v => v.isSome
  | .int32 v => v.isSome
  | .int64 v => v.isSome
  | .uint8 v => v.isSome
  | .uint16 v => v.isSome
  | .uint32 v | .float32 v => v.isSome
  | .uint64 v | .float64 v => v.isSome
  | .utf8 v | .largeUtf8 v => v.isSome
  | .boolean v => v.isSome
  | _ => false

def canVortexPushdown : ColumnPredicate ScalarValue → Bool
  | .eq _ value | .lessThan _ value | .greaterThan _ value | .greaterThanOrEqual _ value =>
    value.pushable
  | .lessThanOrEqual _ _ | .range _ _ _ => false

inductive VortexOp
  | eq
  | lt
  | gt
  | gtEq
deriving DecidableEq

/-- A comparison of the column `col_N` with a literal. -/
structure VortexExpr where
  column : ℕ
  op : VortexOp
  literal : StoredValue

def ScalarValue.eqLiteral : ScalarValue → Option StoredValue
  | .int8 v => v.map .int8
  | .int16 v => v.map .int16
  | .int32 v => v.map .int32
  | .int64 v => v.map .int64
  | .uint8 v => v.map .uint8
  | .uint16 v => v.map .uint16
  | .uint32 v => v.map .uint32
  | .uint64 v => v.map .uint64
  | .float32 bits => bits.map .float32
  | .float64 bits => bits.map .float64
  | .utf8 v | .largeUtf8 v => v.map .bytes
  | .boolean v => v.map .bool
  | _ => none

def ScalarValue.orderLiteral : ScalarValue → Option StoredValue
  | .int8 v => v.map .int8
  | .int16 v => v.map .int16
  | .int32 v => v.map .int32
  | .int64 v => v.map .int64
  | .float32 bits => bits.map .float32
  | .float64 bits => bits.map .float64
  | _ => none

/-- Only the names of 256 columns are known. -/
def vortexColumn (col : ℕ) : ℕ := if col < 256 then col else 0

def columnPredToVortex : ColumnPredicate ScalarValue → Option VortexExpr
  | .eq col value => value.eqLiteral.map (⟨vortexColumn col, .eq, ·⟩)
  | .lessThan col value => value.orderLiteral.map (⟨vortexColumn col, .lt, ·⟩)
  | .lessThanOrEqual _ _ => none
  | .greaterThan col value => value.orderLiteral.map (⟨vortexColumn col, .gt, ·⟩)
  | .greaterThanOrEqual col value => value.orderLiteral.map (⟨vortexColumn col, .gtEq, ·⟩)
  | .range _ _ _ => none

/-! ## Files and scans -/

/-- How the entries of a column are stored. -/
inductive StoredKind
  | int8
  | int16
  | int32
  | int64
  | uint8
  | uint16
  | uint32
  | uint64
  | float32
  | float64
  | bool
  | bytes
deriving DecidableEq

def StoredValue.kind : StoredValue → StoredKind
  | .int8 _ => .int8
  | .int16 _ => .int16
  | .int32 _ => .int32
  | .int64 _ => .int64
  | .uint8 _ => .uint8
  | .uint16 _ => .uint16
  | .uint32 _ => .uint32
  | .uint64 _ => .uint64
  | .float32 _ => .float32
  | .float64 _ => .float64
  | .bool _ => .bool
  | .bytes _ | .debug _ => .bytes

def DataType.storedKind : DataType → StoredKind
  | .int8 => .int8
  | .int16 => .int16
  | .int32 | .date32 => .int32
  | .int64 | .date64 | .timestamp _ _ => .int64
  | .uint8 => .uint8
  | .uint16 => .uint16
  | .uint32 => .uint32
  | .uint64 => .uint64
  | .float32 => .float32
  | .float64 => .float64
  | .boolean => .bool
  | _ => .bytes

/-- The integers that an entry is compared by; the text of a debug string is not known. -/
def StoredValue.rank : StoredValue → Option (List ℤ)
  | .int8 v => some [v.toInt]
  | .int16 v => some [v.toInt]
  | .int32 v => some [v.toInt]
  | .int64 v => some [v.toInt]
  | .uint8 v => some [(v.toNat : ℤ)]
  | .uint16 v => some [(v.toNat : ℤ)]
  | .uint32 v => some [(v.toNat : ℤ)]
  | .uint64 v => some [(v.toNat : ℤ)]
  | .float32 bits => some [floatOrder 31 bits.toNat]
  | .float64 bits => some [floatOrder 63 bits.toNat]
  | .bool v => some [if v then 1 else 0]
  | .bytes v => some (textOrder v)
  | .debug _ => none

def VortexOp.holds : VortexOp → Ordering → Bool
  | .eq, ord => ord = .eq
  | .lt, ord => ord = .lt
  | .gt, ord => ord = .gt
  | .gtEq, ord => ord.isGE

/-- The file as it is written: rows, column types and columns. -/
structure VortexFile where
  rows : List VersionedRow
  types : List DataType
  columns : List (List (Option StoredValue))

def VortexFile.write (rows : List VersionedRow) (schema : List ColumnField)
    (behind : ℕ → ℕ → UInt8) : VortexFile where
  rows := rows
  types := schema.map ColumnField.dataType
  columns := businessColumns rows (some schema) behind

def VortexFile.entry (file : VortexFile) (row col : ℕ) : Option StoredValue :=
  (file.columns[col]?.bind fun column ↦ column[row]?).join

namespace VortexExpr

def typed (expr : VortexExpr) (types : List DataType) : Bool :=
  types[expr.column]?.any fun dataType ↦ dataType.storedKind = expr.literal.kind

/-- A comparison with null selects nothing. -/
def selects (expr : VortexExpr) (entry : Option StoredValue) : Bool :=
  (entry.bind StoredValue.rank).any fun rank ↦
    expr.op.holds (compare (some rank) expr.literal.rank)

end VortexExpr

/-- The file format refuses a comparison of different types. -/
def incompatibleTypes : EngineError := .corruptMessage "incompatible types"

/-- `vortex_sst::scan`: predicates without an expression are left out of the filter. -/
def VortexFile.scan (file : VortexFile) (lower upper : Bytes) (snapshot : ℕ)
    (predicates : List (ColumnPredicate ScalarValue)) : Except EngineError (List VersionedRow) :=
  let filter := predicates.filterMap columnPredToVortex
  if filter.all fun expr ↦ expr.typed file.types then
    .ok ((file.rows.zipIdx.filter fun (row, i) ↦
      (decide (lower ≤ row.key ∧ row.key < upper) && row.version.visibleAt snapshot) &&
        filter.all fun expr ↦ expr.selects (file.entry i expr.column)).map
          fun (row, _) ↦ ⟨row.key, row.version.stored⟩)
  else .error incompatibleTypes

def rowSelected (schema : List ColumnField) (predicates : List (ColumnPredicate ScalarValue))
    (row : VersionedRow) (behind : ℕ → UInt8) : Except EngineError Bool :=
  match row.version.value with
  | none => .ok false
  | some payload =>
    (decodeRowValues schema).run ⟨payload, behind⟩ |>.map fun (decoded, _) ↦
      rowMatches decoded predicates

def selectRows (schema : List ColumnField) (predicates : List (ColumnPredicate ScalarValue)) :
    List VersionedRow → (ℕ → ℕ → UInt8) → Except EngineError (List VersionedRow)
  | [], _ => .ok []
  | row :: rows, behind => do
    let selected ← rowSelected schema predicates row (behind 0)
    let kept ← selectRows schema predicates rows fun i ↦ behind (i + 1)
    return if selected then row :: kept else kept

def applyRowPredicates (rows : List VersionedRow) (schema : List ColumnField)
    (predicates : List (ColumnPredicate ScalarValue)) (behind : ℕ → ℕ → UInt8) :
    Except EngineError (List VersionedRow) :=
  if predicates.isEmpty then .ok rows
  else if schema.isEmpty then .ok rows
  else selectRows schema predicates rows behind

def scanWithFilter (file : VortexFile) (lower upper : Bytes) (snapshot : ℕ)
    (predicates : List (String × ColumnPredicate ScalarValue))
    (rowSchema : Option (List ColumnField)) (behind : ℕ → ℕ → UInt8) :
    Except EngineError (List VersionedRow) := do
  let pushed := (predicates.map Prod.snd).filter canVortexPushdown
  let residual := (predicates.map Prod.snd).filter fun pred ↦ !canVortexPushdown pred
  let rows ← file.scan lower upper snapshot pushed
  if residual.isEmpty then return rows
  else
    match rowSchema with
    | none => .error (.corruptMessage ("scan_with_filter requires row_schema when predicates " ++
        "are supplied: the legacy Vortex layout decodes the `value` blob row by row and needs " ++
        "the per-table Arrow schema"))
    | some schema => applyRowPredicates rows schema residual behind

/-! ## Tables and predicates -/

/-- The kinds of predicates.  An equality with false is a kind of its own. -/
inductive Comparison
  | eq
  | eqFalse
  | lessThan
  | lessThanOrEqual
  | greaterThan
  | greaterThanOrEqual
  | range
deriving DecidableEq

def ColumnPredicate.comparison : ColumnPredicate ScalarValue → Comparison
  | .eq _ value => if value = .boolean (some false) then .eqFalse else .eq
  | .lessThan _ _ => .lessThan
  | .lessThanOrEqual _ _ => .lessThanOrEqual
  | .greaterThan _ _ => .greaterThan
  | .greaterThanOrEqual _ _ => .greaterThanOrEqual
  | .range _ _ _ => .range

def ScalarValue.OfType (literal : ScalarValue) (dataType : DataType) : Prop :=
  ∃ v, literal = Slot.scalar ⟨dataType, v⟩

def ColumnPredicate.WellTyped (schema : List ColumnField) (pred : ColumnPredicate ScalarValue) :
    Prop :=
  ∃ field, schema[pred.column]? = some field ∧ match pred with
    | .eq _ value | .lessThan _ value | .lessThanOrEqual _ value | .greaterThan _ value
    | .greaterThanOrEqual _ value => value.OfType field.dataType
    | .range _ lower upper => (∀ bound ∈ lower, bound.value.OfType field.dataType) ∧
        ∀ bound ∈ upper, bound.value.OfType field.dataType

def MissingOnly (nullable : Set ℕ) (slots : List Slot) : Prop :=
  ∀ (col : ℕ) slot, slots[col]? = some slot → slot.value = none →
    col ∈ nullable ∨ slot.dataType = .null

def TableRows (schema : List ColumnField) (nullable : Set ℕ) (rows : List VersionedRow) : Prop :=
  ∀ row ∈ rows, ∀ payload, row.version.value = some payload →
    ∃ (batch : RecordBatch) (r : Fin batch.numRows), batch.schema = schema ∧
      encodeRow batch r = .ok payload ∧ MissingOnly nullable (batch.row r)

def satisfiesAll (schema : List ColumnField) (predicates : List (ColumnPredicate ScalarValue))
    (memory : ℕ → UInt8) (row : VersionedRow) : Bool :=
  row.version.value.any fun payload ↦
    match (decodeRowValues schema).run ⟨payload, memory⟩ with
    | .ok (decoded, _) => rowMatches decoded predicates
    | .error _ => false

/-- The live rows that a filtered scan returns are those in the range that are visible and
satisfy the predicates, whatever memory lies behind the payloads. -/
def Enforced (schema : List ColumnField) (rows : List VersionedRow)
    (predicates : List (String × ColumnPredicate ScalarValue)) : Prop :=
  ∀ lower upper snapshot behind reading memory, ∃ returned,
    scanWithFilter (.write rows schema behind) lower upper snapshot predicates (some schema)
        reading = .ok returned ∧
      returned.filter (·.version.value.isSome) = (scanRows rows lower upper snapshot).filter
        (satisfiesAll schema (predicates.map Prod.snd) memory)

def DataType.pushable : DataType → Bool
  | .int8 | .int16 | .int32 | .int64 | .uint8 | .uint16 | .uint32 | .uint64 | .float32 | .float64
  | .utf8 | .largeUtf8 | .boolean => true
  | _ => false

def DataType.ordered : DataType → Bool
  | .int8 | .int16 | .int32 | .int64 | .float32 | .float64 => true
  | _ => false

/-- Predicates of this kind on this column are checked on the decoded rows or have an
expression that means the same. -/
def Faithful (schema : List ColumnField) (nullable : Set ℕ) (comparison : Comparison) (col : ℕ) :
    Prop :=
  ∀ field, schema[col]? = some field → field.dataType.pushable = true → match comparison with
    | .eq => col < 256
    | .eqFalse => field.dataType = .boolean → col < 256 ∧ col ∉ nullable
    | .lessThan | .greaterThan | .greaterThanOrEqual =>
      col < 256 ∧ field.dataType.ordered = true
    | .lessThanOrEqual | .range => True

/-! ## One comparison -/

section Comparison

variable {pred : ColumnPredicate ScalarValue} {dataType : DataType} {literal : ScalarValue}
  {op : VortexOp} {stored : StoredValue} {schema : List ColumnField} {field : ColumnField}

theorem ScalarValue.pushable_of_ofType
    (h : literal.OfType dataType) (hpushable : literal.pushable = true) :
    dataType.pushable = true := by
  obtain ⟨v, rfl⟩ := h
  cases dataType with
  | null | binary | largeBinary | date32 | date64 | timestamp | time32Second | time32Millisecond
  | time64Microsecond | time64Nanosecond | intervalYearMonth | intervalDayTime
  | intervalMonthDayNano | duration | other => cases hpushable
  | _ => rfl

theorem ScalarValue.isSome_eqLiteral (literal : ScalarValue) :
    literal.eqLiteral.isSome = literal.pushable := by
  cases literal <;> first | rfl | exact Option.isSome_map

theorem ScalarValue.orderLiteral_eq (h : literal.OfType dataType) :
    literal.orderLiteral = if dataType.ordered = true then literal.eqLiteral else none := by
  obtain ⟨v, rfl⟩ := h
  cases dataType <;> rfl

theorem storedKind_eq_kind
    (h : literal.OfType dataType) (hstored : literal.eqLiteral = some stored) :
    dataType.storedKind = stored.kind := by
  obtain ⟨v, rfl⟩ := h
  cases v with
  | none => cases dataType <;> cases hstored
  | some v => cases dataType <;> cases hstored <;> rfl

/-- The expression compares the entry of a slot as the predicate compares its scalar. -/
theorem selects_columnEntry {slot : Slot}
    (col : ℕ) (htype : literal.OfType slot.dataType) (hstored : literal.eqLiteral = some stored)
    (hboolean : slot.dataType = .boolean → slot.value = none →
      op = .eq ∧ literal = .boolean (some true)) :
    (⟨col, op, stored⟩ : VortexExpr).selects (columnEntry slot.dataType slot.recovered) =
      (!slot.recovered.isNull && (slot.recovered.partialCmp literal).any op.holds) := by
  obtain ⟨dataType, value⟩ := slot
  obtain ⟨v, rfl⟩ := htype
  cases dataType with
  | null | binary | largeBinary | date32 | date64 | timestamp | time32Second | time32Millisecond
  | time64Microsecond | time64Nanosecond | intervalYearMonth | intervalDayTime
  | intervalMonthDayNano | duration | other => cases hstored
  | boolean =>
    cases v with
    | none => cases hstored
    | some v =>
      cases hstored
      cases value with
      | some value =>
        cases value with
        | false | true => rfl
      | none =>
        obtain ⟨rfl, hliteral⟩ := hboolean rfl rfl
        cases hliteral
        rfl
  | _ =>
    cases v with
    | none => cases hstored
    | some v =>
      cases hstored
      cases value with
      | some value | none => rfl

def VortexExpr.selectsIn (schema : List ColumnField) (decoded : List ScalarValue)
    (expr : VortexExpr) : Bool :=
  expr.selects (schema[expr.column]?.bind fun field ↦
    columnEntry field.dataType (decoded.getD expr.column .null))

def keeps (schema : List ColumnField) (decoded : List ScalarValue)
    (pred : ColumnPredicate ScalarValue) : Bool :=
  if canVortexPushdown pred then (columnPredToVortex pred).all (·.selectsIn schema decoded)
  else decoded[pred.column]?.any pred.evaluateScalar

def ColumnPredicate.pushed : ColumnPredicate ScalarValue → Option (VortexOp × ScalarValue)
  | .eq _ value => some (.eq, value)
  | .lessThan _ value => some (.lt, value)
  | .greaterThan _ value => some (.gt, value)
  | .greaterThanOrEqual _ value => some (.gtEq, value)
  | .lessThanOrEqual _ _ | .range _ _ _ => none

theorem evaluateScalar_of_pushed (h : pred.pushed = some (op, literal)) (value : ScalarValue) :
    pred.evaluateScalar value = (!value.isNull && (value.partialCmp literal).any op.holds) := by
  unfold ColumnPredicate.evaluateScalar
  cases value.isNull with
  | true => rfl
  | false =>
    cases pred with
    | lessThanOrEqual | range => cases h
    | eq | lessThan | greaterThan | greaterThanOrEqual =>
      cases h
      dsimp only
      generalize value.partialCmp literal = ord
      cases ord with
      | none => rfl
      | some ord => cases ord <;> rfl

theorem pushed_of_canVortexPushdown (h : canVortexPushdown pred = true) :
    ∃ op literal, pred.pushed = some (op, literal) ∧ literal.pushable = true := by
  cases pred with
  | lessThanOrEqual | range => cases h
  | _ => exact ⟨_, _, rfl, h⟩

theorem columnPredToVortex_of_pushed (h : pred.pushed = some (op, literal)) :
    columnPredToVortex pred = (if op = .eq then literal.eqLiteral else literal.orderLiteral).map
      (⟨vortexColumn pred.column, op, ·⟩) := by
  cases pred with
  | lessThanOrEqual | range => cases h
  | _ => cases h; rfl

theorem ColumnPredicate.WellTyped.ofType (h : pred.WellTyped schema)
    (hpushed : pred.pushed = some (op, literal))
    (hfield : schema[pred.column]? = some field) : literal.OfType field.dataType := by
  obtain ⟨field', hfield', htype⟩ := h
  cases hfield.symm.trans hfield'
  cases pred with
  | lessThanOrEqual | range => cases hpushed
  | _ => cases hpushed; exact htype

theorem ScalarValue.OfType.dataType_eq
    (h : literal.OfType dataType) : literal.dataType = dataType := by
  obtain ⟨v, rfl⟩ := h
  cases dataType <;> rfl

theorem ScalarValue.OfType.eq_true (h : literal.OfType dataType) (hboolean : dataType = .boolean)
    (hpushable : literal.pushable = true) (hfalse : literal ≠ .boolean (some false)) :
    literal = .boolean (some true) := by
  subst hboolean
  obtain ⟨v, rfl⟩ := h
  cases v with
  | none => cases hpushable
  | some v =>
    cases v with
    | false => exact absurd rfl hfalse
    | true => rfl

theorem Faithful.expression {nullable : Set ℕ}
    (h : Faithful schema nullable pred.comparison pred.column)
    (hpushed : pred.pushed = some (op, literal)) (hpushable : literal.pushable = true)
    (hfield : schema[pred.column]? = some field) (htype : literal.OfType field.dataType) :
    (∃ stored, literal.eqLiteral = some stored ∧
        columnPredToVortex pred = some ⟨pred.column, op, stored⟩) ∧
      (field.dataType = .boolean → pred.column ∈ nullable →
        op = .eq ∧ literal = .boolean (some true)) := by
  have hcond := h field hfield (ScalarValue.pushable_of_ofType htype hpushable)
  have hsome : literal.eqLiteral.isSome = true := literal.isSome_eqLiteral.trans hpushable
  obtain ⟨stored, hstored⟩ := Option.isSome_iff_exists.mp hsome
  have horder := ScalarValue.orderLiteral_eq htype
  have hexpr : pred.column < 256 → (op = .eq ∨ field.dataType.ordered = true) →
      columnPredToVortex pred = some ⟨pred.column, op, stored⟩ := by
    intro hlt hordered
    rw [columnPredToVortex_of_pushed hpushed, vortexColumn, if_pos hlt]
    split
    · rw [hstored, Option.map_some]
    next hne => rw [horder, if_pos (hordered.resolve_left hne), hstored, Option.map_some]
  cases pred with
  | lessThanOrEqual | range => cases hpushed
  | eq col value =>
    cases hpushed
    by_cases hfalse : literal = .boolean (some false)
    · subst hfalse
      obtain ⟨hlt, hnot⟩ := hcond htype.dataType_eq.symm
      exact ⟨⟨stored, hstored, hexpr hlt (.inl rfl)⟩, fun _ hnull ↦ (hnot hnull).elim⟩
    · rw [ColumnPredicate.comparison, if_neg hfalse] at hcond
      refine ⟨⟨stored, hstored, hexpr hcond (.inl rfl)⟩, fun hboolean _ ↦ ⟨rfl, ?_⟩⟩
      exact htype.eq_true hboolean hpushable hfalse
  | _ =>
    cases hpushed
    obtain ⟨hlt, hordered⟩ := hcond
    refine ⟨⟨stored, hstored, hexpr hlt (.inr hordered)⟩, fun hboolean ↦ ?_⟩
    rw [hboolean] at hordered
    cases hordered

/-- The types and the missing values of a row of the table. -/
structure RowOf (schema : List ColumnField) (nullable : Set ℕ) (slots : List Slot) : Prop where
  types : slots.map Slot.dataType = schema.map ColumnField.dataType
  missing : MissingOnly nullable slots

section Rows

variable {schema : List ColumnField} {nullable : Set ℕ} {slots : List Slot}
  {field : ColumnField} {pred : ColumnPredicate ScalarValue}

theorem RowOf.getElem? (h : RowOf schema nullable slots) {col : ℕ}
    (hfield : schema[col]? = some field) :
    ∃ slot, slots[col]? = some slot ∧ slot.dataType = field.dataType := by
  have hcol := congrArg (fun types ↦ types[col]?) h.types
  simp only [List.getElem?_map, hfield, Option.map_some] at hcol
  exact Option.map_eq_some_iff.mp hcol

theorem selectsIn_of_slot {col : ℕ} {slot : Slot} (hfield : schema[col]? = some field)
    (hslot : slots[col]? = some slot) (op : VortexOp) (literal : StoredValue) :
    (⟨col, op, literal⟩ : VortexExpr).selectsIn schema (slots.map Slot.recovered) =
      (⟨col, op, literal⟩ : VortexExpr).selects (columnEntry field.dataType slot.recovered) := by
  rw [VortexExpr.selectsIn, hfield, Option.bind_some, List.getD_eq_getElem?_getD,
    List.getElem?_map, hslot]
  rfl

theorem keeps_of_faithful (hrow : RowOf schema nullable slots) (hpred : pred.WellTyped schema)
    (h : Faithful schema nullable pred.comparison pred.column) :
    keeps schema (slots.map Slot.recovered) pred =
      (slots.map Slot.recovered)[pred.column]?.any pred.evaluateScalar := by
  rw [keeps]
  by_cases hpush : canVortexPushdown pred = true
  · obtain ⟨op, literal, hpushed, hpushable⟩ := pushed_of_canVortexPushdown hpush
    have ⟨field, hfield, _⟩ := hpred
    have htype := hpred.ofType hpushed hfield
    obtain ⟨⟨stored, hstored, hexpr⟩, hnull⟩ := h.expression hpushed hpushable hfield htype
    obtain ⟨slot, hslot, hslotType⟩ := hrow.getElem? hfield
    rw [← hslotType] at htype
    have hboolean : slot.dataType = .boolean → slot.value = none →
        op = .eq ∧ literal = .boolean (some true) := by
      intro hboolean hnone
      rcases hrow.missing _ _ hslot hnone with hcol | hdataType
      · exact hnull (hslotType.symm.trans hboolean) hcol
      · cases hboolean.symm.trans hdataType
    rw [if_pos hpush, hexpr, Option.all_some, selectsIn_of_slot hfield hslot, ← hslotType,
      selects_columnEntry pred.column htype hstored hboolean, List.getElem?_map, hslot,
      Option.map_some, Option.any_some, evaluateScalar_of_pushed hpushed]
  · rw [if_neg hpush]

theorem typed_of_ofType {op : VortexOp} {col : ℕ} {literal : ScalarValue} {stored : StoredValue}
    (hfield : schema[col]? = some field) (htype : literal.OfType field.dataType)
    (hstored : literal.eqLiteral = some stored) :
    (⟨col, op, stored⟩ : VortexExpr).typed (schema.map ColumnField.dataType) = true := by
  rw [VortexExpr.typed, List.getElem?_map, hfield, Option.map_some, Option.any_some]
  exact decide_eq_true (storedKind_eq_kind htype hstored)

theorem typed_of_faithful {expr : VortexExpr}
    (hpred : pred.WellTyped schema) (h : Faithful schema nullable pred.comparison pred.column)
    (hpush : canVortexPushdown pred = true) (hexpr : columnPredToVortex pred = some expr) :
    expr.typed (schema.map ColumnField.dataType) = true := by
  obtain ⟨op, literal, hpushed, hpushable⟩ := pushed_of_canVortexPushdown hpush
  have ⟨field, hfield, _⟩ := hpred
  have htype := hpred.ofType hpushed hfield
  obtain ⟨⟨stored, hstored, hexpr'⟩, -⟩ := h.expression hpushed hpushable hfield htype
  cases hexpr.symm.trans hexpr'
  exact typed_of_ofType hfield htype hstored

end Rows

/-! ## One scan -/

def Decodes (schema : List ColumnField) (payload : Bytes) (decoded : List ScalarValue) : Prop :=
  ∀ memory, ∃ cursor, (decodeRowValues schema).run ⟨payload, memory⟩ = .ok (decoded, cursor)

section Scan

variable {schema : List ColumnField} {nullable : Set ℕ} {rows : List VersionedRow}
  {row : VersionedRow}

section

variable (h : TableRows schema nullable rows)

include h

theorem TableRows.decodes (hrow : row ∈ rows) {payload : Bytes}
    (hvalue : row.version.value = some payload) :
    ∃ slots, RowOf schema nullable slots ∧ Decodes schema payload (slots.map Slot.recovered) := by
  obtain ⟨batch, r, rfl, hencode, hmissing⟩ := h row hrow payload hvalue
  refine ⟨batch.row r, ⟨batch.dataType_row r, hmissing⟩, fun memory ↦ ?_⟩
  exact ⟨_, (reads_decodeRowValues hencode).run memory⟩

theorem TableRows.subset {fewer : List VersionedRow}
    (hsubset : fewer ⊆ rows) : TableRows schema nullable fewer :=
  fun row hrow ↦ h row (hsubset hrow)

theorem TableRows.readAll : TableRows schema nullable (readAll rows) := by
  intro row hrow payload hvalue
  obtain ⟨row, hmem, rfl⟩ := List.mem_map.mp hrow
  exact h row hmem payload hvalue

theorem TableRows.scanRows {lower upper : Bytes} {snapshot : ℕ} :
    TableRows schema nullable (scanRows rows lower upper snapshot) :=
  h.readAll.subset (List.filter_subset_self _)

end

section Decoded

variable {payload : Bytes} {decoded : List ScalarValue}

section

variable (hvalue : row.version.value = some payload)

include hvalue

theorem rowScalars_of_decodes (h : Decodes schema payload decoded) (behind : ℕ → UInt8) :
    rowScalars schema row behind = decoded := by
  obtain ⟨cursor, hrun⟩ := h behind
  rw [rowScalars, hvalue]
  dsimp only
  rw [hrun]

theorem satisfiesAll_of_decodes
    (h : Decodes schema payload decoded) (predicates : List (ColumnPredicate ScalarValue))
    (memory : ℕ → UInt8) :
    satisfiesAll schema predicates memory row = rowMatches decoded predicates := by
  obtain ⟨cursor, hrun⟩ := h memory
  rw [satisfiesAll, hvalue, Option.any_some, hrun]

theorem rowSelected_of_decodes
    (h : Decodes schema payload decoded) (predicates : List (ColumnPredicate ScalarValue))
    (behind : ℕ → UInt8) :
    rowSelected schema predicates row behind = .ok (rowMatches decoded predicates) := by
  obtain ⟨cursor, hrun⟩ := h behind
  rw [rowSelected, hvalue]
  dsimp only
  rw [hrun]
  rfl

end

end Decoded

theorem selectRows_of_tableRows (h : TableRows schema nullable rows)
    (predicates : List (ColumnPredicate ScalarValue)) (behind : ℕ → ℕ → UInt8)
    (memory : ℕ → UInt8) :
    selectRows schema predicates rows behind =
      .ok (rows.filter (satisfiesAll schema predicates memory)) := by
  induction rows generalizing behind with
  | nil => rfl
  | cons row rows ih =>
    have hselected : rowSelected schema predicates row (behind 0) =
        .ok (satisfiesAll schema predicates memory row) := by
      cases hvalue : row.version.value with
      | none => rw [rowSelected, satisfiesAll, hvalue]; rfl
      | some payload =>
        obtain ⟨slots, -, hdecodes⟩ := h.decodes (.head _) hvalue
        rw [rowSelected_of_decodes hvalue hdecodes, satisfiesAll_of_decodes hvalue hdecodes]
    rw [selectRows, hselected, ih (h.subset (List.subset_cons_self _ _)), List.filter_cons]
    cases satisfiesAll schema predicates memory row <;> rfl

def pushedFilter (predicates : List (ColumnPredicate ScalarValue)) : List VortexExpr :=
  (predicates.filter canVortexPushdown).filterMap columnPredToVortex

theorem all_keeps (decoded : List ScalarValue) (predicates : List (ColumnPredicate ScalarValue)) :
    predicates.all (keeps schema decoded) =
      ((pushedFilter predicates).all (·.selectsIn schema decoded) &&
        rowMatches decoded (predicates.filter fun pred ↦ !canVortexPushdown pred)) := by
  unfold pushedFilter
  induction predicates with
  | nil => rfl
  | cons pred predicates ih =>
    rw [List.all_cons, ih, keeps]
    cases hpush : canVortexPushdown pred with
    | false => simp [hpush, rowMatches, Bool.and_left_comm]
    | true =>
      cases hexpr : columnPredToVortex pred with
      | none => simp [hpush, hexpr]
      | some expr => simp [hpush, hexpr, Bool.and_assoc]

theorem entry_write (behind : ℕ → ℕ → UInt8) {i : ℕ} (hrow : rows[i]? = some row) (col : ℕ) :
    (VortexFile.write rows schema behind).entry i col = schema[col]?.bind fun field ↦
      columnEntry field.dataType ((rowScalars schema row (behind i)).getD col .null) := by
  rw [VortexFile.entry, VortexFile.write, businessColumns]
  cases hfield : schema[col]? with
  | none => simp [hfield]
  | some field => simp [buildColumnArray, hfield, hrow]

theorem map_filter_zipIdx {α β : Type} (l : List α) (keep : α → Bool) (f : α → β) :
    (l.zipIdx.filter fun x ↦ keep x.1).map (fun x ↦ f x.1) = (l.filter keep).map f := by
  have hfilter := congrArg (List.filter keep) (List.zipIdx_map_fst 0 l)
  rw [List.filter_map] at hfilter
  rw [← hfilter, List.map_map]
  rfl

theorem rowScalars_stored (h : TableRows schema nullable rows) (hrow : row ∈ rows)
    (behind : ℕ → UInt8) :
    rowScalars schema ⟨row.key, row.version.stored⟩ 0 = rowScalars schema row behind := by
  cases hvalue : row.version.value with
  | none =>
    have hstored : row.version.stored.value = none := hvalue
    rw [rowScalars, rowScalars, hvalue, hstored]
  | some payload =>
    have hstored : row.version.stored.value = some payload := hvalue
    obtain ⟨slots, -, hdecodes⟩ := h.decodes hrow hvalue
    have hscalars : rowScalars schema ⟨row.key, row.version.stored⟩ 0 = _ :=
      rowScalars_of_decodes hstored hdecodes 0
    rw [hscalars, rowScalars_of_decodes hvalue hdecodes]

theorem scan_write (h : TableRows schema nullable rows) (lower upper : Bytes) (snapshot : ℕ)
    (behind : ℕ → ℕ → UInt8) {predicates : List (ColumnPredicate ScalarValue)}
    (htyped : ((predicates.filterMap columnPredToVortex).all fun expr ↦
      expr.typed (schema.map ColumnField.dataType)) = true) :
    (VortexFile.write rows schema behind).scan lower upper snapshot predicates =
      .ok ((scanRows rows lower upper snapshot).filter fun row ↦
        (predicates.filterMap columnPredToVortex).all
          (·.selectsIn schema (rowScalars schema row 0))) := by
  refine (if_pos htyped).trans (congrArg Except.ok ?_)
  rw [scanRows, List.filter_filter, readAll, List.filter_map]
  refine Eq.trans ?_ (map_filter_zipIdx rows _ _)
  refine congrArg (List.map _) (List.filter_congr ?_)
  rintro ⟨row, i⟩ hmem
  have hi : rows[i]? = some row := List.mem_zipIdx_iff_getElem?.mp hmem
  simp only [Function.comp_apply, VortexExpr.selectsIn, entry_write behind hi,
    rowScalars_stored h (List.mem_of_getElem? hi) (behind i), VersionedValue.stored_visibleAt]
  exact Bool.and_comm _ _

def FilterTyped (schema : List ColumnField) (predicates : List (ColumnPredicate ScalarValue)) :
    Prop :=
  ((pushedFilter predicates).all fun expr ↦
    expr.typed (schema.map ColumnField.dataType)) = true

variable {predicates : List (String × ColumnPredicate ScalarValue)}

theorem scanWithFilter_write (h : TableRows schema nullable rows) (lower upper : Bytes)
    (snapshot : ℕ) (behind reading : ℕ → ℕ → UInt8) (hschema : schema = [] → predicates = [])
    (htyped : FilterTyped schema (predicates.map Prod.snd)) :
    scanWithFilter (.write rows schema behind) lower upper snapshot predicates (some schema)
        reading =
      let residual := (predicates.map Prod.snd).filter fun pred ↦ !canVortexPushdown pred
      .ok ((scanRows rows lower upper snapshot).filter fun row ↦
        (residual.isEmpty || satisfiesAll schema residual 0 row) &&
          (pushedFilter (predicates.map Prod.snd)).all
            (·.selectsIn schema (rowScalars schema row 0))) := by
  rw [scanWithFilter, scan_write h lower upper snapshot behind htyped]
  cases hresidual : (predicates.map Prod.snd).filter fun pred ↦ !canVortexPushdown pred with
  | nil => rfl
  | cons pred residual =>
    cases schema with
    | nil => cases hschema rfl; cases hresidual
    | cons field schema =>
      refine (selectRows_of_tableRows (h.scanRows.subset (List.filter_subset_self _)) _ reading
        0).trans ?_
      rw [List.filter_filter]
      rfl

/-- The live rows that the filter and the check of the decoded rows let through. -/
theorem live_scanWithFilter (h : TableRows schema nullable rows) (lower upper : Bytes)
    (snapshot : ℕ) (behind reading : ℕ → ℕ → UInt8) (hschema : schema = [] → predicates = [])
    (htyped : FilterTyped schema (predicates.map Prod.snd)) :
    ∃ returned, scanWithFilter (.write rows schema behind) lower upper snapshot predicates
        (some schema) reading = .ok returned ∧
      returned.filter (·.version.value.isSome) = (scanRows rows lower upper snapshot).filter
        fun row ↦ row.version.value.isSome &&
          (predicates.map Prod.snd).all (keeps schema (rowScalars schema row 0)) := by
  refine ⟨_, scanWithFilter_write h lower upper snapshot behind reading hschema htyped, ?_⟩
  rw [List.filter_filter]
  refine List.filter_congr fun row hrow ↦ ?_
  cases hvalue : row.version.value with
  | none => rfl
  | some payload =>
    obtain ⟨slots, -, hdecodes⟩ := h.scanRows.decodes hrow hvalue
    rw [satisfiesAll_of_decodes hvalue hdecodes, rowScalars_of_decodes hvalue hdecodes, all_keeps,
      Bool.and_comm (List.all _ _)]
    cases (predicates.map Prod.snd).filter fun pred ↦ !canVortexPushdown pred <;> rfl

theorem eq_nil_of_wellTyped
    (h : ∀ pred ∈ predicates.map Prod.snd, pred.WellTyped schema) (hschema : schema = []) :
    predicates = [] := by
  subst hschema
  cases predicates with
  | nil => rfl
  | cons pred predicates =>
    obtain ⟨field, hfield, -⟩ := h pred.2 (.head _)
    cases hfield

theorem filterTyped_of_forall {preds : List (ColumnPredicate ScalarValue)}
    (h : ∀ pred ∈ preds, canVortexPushdown pred = true → ∀ expr,
      columnPredToVortex pred = some expr →
        expr.typed (schema.map ColumnField.dataType) = true) : FilterTyped schema preds := by
  rw [FilterTyped, List.all_eq_true]
  intro expr hexpr
  obtain ⟨pred, hmem, hsome⟩ := List.mem_filterMap.mp hexpr
  obtain ⟨hpred, hpush⟩ := List.mem_filter.mp hmem
  exact h pred hpred hpush expr hsome

theorem enforced_of_faithful (h : TableRows schema nullable rows)
    (hpreds : ∀ pred ∈ predicates.map Prod.snd, pred.WellTyped schema ∧
      Faithful schema nullable pred.comparison pred.column) : Enforced schema rows predicates := by
  intro lower upper snapshot behind reading memory
  have hschema := eq_nil_of_wellTyped fun pred hpred ↦ (hpreds pred hpred).1
  have htyped := filterTyped_of_forall fun pred hpred hpush expr hexpr ↦
    typed_of_faithful (hpreds pred hpred).1 (hpreds pred hpred).2 hpush hexpr
  obtain ⟨returned, hscan, hfilter⟩ :=
    live_scanWithFilter h lower upper snapshot behind reading hschema htyped
  refine ⟨returned, hscan, hfilter.trans (List.filter_congr fun row hrow ↦ ?_)⟩
  cases hvalue : row.version.value with
  | none => rw [satisfiesAll, hvalue]; rfl
  | some payload =>
    obtain ⟨slots, hslots, hdecodes⟩ := h.scanRows.decodes hrow hvalue
    rw [satisfiesAll_of_decodes hvalue hdecodes, rowScalars_of_decodes hvalue hdecodes,
      Option.isSome_some, Bool.true_and, rowMatches, Bool.eq_iff_iff, List.all_eq_true,
      List.all_eq_true]
    refine forall₂_congr fun pred hpred ↦ ?_
    rw [keeps_of_faithful hslots (hpreds pred hpred).1 (hpreds pred hpred).2]

end Scan

end Comparison

/-! ## Predicates that are not enforced -/

section Samples

def DataType.sample : (dataType : DataType) → Bool → Option dataType.Value
  | .null, _ => none
  | .int8, high => some (if high then 1 else 0 : Int8)
  | .int16, high => some (if high then 1 else 0 : Int16)
  | .int32, high | .date32, high | .time32Second, high | .time32Millisecond, high
  | .intervalYearMonth, high => some (if high then 1 else 0 : Int32)
  | .int64, high | .date64, high | .timestamp _ _, high | .time64Microsecond, high
  | .time64Nanosecond, high | .duration _, high => some (if high then 1 else 0 : Int64)
  | .uint8, high => some (if high then 1 else 0 : UInt8)
  | .uint16, high => some (if high then 1 else 0 : UInt16)
  | .uint32, high | .float32, high => some (if high then 1 else 0 : UInt32)
  | .uint64, high | .float64, high => some (if high then 1 else 0 : UInt64)
  | .boolean, high => some high
  | .utf8, high | .largeUtf8, high => some (if high then ⟨[97], rfl⟩ else ⟨[], rfl⟩)
  | .binary, high | .largeBinary, high | .other _, high => some (if high then [97] else [])
  | .intervalDayTime, high => some ⟨if high then 1 else 0, 0⟩
  | .intervalMonthDayNano, high => some ⟨if high then 1 else 0, 0, 0⟩

def sampleSlot (dataType : DataType) (high : Bool) : Slot := ⟨dataType, dataType.sample high⟩

theorem encodeColumn_sampleSlot (dataType : DataType) (high : Bool) :
    encodeColumn (sampleSlot dataType high) = .ok (sampleSlot dataType high).field := by
  cases dataType <;> cases high <;> rfl

variable {dataType : DataType}

theorem Slot.eq_of_cast {slot : Slot} (h : slot.dataType = dataType) :
    (⟨dataType, h ▸ slot.value⟩ : Slot) = slot := by
  subst h
  rfl

theorem exists_batch {schema : List ColumnField} {slots : List Slot}
    (h : slots.map Slot.dataType = schema.map ColumnField.dataType) :
    ∃ (batch : RecordBatch) (r : Fin batch.numRows), batch.schema = schema ∧
      batch.row r = slots := by
  have hlength : schema.length = slots.length := by
    rw [← List.length_map ColumnField.dataType, ← h, List.length_map]
  have htype : ∀ col : Fin schema.length,
      (slots.get (col.cast hlength)).dataType = (schema.get col).dataType := by
    intro col
    have hlt : col.val < (slots.map Slot.dataType).length := by
      rw [List.length_map, ← hlength]
      exact col.isLt
    have hcol := List.getElem_of_eq h hlt
    rw [List.getElem_map, List.getElem_map] at hcol
    exact hcol
  let batch : RecordBatch :=
    ⟨schema, 1, fun col _ ↦ htype col ▸ (slots.get (col.cast hlength)).value⟩
  have hslot : ∀ col, batch.slot (0 : Fin 1) col = slots.get (col.cast hlength) := by
    intro col
    exact Slot.eq_of_cast (htype col)
  refine ⟨batch, (0 : Fin 1), rfl, List.ext_getElem ?_ fun i hi hi' ↦ ?_⟩
  · rw [RecordBatch.row, List.length_map, List.length_finRange]
    exact hlength
  · simp only [RecordBatch.row, List.getElem_map, hslot]
    simp

def slotsRow (slots : List Slot) : VersionedRow :=
  ⟨[], ⟨some (slots.flatMap Slot.field), 0, openEndedTs, 0⟩⟩

section Refuted

variable {schema : List ColumnField} {nullable : Set ℕ} {slots : List Slot}

theorem tableRows_slotsRow (h : RowOf schema nullable slots)
    (hslots : ∀ slot ∈ slots, encodeColumn slot = .ok slot.field) :
    TableRows schema nullable [slotsRow slots] := by
  intro row hrow payload hvalue
  cases List.mem_singleton.mp hrow
  cases hvalue
  obtain ⟨batch, r, hschema, rfl⟩ := exists_batch h.types
  refine ⟨batch, r, hschema, encodeRowNarrow_of_ok fun col hcol ↦ ?_, h.missing⟩
  exact hslots _ (List.mem_map_of_mem hcol)

theorem scanRows_slotsRow (slots : List Slot) :
    scanRows [slotsRow slots] [] [0] 0 = [slotsRow slots] := by
  rfl

theorem eq_of_filter_singleton {α : Type} {a : α} {p q : α → Bool}
    (h : [a].filter p = [a].filter q) : p a = q a := by
  cases hp : p a <;> cases hq : q a <;> simp_all

def AlwaysEnforced (schema : List ColumnField) (nullable : Set ℕ)
    (pred : ColumnPredicate ScalarValue) : Prop :=
  ∀ rows, TableRows schema nullable rows → Enforced schema rows [("", pred)]

/-- If a predicate is enforced on the file of one row, then its check means the same. -/
theorem AlwaysEnforced.check {pred : ColumnPredicate ScalarValue}
    (h : AlwaysEnforced schema nullable pred) (hpred : pred.WellTyped schema)
    (hrow : RowOf schema nullable slots)
    (hslots : ∀ slot ∈ slots, encodeColumn slot = .ok slot.field) :
    FilterTyped schema [pred] ∧
      keeps schema (slots.map Slot.recovered) pred =
        (slots.map Slot.recovered)[pred.column]?.any pred.evaluateScalar := by
  have htable := tableRows_slotsRow hrow hslots
  obtain ⟨returned, hscan, hreturned⟩ := h _ htable [] [0] 0 0 0 0
  have htyped : FilterTyped schema [pred] := by
    by_contra htyped
    cases hscan.symm.trans (congrArg (· >>= _) (if_neg htyped))
  have hschema : schema = [] → [("", pred)] = [] := by
    rintro rfl
    obtain ⟨field, hfield, -⟩ := hpred
    cases hfield
  obtain ⟨kept, hscan', hkept⟩ := live_scanWithFilter htable [] [0] 0 0 0 hschema htyped
  cases hscan.symm.trans hscan'
  rw [scanRows_slotsRow] at hreturned hkept
  have heq := eq_of_filter_singleton (hkept.symm.trans hreturned)
  have hdecodes : Decodes schema (slots.flatMap Slot.field) (slots.map Slot.recovered) := by
    intro memory
    rw [decodeRowValues_eq, ← hrow.types]
    exact ⟨_, (reads_slots hslots).run memory⟩
  rw [satisfiesAll_of_decodes rfl hdecodes, rowScalars_of_decodes rfl hdecodes] at heq
  simpa [slotsRow, rowMatches] using And.intro htyped heq

def samplesWith (schema : List ColumnField) (high : Bool) (col : ℕ) (slot : Slot) : List Slot :=
  (schema.map fun field ↦ sampleSlot field.dataType high).set col slot

section SamplesWith

variable {high : Bool} {col : ℕ} {slot : Slot} {field : ColumnField}

theorem getElem?_samplesWith (hfield : schema[col]? = some field) :
    (samplesWith schema high col slot)[col]? = some slot := by
  have hlt := (List.getElem?_eq_some_iff.mp hfield).1
  rw [samplesWith, List.getElem?_set_self (by rwa [List.length_map])]

theorem getElem?_samplesWith_of_ne {other : ℕ} {field' : ColumnField} (hne : col ≠ other)
    (hfield : schema[other]? = some field') :
    (samplesWith schema high col slot)[other]? = some (sampleSlot field'.dataType high) := by
  rw [samplesWith, List.getElem?_set_ne hne, List.getElem?_map, hfield]
  rfl

theorem value_sample_eq_none {dataType : DataType} (h : dataType.sample high = none) :
    dataType = .null := by
  cases dataType with
  | null => rfl
  | _ => cases h

theorem rowOf_samplesWith (hfield : schema[col]? = some field)
    (htype : slot.dataType = field.dataType) (hnull : slot.value = none → col ∈ nullable) :
    RowOf schema nullable (samplesWith schema high col slot) where
  types := by
    refine List.ext_getElem? fun i ↦ ?_
    by_cases hi : col = i
    · subst hi
      rw [List.getElem?_map, List.getElem?_map, getElem?_samplesWith hfield, hfield]
      exact congrArg some htype
    · rw [List.getElem?_map, List.getElem?_map, samplesWith, List.getElem?_set_ne hi,
        List.getElem?_map, Option.map_map]
      rfl
  missing := by
    intro i slot' hslot hnone
    by_cases hi : col = i
    · subst hi
      cases (getElem?_samplesWith hfield).symm.trans hslot
      exact .inl (hnull hnone)
    · rw [samplesWith, List.getElem?_set_ne hi, List.getElem?_map] at hslot
      obtain ⟨field', -, rfl⟩ := Option.map_eq_some_iff.mp hslot
      exact .inr (value_sample_eq_none hnone)

theorem encodeColumn_samplesWith (hslot : encodeColumn slot = .ok slot.field) :
    ∀ slot' ∈ samplesWith schema high col slot, encodeColumn slot' = .ok slot'.field := by
  intro slot' hslot'
  rcases List.mem_or_eq_of_mem_set hslot' with hmem | rfl
  · obtain ⟨field, -, rfl⟩ := List.mem_map.mp hmem
    exact encodeColumn_sampleSlot field.dataType high
  · exact hslot

end SamplesWith

end Refuted

def VortexOp.pred : VortexOp → ℕ → ScalarValue → ColumnPredicate ScalarValue
  | .eq => .eq
  | .lt => .lessThan
  | .gt => .greaterThan
  | .gtEq => .greaterThanOrEqual

section Pred

variable {op : VortexOp} {col : ℕ} {literal : ScalarValue}

@[simp] theorem column_pred : (op.pred col literal).column = col := by
  cases op <;> rfl

@[simp] theorem pushed_pred : (op.pred col literal).pushed = some (op, literal) := by
  cases op <;> rfl

@[simp] theorem canVortexPushdown_pred :
    canVortexPushdown (op.pred col literal) = literal.pushable := by
  cases op <;> rfl

theorem wellTyped_pred {schema : List ColumnField} {field : ColumnField}
    (hfield : schema[col]? = some field) (h : literal.OfType field.dataType) :
    (op.pred col literal).WellTyped schema := by
  cases op <;> exact ⟨field, hfield, h⟩

end Pred

theorem pushable_sampleSlot (h : dataType.pushable = true) (high : Bool) :
    (sampleSlot dataType high).scalar.pushable = true := by
  cases dataType <;> cases h <;> rfl

def StoredKind.sample : StoredKind → Bool → StoredValue
  | .int8, high => .int8 (if high then 1 else 0)
  | .int16, high => .int16 (if high then 1 else 0)
  | .int32, high => .int32 (if high then 1 else 0)
  | .int64, high => .int64 (if high then 1 else 0)
  | .uint8, high => .uint8 (if high then 1 else 0)
  | .uint16, high => .uint16 (if high then 1 else 0)
  | .uint32, high => .uint32 (if high then 1 else 0)
  | .uint64, high => .uint64 (if high then 1 else 0)
  | .float32, high => .float32 (if high then 1 else 0)
  | .float64, high => .float64 (if high then 1 else 0)
  | .bool, high => .bool high
  | .bytes, high => .bytes (if high then [97] else [])

theorem kind_sample (kind : StoredKind) (high : Bool) : (kind.sample high).kind = kind := by
  cases kind <;> rfl

theorem columnEntry_sampleSlot (dataType : DataType) (high : Bool) :
    columnEntry dataType (sampleSlot dataType high).recovered = none ∨
      columnEntry dataType (sampleSlot dataType high).recovered =
        some (dataType.storedKind.sample high) := by
  cases dataType <;> cases high <;> first | exact .inr rfl | exact .inl rfl

theorem eqLiteral_sampleSlot (h : dataType.pushable = true) (high : Bool) :
    (sampleSlot dataType high).scalar.eqLiteral = some (dataType.storedKind.sample high) := by
  cases dataType <;> cases h <;> cases high <;> rfl

def VortexOp.accepts : VortexOp → Bool → Bool
  | .eq, high | .gtEq, high => high
  | .lt, high | .gt, high => !high

def VortexOp.splits : VortexOp → Bool → Bool
  | .eq, _ => true
  | .lt, high | .gtEq, high => high
  | .gt, high => !high

theorem evaluateScalar_sample (hpushable : dataType.pushable = true)
    {op : VortexOp} {high : Bool} (h : op.splits high = true) (col : ℕ) (value : Bool) :
    (op.pred col (sampleSlot dataType high).scalar).evaluateScalar
      (sampleSlot dataType value).recovered = (value == op.accepts high) := by
  cases op <;> cases high <;> cases h <;> cases dataType <;> cases hpushable <;> cases value <;> rfl

theorem selects_sample {op : VortexOp} {high : Bool} (h : op.splits high = true) (col : ℕ)
    (kind : StoredKind) :
    (⟨col, op, kind.sample high⟩ : VortexExpr).selects
      (some (kind.sample (!op.accepts high))) = false := by
  cases op <;> cases high <;> cases h <;> cases kind <;> rfl

section Refuted

variable {schema : List ColumnField} {nullable : Set ℕ} {op : VortexOp} {col : ℕ}
  {field : ColumnField} {high : Bool}

section

variable (hfield : schema[col]? = some field)

include hfield

theorem rowOf_samples (hpushable : field.dataType.pushable = true) (first value : Bool) :
    RowOf schema nullable (samplesWith schema first col (sampleSlot field.dataType value)) := by
  refine rowOf_samplesWith hfield rfl fun hnone ↦ ?_
  rw [value_sample_eq_none hnone] at hpushable
  cases hpushable

/-- A dropped comparison keeps a row that does not satisfy it. -/
theorem AlwaysEnforced.ordered
    (hpushable : field.dataType.pushable = true) (hop : op ≠ .eq) (hsplits : op.splits high = true)
    (h : AlwaysEnforced schema nullable (op.pred col (sampleSlot field.dataType high).scalar)) :
    field.dataType.ordered = true := by
  by_contra hordered
  have htype : (sampleSlot field.dataType high).scalar.OfType field.dataType := ⟨_, rfl⟩
  obtain ⟨-, hkeeps⟩ := h.check (wellTyped_pred hfield htype)
    (rowOf_samples hfield hpushable high !op.accepts high)
    (encodeColumn_samplesWith (encodeColumn_sampleSlot _ _))
  rw [keeps, canVortexPushdown_pred, if_pos (pushable_sampleSlot hpushable high),
    columnPredToVortex_of_pushed pushed_pred, if_neg hop, ScalarValue.orderLiteral_eq htype,
    if_neg hordered, column_pred, List.getElem?_map, getElem?_samplesWith hfield,
    Option.map_some, Option.any_some, evaluateScalar_sample hpushable hsplits] at hkeeps
  cases haccepts : op.accepts high <;> rw [haccepts] at hkeeps <;> cases hkeeps

theorem AlwaysEnforced.column_lt (hpushable : field.dataType.pushable = true)
    (hordered : op ≠ .eq → field.dataType.ordered = true) (hsplits : op.splits high = true)
    (h : AlwaysEnforced schema nullable (op.pred col (sampleSlot field.dataType high).scalar)) :
    col < 256 := by
  by_contra hlt
  have htype : (sampleSlot field.dataType high).scalar.OfType field.dataType := ⟨_, rfl⟩
  obtain ⟨first, hfirst⟩ : ∃ first, schema[0]? = some first := by
    have hcol := (List.getElem?_eq_some_iff.mp hfield).1
    exact ⟨_, List.getElem?_eq_getElem (by omega)⟩
  have hexpr : columnPredToVortex (op.pred col (sampleSlot field.dataType high).scalar) =
      some ⟨0, op, field.dataType.storedKind.sample high⟩ := by
    rw [columnPredToVortex_of_pushed pushed_pred, column_pred, vortexColumn, if_neg hlt,
      ScalarValue.orderLiteral_eq htype, eqLiteral_sampleSlot hpushable]
    split
    · rfl
    next hop => rw [if_pos (hordered hop)]; rfl
  obtain ⟨htyped, hkeeps⟩ := h.check (wellTyped_pred hfield htype)
    (rowOf_samples hfield hpushable (!op.accepts high) (op.accepts high))
    (encodeColumn_samplesWith (encodeColumn_sampleSlot _ _))
  have hpush := pushable_sampleSlot hpushable high
  have hkind : first.dataType.storedKind = field.dataType.storedKind := by
    simpa [FilterTyped, pushedFilter, hpush, hexpr, VortexExpr.typed, hfirst,
      kind_sample] using htyped
  have hzero : col ≠ 0 := by omega
  rw [keeps, canVortexPushdown_pred, if_pos hpush, hexpr, Option.all_some,
    selectsIn_of_slot hfirst (getElem?_samplesWith_of_ne hzero hfirst), column_pred,
    List.getElem?_map, getElem?_samplesWith hfield, Option.map_some, Option.any_some,
    evaluateScalar_sample hpushable hsplits, beq_self_eq_true] at hkeeps
  rcases columnEntry_sampleSlot first.dataType (!op.accepts high) with hentry | hentry
  · rw [hentry] at hkeeps
    cases hkeeps
  · rw [hentry, hkind, selects_sample hsplits] at hkeeps
    cases hkeeps

theorem AlwaysEnforced.not_mem_nullable (hboolean : field.dataType = .boolean) (hlt : col < 256)
    (h : AlwaysEnforced schema nullable (.eq col (.boolean (some false)))) : col ∉ nullable := by
  intro hnull
  have htype : (ScalarValue.boolean (some false)).OfType field.dataType := by
    rw [hboolean]
    exact ⟨some false, rfl⟩
  have hrow : RowOf schema nullable (samplesWith schema false col ⟨.boolean, none⟩) :=
    rowOf_samplesWith hfield hboolean.symm fun _ ↦ hnull
  obtain ⟨-, hkeeps⟩ := h.check ⟨field, hfield, htype⟩ hrow (encodeColumn_samplesWith rfl)
  have hexpr : columnPredToVortex (.eq col (.boolean (some false))) =
      some ⟨col, .eq, .bool false⟩ := by
    rw [columnPredToVortex, vortexColumn, if_pos hlt]
    rfl
  have hpush : canVortexPushdown (.eq col (.boolean (some false))) = true := rfl
  rw [keeps, if_pos hpush, hexpr, Option.all_some,
    selectsIn_of_slot hfield (getElem?_samplesWith hfield), hboolean, List.getElem?_map,
    ColumnPredicate.column, getElem?_samplesWith hfield] at hkeeps
  cases hkeeps

end

end Refuted

end Samples

theorem comparison_eq_sample {dataType : DataType} (h : dataType.pushable = true) (col : ℕ) :
    (VortexOp.eq.pred col (sampleSlot dataType true).scalar).comparison = .eq := by
  cases dataType <;> cases h <;> rfl

/-- Predicates of the given kinds are enforced on every file of the table if and only if
each kind is faithful on its column. -/
theorem enforced_iff_faithful (schema : List ColumnField) (nullable : Set ℕ)
    (kinds : Set (Comparison × ℕ)) :
    (∀ predicates : List (String × ColumnPredicate ScalarValue),
      (∀ pred ∈ predicates.map Prod.snd,
        pred.WellTyped schema ∧ (pred.comparison, pred.column) ∈ kinds) →
      ∀ rows, TableRows schema nullable rows → Enforced schema rows predicates) ↔
      ∀ comparison col, (comparison, col) ∈ kinds → Faithful schema nullable comparison col := by
  constructor
  · intro h comparison col hkind field hfield hpushable
    have halways : ∀ {pred : ColumnPredicate ScalarValue}, pred.WellTyped schema →
        (pred.comparison, pred.column) ∈ kinds → AlwaysEnforced schema nullable pred := by
      intro pred hpred hkind rows hrows
      refine h [("", pred)] (fun pred' hmem ↦ ?_) rows hrows
      cases List.mem_singleton.mp hmem
      exact ⟨hpred, hkind⟩
    have hwell : ∀ (op : VortexOp) high,
        (op.pred col (sampleSlot field.dataType high).scalar).WellTyped schema :=
      fun op high ↦ wellTyped_pred hfield ⟨_, rfl⟩
    have horder : ∀ (op : VortexOp) high, op ≠ .eq → op.splits high = true →
        AlwaysEnforced schema nullable (op.pred col (sampleSlot field.dataType high).scalar) →
        col < 256 ∧ field.dataType.ordered = true := by
      intro op high hop hsplits henforced
      have hordered := henforced.ordered hfield hpushable hop hsplits
      exact ⟨henforced.column_lt hfield hpushable (fun _ ↦ hordered) hsplits, hordered⟩
    cases comparison with
    | lessThanOrEqual | range => trivial
    | lessThan => exact horder .lt true nofun rfl (halways (hwell .lt true) hkind)
    | greaterThan => exact horder .gt false nofun rfl (halways (hwell .gt false) hkind)
    | greaterThanOrEqual => exact horder .gtEq true nofun rfl (halways (hwell .gtEq true) hkind)
    | eq =>
      have henforced := halways (hwell .eq true) (by
        rw [comparison_eq_sample hpushable]
        exact hkind)
      exact henforced.column_lt hfield hpushable (fun hne ↦ absurd rfl hne) rfl
    | eqFalse =>
      intro hboolean
      have hwell := hwell .eq false
      rw [hboolean] at hwell
      have henforced := halways hwell hkind
      have hlt : col < 256 := by
        rw [← hboolean] at henforced
        exact henforced.column_lt hfield hpushable (fun hne ↦ absurd rfl hne) rfl
      exact ⟨hlt, henforced.not_mem_nullable hfield hboolean hlt⟩
  · intro h predicates hpreds rows hrows
    refine enforced_of_faithful hrows fun pred hpred ↦ ?_
    obtain ⟨hwell, hkind⟩ := hpreds pred hpred
    exact ⟨hwell, h _ _ hkind⟩

def countSchema : List ColumnField := [⟨"count", .uint32⟩, ⟨"flag", .boolean⟩]

def countRow : VersionedRow := ⟨[117, 0, 7], ⟨some [1, 5, 0, 0, 0, 0], 1, openEndedTs, 0⟩⟩

/-- A row with count 5 and no flag passes `count < 3` and `flag = false`, and a comparison
with column 256 is one with column 0. -/
theorem unsatisfied_row_returned :
    scanWithFilter (.write [countRow] countSchema 0) [117, 0] [117, 1] 1
        [("count", .lessThan 0 (.uint32 (some 3)))] (some countSchema) 0 = .ok [countRow] ∧
      satisfiesAll countSchema [.lessThan 0 (.uint32 (some 3))] 0 countRow = false ∧
      scanWithFilter (.write [countRow] countSchema 0) [117, 0] [117, 1] 1
        [("flag", .eq 1 (.boolean (some false)))] (some countSchema) 0 = .ok [countRow] ∧
      satisfiesAll countSchema [.eq 1 (.boolean (some false))] 0 countRow = false ∧
      columnPredToVortex (.eq 256 (.int64 (some 7))) = some ⟨0, .eq, .int64 7⟩ :=
  ⟨rfl, rfl, rfl, rfl, rfl⟩

end HatP
