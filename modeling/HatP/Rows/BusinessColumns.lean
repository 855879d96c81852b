import HatP.Rows.Bounds

/-!
# Business columns

Besides the row payloads a file has a column for each column of one table.  The table
is that of the first row, and every payload is decoded with its schema.  A column is a
mirror of the payloads if the payload of each row has the layout of that schema, and if
no Boolean is missing, as the Boolean column has no nulls.
-/

namespace HatP

variable {field : Bytes} {c : Cursor} {schema : List ColumnField} {row : VersionedRow} {i : ℕ}

open LittleEndian RawReader

/-! ## Writing the columns -/

/-- An entry of a column that is not null. -/
inductive StoredValue
  | int8 (v : Int8)
  | int16 (v : Int16)
  | int32 (v : Int32)
  | int64 (v : Int64)
  | uint8 (v : UInt8)
  | uint16 (v : UInt16)
  | uint32 (v : UInt32)
  | uint64 (v : UInt64)
  | float32 (bits : UInt32)
  | float64 (bits : UInt64)
  | bool (v : Bool)
  | bytes (v : Bytes)
  /-- The debug string of a scalar. -/
  | debug (scalar : ScalarValue)
deriving DecidableEq

/-- The entry that `build_column_array` makes of one scalar. -/
def columnEntry : DataType → ScalarValue → Option StoredValue
  | .int64, .int64 (some v) => some (.int64 v)
  | .int64, _ => none
  | .int32, .int32 (some v) => some (.int32 v)
  | .int32, _ => none
  | .int16, .int16 (some v) => some (.int16 v)
  | .int16, _ => none
  | .int8, .int8 (some v) => some (.int8 v)
  | .int8, _ => none
  | .uint64, .uint64 (some v) => some (.uint64 v)
  | .uint64, _ => none
  | .uint32, .uint32 (some v) => some (.uint32 v)
  | .uint32, _ => none
  | .uint16, .uint16 (some v) => some (.uint16 v)
  | .uint16, _ => none
  | .uint8, .uint8 (some v) => some (.uint8 v)
  | .uint8, _ => none
  | .float64, .float64 (some bits) => some (.float64 bits)
  | .float64, _ => none
  | .float32, .float32 (some bits) => some (.float32 bits)
  | .float32, _ => none
  | .boolean, scalar => some (.bool (scalar = .boolean (some true)))
  | .utf8, .utf8 (some s) | .utf8, .largeUtf8 (some s) => some (.bytes s)
  | .utf8, _ => none
  | .largeUtf8, .utf8 (some s) | .largeUtf8, .largeUtf8 (some s) => some (.bytes s)
  | .largeUtf8, _ => none
  | .binary, .binary (some v) | .binary, .largeBinary (some v) => some (.bytes v)
  | .binary, _ => none
  | .largeBinary, .binary (some v) | .largeBinary, .largeBinary (some v) => some (.bytes v)
  | .largeBinary, _ => none
  | .date32, .date32 (some v) => some (.int32 v)
  | .date32, _ => none
  | .date64, .date64 (some v) => some (.int64 v)
  | .date64, _ => none
  | .timestamp _ _, .timestamp _ (some v) _ => some (.int64 v)
  | .timestamp _ _, _ => none
  | _, scalar => if scalar.isNull then none else some (.debug scalar)

def buildColumnArray (scalars : List ScalarValue) (dataType : DataType) :
    List (Option StoredValue) :=
  scalars.map (columnEntry dataType)

/-- The nulls of the file writer, which has fewer types than the decoder. -/
def sstTypedNull : DataType → ScalarValue
  | .int8 => .int8 none
  | .int16 => .int16 none
  | .int32 => .int32 none
  | .int64 => .int64 none
  | .uint8 => .uint8 none
  | .uint16 => .uint16 none
  | .uint32 => .uint32 none
  | .uint64 => .uint64 none
  | .float32 => .float32 none
  | .float64 => .float64 none
  | .boolean => .boolean none
  | .utf8 => .utf8 none
  | .largeUtf8 => .largeUtf8 none
  | .binary => .binary none
  | .largeBinary => .largeBinary none
  | .date32 => .date32 none
  | .date64 => .date64 none
  | _ => .null

/-- The scalars of one row, null for a tombstone and where decoding fails. -/
def rowScalars (schema : List ColumnField) (row : VersionedRow) (behind : ℕ → UInt8) :
    List ScalarValue :=
  match row.version.value with
  | some payload =>
    match (decodeRowValues schema).run ⟨payload, behind⟩ with
    | .ok (decoded, _) => decoded
    | .error _ => schema.map fun field ↦ sstTypedNull field.dataType
  | none => schema.map fun field ↦ sstTypedNull field.dataType

/-- The columns `col_0`, `col_1`, …; `behind` is the memory behind the payloads. -/
def businessColumns (rows : List VersionedRow) (rowSchema : Option (List ColumnField))
    (behind : ℕ → ℕ → UInt8) : List (List (Option StoredValue)) :=
  match rowSchema with
  | none => []
  | some schema =>
    let decoded := rows.mapIdx fun i row ↦ rowScalars schema row (behind i)
    schema.mapIdx fun col field ↦
      buildColumnArray (decoded.map fun scalars ↦ scalars.getD col .null) field.dataType

def tableName (key : Bytes) : Bytes :=
  let table := keyTablePrefix key
  if table.getLast? = some 0 then table.dropLast else table

/-- The registered schemas by table name. -/
abbrev TableSchemas := Bytes → Option (List ColumnField)

def fileSchema (schemas : TableSchemas) (rows : List VersionedRow) : Option (List ColumnField) :=
  rows.head?.bind fun row ↦ schemas (tableName row.key)

/-! ## What a column can hold -/

def ScalarValue.entry : ScalarValue → Option StoredValue
  | .int8 v => v.map .int8
  | .int16 v => v.map .int16
  | .int32 v | .date32 v => v.map .int32
  | .int64 v | .date64 v | .timestamp _ v _ => v.map .int64
  | .uint8 v => v.map .uint8
  | .uint16 v => v.map .uint16
  | .uint32 v => v.map .uint32
  | .uint64 v => v.map .uint64
  | .float32 bits => bits.map .float32
  | .float64 bits => bits.map .float64
  | .boolean v => v.map .bool
  | .utf8 v | .largeUtf8 v | .binary v | .largeBinary v => v.map .bytes
  | scalar => if scalar.isNull then none else some (.debug scalar)

def DataType.Stores : DataType → StoredValue → Prop
  | .int8, .int8 _ | .int16, .int16 _ | .int32, .int32 _ | .date32, .int32 _ => True
  | .int64, .int64 _ | .date64, .int64 _ | .timestamp _ _, .int64 _ => True
  | .uint8, .uint8 _ | .uint16, .uint16 _ | .uint32, .uint32 _ | .uint64, .uint64 _ => True
  | .float32, .float32 _ | .float64, .float64 _ | .boolean, .bool _ => True
  | .utf8, .bytes s | .largeUtf8, .bytes s => validUtf8 s = true
  | .binary, .bytes _ | .largeBinary, .bytes _ => True
  | _, _ => False

/-- The column mirrors the slot: it has entries of the kind of its value, or nulls. -/
def DataType.Fits (dataType : DataType) (slot : Slot) : Prop :=
  match slot.recovered.entry with
  | some value => dataType.Stores value
  | none => dataType ≠ .boolean

def StoredValue.Wire : StoredValue → Bytes → Prop
  | .int8 v, field => field = [v.toUInt8]
  | .int16 v, field => field = encode 2 v.toUInt16.toNat
  | .int32 v, field => field = encode 4 v.toUInt32.toNat
  | .int64 v, field => field = encode 8 v.toUInt64.toNat
  | .uint8 v, field => field = [v]
  | .uint16 v, field => field = encode 2 v.toNat
  | .uint32 v, field | .float32 v, field => field = encode 4 v.toNat
  | .uint64 v, field | .float64 v, field => field = encode 8 v.toNat
  | .bool v, field => field = [if v then 1 else 0]
  | .bytes v, field => putLenPrefixed v = .ok field
  | .debug _, _ => False

variable {dataType : DataType}
  {value : StoredValue} {rows : List VersionedRow} {behind : ℕ → ℕ → UInt8} {batch : RecordBatch}

theorem encodeColumn_stored {slot : Slot} (h : encodeColumn slot = .ok field)
    (hstored : (slot.dataType.extracted && slot.value.isSome) = true) :
    ∃ value rest, slot.recovered.entry = some value ∧ value.Wire rest ∧ field = 1 :: rest := by
  obtain ⟨dataType, value⟩ := slot
  obtain ⟨hextracted, hpresent⟩ := (Bool.and_eq_true _ _).mp hstored
  cases value with
  | none => cases hpresent
  | some v =>
    cases dataType with
    | utf8 | largeUtf8 | binary | largeBinary =>
      change (putLenPrefixed _ >>= fun rest ↦ .ok (1 :: rest)) = _ at h
      obtain ⟨rest, hput, ⟨⟩⟩ := Fallible.bind_eq_ok h
      exact ⟨.bytes _, rest, rfl, hput, rfl⟩
    | null | time32Second | time32Millisecond | time64Microsecond | time64Nanosecond
    | intervalYearMonth | intervalDayTime | intervalMonthDayNano | duration | other =>
      cases hextracted
    | _ =>
      cases h
      exact ⟨_, _, rfl, rfl, rfl⟩

theorem reads_of_stores (h : dataType.Stores value) (hwire : value.Wire field) :
    ∃ x, Reads (valueBytesToScalar dataType) field x ∧ columnEntry dataType x = some value := by
  cases dataType with
  | int8 =>
    cases value with
    | int8 v => cases hwire; exact ⟨_, (reads_readByte v.toUInt8).map _, rfl⟩
    | _ => exact h.elim
  | int16 =>
    cases value with
    | int16 v => cases hwire; exact ⟨_, (reads_readU16 v.toUInt16).map _, rfl⟩
    | _ => exact h.elim
  | int32 | date32 =>
    cases value with
    | int32 v => cases hwire; exact ⟨_, (reads_readI32 v).map _, rfl⟩
    | _ => exact h.elim
  | int64 | date64 | timestamp =>
    cases value with
    | int64 v => cases hwire; exact ⟨_, (reads_readI64 v).map _, rfl⟩
    | _ => exact h.elim
  | uint8 =>
    cases value with
    | uint8 v => cases hwire; exact ⟨_, (reads_readByte v).map _, rfl⟩
    | _ => exact h.elim
  | uint16 =>
    cases value with
    | uint16 v => cases hwire; exact ⟨_, (reads_readU16 v).map _, rfl⟩
    | _ => exact h.elim
  | uint32 =>
    cases value with
    | uint32 v => cases hwire; exact ⟨_, (reads_readU32 v).map _, rfl⟩
    | _ => exact h.elim
  | float32 =>
    cases value with
    | float32 bits => cases hwire; exact ⟨_, (reads_readU32 bits).map _, rfl⟩
    | _ => exact h.elim
  | uint64 =>
    cases value with
    | uint64 v => cases hwire; exact ⟨_, (reads_readU64 v).map _, rfl⟩
    | _ => exact h.elim
  | float64 =>
    cases value with
    | float64 bits => cases hwire; exact ⟨_, (reads_readU64 bits).map _, rfl⟩
    | _ => exact h.elim
  | boolean =>
    cases value with
    | bool v =>
      cases hwire
      cases v with
      | false => exact ⟨_, (reads_readByte 0).map _, rfl⟩
      | true => exact ⟨_, (reads_readByte 1).map _, rfl⟩
    | _ => exact h.elim
  | utf8 | largeUtf8 =>
    cases value with
    | bytes s => exact ⟨_, (reads_takeString h hwire).map _, rfl⟩
    | _ => exact h.elim
  | binary | largeBinary =>
    cases value with
    | bytes v => exact ⟨_, (reads_takeLenPrefixed hwire).map _, rfl⟩
    | _ => exact h.elim
  | _ => exact h.elim

theorem stores_of_ok {s : Slice UInt8} {p : ℕ} {x : ScalarValue}
    (h : valueBytesToScalar dataType s (.after p) = .ok (x, c))
    (hentry : columnEntry dataType x = some value) :
    dataType.Stores value ∨ ∃ scalar, value = .debug scalar := by
  cases dataType with
  | null | other => cases h
  | utf8 | largeUtf8 =>
    obtain ⟨v, last, hv, h⟩ := bind_eq_ok h
    cases h
    cases hentry
    exact .inl (takeString_ok hv).1
  | intervalDayTime =>
    obtain ⟨days, mid, -, h⟩ := bind_eq_ok h
    obtain ⟨milliseconds, last, -, h⟩ := bind_eq_ok h
    cases h
    cases hentry
    exact .inr ⟨_, rfl⟩
  | intervalMonthDayNano =>
    obtain ⟨months, first, -, h⟩ := bind_eq_ok h
    obtain ⟨days, second, -, h⟩ := bind_eq_ok h
    obtain ⟨nanoseconds, last, -, h⟩ := bind_eq_ok h
    cases h
    cases hentry
    exact .inr ⟨_, rfl⟩
  | time32Second | time32Millisecond | time64Microsecond | time64Nanosecond | intervalYearMonth
  | duration =>
    obtain ⟨v, last, -, h⟩ := bind_eq_ok h
    cases h
    cases hentry
    exact .inr ⟨_, rfl⟩
  | _ =>
    obtain ⟨v, last, -, h⟩ := bind_eq_ok h
    cases h
    cases hentry
    exact .inl trivial

/-! ## One column of a row -/

theorem ScalarValue.entry_of_isNull {scalar : ScalarValue} (h : scalar.isNull = true) :
    scalar.entry = none := by
  cases scalar <;> simp_all [entry, isNull]

theorem columnEntry_typedNull (dataType : DataType) :
    columnEntry dataType (typedNull dataType) =
      if dataType = .boolean then some (.bool false) else none := by
  cases dataType <;> rfl

theorem columnEntry_sstTypedNull (dataType : DataType) :
    columnEntry dataType (sstTypedNull dataType) =
      if dataType = .boolean then some (.bool false) else none := by
  cases dataType <;> rfl

theorem field_of_not_stored {slot : Slot}
    (h : (slot.dataType.extracted && slot.value.isSome) = false) :
    slot.field = [0] ∧ slot.recovered.entry = none := by
  constructor
  · rw [Slot.field, encodeColumn, isNull_arraySlotToScalar, h]
    rfl
  · rw [Slot.recovered, h, if_neg Bool.false_ne_true]
    exact ScalarValue.entry_of_isNull (isNull_typedNull _)

section Columns

variable {dataType : DataType} {slot : Slot} {s : Slice UInt8} {p : ℕ} {rest : Bytes}

theorem decodeTyped_of_fits (hfits : dataType.Fits slot)
    (hslot : encodeColumn slot = .ok slot.field) (hdata : s.data.drop p = slot.field ++ rest)
    (hp : p ≤ s.data.length) :
    ∃ x, decodeTyped dataType s (.after p) = .ok (x, .after (p + slot.field.length)) ∧
      columnEntry dataType x = slot.recovered.entry := by
  rw [DataType.Fits] at hfits
  cases hstored : slot.dataType.extracted && slot.value.isSome with
  | false =>
    obtain ⟨hfield, hentry⟩ := field_of_not_stored hstored
    rw [hentry] at hfits
    rw [hfield] at hdata ⊢
    have hreads : Reads (decodeTyped dataType) [0] (typedNull dataType) :=
      (reads_element 0 _).bind (.pure _)
    refine ⟨typedNull dataType, hreads.apply hdata hp, ?_⟩
    rw [columnEntry_typedNull, if_neg hfits, hentry]
  | true =>
    obtain ⟨value, wire, hentry, hwire, hfield⟩ := encodeColumn_stored hslot hstored
    rw [hentry] at hfits
    obtain ⟨x, hx, hcolumn⟩ := reads_of_stores hfits hwire
    rw [hfield] at hdata ⊢
    have hreads : Reads (decodeTyped dataType) (1 :: wire) x := (reads_element 1 _).bind hx
    exact ⟨x, hreads.apply hdata hp, hcolumn.trans hentry.symm⟩

theorem fits_of_columnEntry (hslot : encodeColumn slot = .ok slot.field)
    (hdata : s.data.drop p = slot.field ++ rest) {x : ScalarValue}
    (h : decodeTyped dataType s (.after p) = .ok (x, c))
    (hentry : columnEntry dataType x = slot.recovered.entry) : dataType.Fits slot := by
  obtain ⟨marker, next, hmarker, hvalue⟩ := bind_eq_ok h
  obtain ⟨tail, htail, rfl⟩ := element_eq_ok hmarker
  rw [DataType.Fits]
  cases hstored : slot.dataType.extracted && slot.value.isSome with
  | false =>
    obtain ⟨hfield, hnone⟩ := field_of_not_stored hstored
    rw [hfield] at hdata
    cases htail.symm.trans hdata
    cases hvalue
    rw [hnone] at hentry ⊢
    intro hboolean
    rw [columnEntry_typedNull, if_pos hboolean] at hentry
    cases hentry
  | true =>
    obtain ⟨value, wire, hsome, hwire, hfield⟩ := encodeColumn_stored hslot hstored
    rw [hfield] at hdata
    cases htail.symm.trans hdata
    rw [hsome] at hentry ⊢
    rcases stores_of_ok hvalue hentry with hstores | ⟨scalar, rfl⟩
    · exact hstores
    · exact hwire.elim

end Columns

/-! ## One row -/

section Rows

variable {types : List DataType} {slots : List Slot} {s : Slice UInt8} {p : ℕ} {rest : Bytes}

theorem drop_field {slot : Slot} (hdata : s.data.drop p = slot.field ++ rest)
    (hp : p ≤ s.data.length) :
    s.data.drop (p + slot.field.length) = rest ∧ p + slot.field.length ≤ s.data.length := by
  have hlength := length_eq_of_drop hdata hp
  rw [List.length_append] at hlength
  rw [← List.drop_drop, hdata, List.drop_left]
  exact ⟨rfl, by omega⟩

theorem all_of_fits (hfits : List.Forall₂ DataType.Fits types slots)
    (hslots : ∀ slot ∈ slots, encodeColumn slot = .ok slot.field)
    (hdata : s.data.drop p = slots.flatMap Slot.field ++ rest) (hp : p ≤ s.data.length) :
    ∃ xs, all decodeTyped types s (.after p) =
        .ok (xs, .after (p + (slots.flatMap Slot.field).length)) ∧
      List.zipWith columnEntry types xs = slots.map fun slot ↦ slot.recovered.entry := by
  induction hfits generalizing p with
  | nil => exact ⟨[], rfl, rfl⟩
  | @cons dataType slot types slots hhead _ ih =>
    obtain ⟨hslot, htail⟩ := List.forall_mem_cons.mp hslots
    rw [List.flatMap_cons, List.append_assoc] at hdata
    obtain ⟨x, hx, hentry⟩ := decodeTyped_of_fits hhead hslot hdata hp
    obtain ⟨hdrop, hle⟩ := drop_field hdata hp
    obtain ⟨xs, hxs, hentries⟩ := ih htail hdrop hle
    refine ⟨x :: xs, ?_, ?_⟩
    · rw [all, bind_apply_ok hx, bind_apply_ok hxs, List.flatMap_cons, List.length_append,
        ← Nat.add_assoc]
      rfl
    · rw [List.zipWith_cons_cons, hentry, hentries, List.map_cons]

theorem fits_of_all (hslots : ∀ slot ∈ slots, encodeColumn slot = .ok slot.field)
    (hdata : s.data.drop p = slots.flatMap Slot.field ++ rest) (hp : p ≤ s.data.length)
    {xs : List ScalarValue} (h : all decodeTyped types s (.after p) = .ok (xs, c))
    (hentries : ∀ i slot, slots[i]? = some slot → ∃ dataType, types[i]? = some dataType ∧
      columnEntry dataType (xs.getD i .null) = slot.recovered.entry) :
    List.Forall₂ DataType.Fits (types.take slots.length) slots := by
  induction slots generalizing types p xs with
  | nil => exact .nil
  | cons slot slots ih =>
    obtain ⟨hslot, htail⟩ := List.forall_mem_cons.mp hslots
    rw [List.flatMap_cons, List.append_assoc] at hdata
    obtain ⟨dataType, hdataType, hentry⟩ := hentries 0 slot rfl
    cases types with
    | nil => cases hdataType
    | cons dataType' types =>
      cases hdataType
      obtain ⟨x, next, hx, h⟩ := bind_eq_ok h
      obtain ⟨xs', last, hxs, h⟩ := bind_eq_ok h
      cases h
      have hfits := fits_of_columnEntry hslot hdata hx hentry
      obtain ⟨y, hy, -⟩ := decodeTyped_of_fits hfits hslot hdata hp
      cases hx.symm.trans hy
      obtain ⟨hdrop, hle⟩ := drop_field hdata hp
      exact .cons hfits (ih htail hdrop hle hxs fun i slot hi ↦ hentries (i + 1) slot hi)

end Rows

/-- The columns of the file have the layout of the row.  If the file has more columns,
the row can only have values that are stored like nulls. -/
structure RowFits (types : List DataType) (slots : List Slot) : Prop where
  length : slots.length ≤ types.length
  fits : List.Forall₂ DataType.Fits (types.take slots.length) slots
  blank : slots.length = types.length ∨ ∀ slot ∈ slots, slot.recovered.entry = none ∨
    slot.recovered.entry = some (.bool false)

def RowMirrored (types : List DataType) (scalars : List ScalarValue) (slots : List Slot) : Prop :=
  ∀ i slot, slots[i]? = some slot → ∃ dataType, types[i]? = some dataType ∧
    columnEntry dataType (scalars.getD i .null) = slot.recovered.entry

theorem eq_boolean_of_stores {v : Bool} (h : dataType.Stores (.bool v)) : dataType = .boolean := by
  cases dataType with
  | boolean => rfl
  | _ => exact h.elim

theorem forall₂_take_iff {α β : Type} {R : α → β → Prop} {as : List α} {bs : List β}
    (h : bs.length ≤ as.length) :
    List.Forall₂ R (as.take bs.length) bs ↔
      ∀ (i : ℕ) a b, as[i]? = some a → bs[i]? = some b → R a b := by
  induction bs generalizing as with
  | nil => simp
  | cons b bs ih =>
    cases as with
    | nil => cases h
    | cons a as =>
      rw [List.length_cons, List.take_succ_cons, List.forall₂_cons, ih (Nat.le_of_succ_le_succ h)]
      constructor
      · rintro ⟨hhead, htail⟩ i a' b' ha hb
        cases i with
        | zero => cases ha; cases hb; exact hhead
        | succ i => exact htail i a' b' ha hb
      · exact fun hall ↦ ⟨hall 0 a b rfl rfl, fun i ↦ hall (i + 1)⟩

section RowMirrored

variable {types : List DataType} {slots : List Slot}

theorem run_of_fits_of_lt (hfits : List.Forall₂ DataType.Fits (types.take slots.length) slots)
    (hslots : ∀ slot ∈ slots, encodeColumn slot = .ok slot.field)
    (hlt : slots.length < types.length) (behind : ℕ → UInt8) :
    ∃ err, (all decodeTyped types).run ⟨slots.flatMap Slot.field, behind⟩ = .error err := by
  obtain ⟨xs, hxs, -⟩ := all_of_fits (s := ⟨slots.flatMap Slot.field, behind⟩) (p := 0)
    hfits hslots (List.append_nil _).symm (Nat.zero_le _)
  refine ⟨.corrupt "row codec: truncated null marker", ?_⟩
  rw [← List.take_append_drop slots.length types, List.drop_eq_getElem_cons hlt, all_append, run,
    bind_apply_ok hxs]
  apply bind_apply_error
  rw [all]
  apply bind_apply_error
  rw [decodeTyped]
  apply bind_apply_error
  simp [nullMarker, element]

theorem rowMirrored_of_zipWith {xs : List ScalarValue}
    (h : List.zipWith columnEntry types xs = slots.map fun slot ↦ slot.recovered.entry) :
    RowMirrored types xs slots := by
  intro i slot hslot
  have hi := congrArg (fun entries ↦ entries[i]?) h
  simp only [List.getElem?_zipWith, List.getElem?_map, hslot] at hi
  cases htype : types[i]? with
  | none =>
    rw [htype] at hi
    cases hi
  | some dataType =>
    refine ⟨dataType, rfl, ?_⟩
    rw [htype] at hi
    cases hx : xs[i]? with
    | none =>
      rw [hx] at hi
      cases hi
    | some x =>
      rw [hx] at hi
      rw [List.getD_eq_getElem?_getD, hx]
      exact Option.some_inj.mp hi

theorem getD_map_sstTypedNull {dataType : DataType} (h : types[i]? = some dataType) :
    (types.map sstTypedNull).getD i .null = sstTypedNull dataType := by
  rw [List.getD_eq_getElem?_getD, List.getElem?_map, h]
  rfl

theorem rowFits_of_nulls (hlength : slots.length ≤ types.length)
    (h : RowMirrored types (types.map sstTypedNull) slots) : RowFits types slots := by
  have hentries : ∀ (i : ℕ) dataType slot, types[i]? = some dataType → slots[i]? = some slot →
      slot.recovered.entry = if dataType = .boolean then some (.bool false) else none := by
    intro i dataType slot htype hslot
    obtain ⟨dataType', htype', hentry⟩ := h i slot hslot
    cases htype.symm.trans htype'
    rw [← hentry, getD_map_sstTypedNull htype, columnEntry_sstTypedNull]
  refine ⟨hlength, (forall₂_take_iff hlength).mpr fun i dataType slot htype hslot ↦ ?_, .inr ?_⟩
  · rw [DataType.Fits, hentries i dataType slot htype hslot]
    split
    next hentry =>
      split at hentry
      next hboolean =>
        cases hentry
        rw [hboolean]
        trivial
      next => cases hentry
    next hentry =>
      split at hentry
      next => cases hentry
      next hboolean => exact hboolean
  · intro slot hslot
    obtain ⟨i, hi⟩ := List.mem_iff_getElem?.mp hslot
    obtain ⟨dataType, htype, -⟩ := h i slot hi
    rw [hentries i dataType slot htype hi]
    split
    · exact .inr rfl
    · exact .inl rfl

theorem rowMirrored_of_blank (h : RowFits types slots)
    (hblank : ∀ slot ∈ slots, slot.recovered.entry = none ∨
      slot.recovered.entry = some (.bool false)) :
    RowMirrored types (types.map sstTypedNull) slots := by
  intro i slot hslot
  have hi : i < types.length :=
    Nat.lt_of_lt_of_le (List.getElem?_eq_some_iff.mp hslot).1 h.length
  have htype := List.getElem?_eq_getElem hi
  have hfits := (forall₂_take_iff h.length).mp h.fits i _ slot htype hslot
  refine ⟨types[i], htype, ?_⟩
  rw [getD_map_sstTypedNull htype, columnEntry_sstTypedNull]
  rw [DataType.Fits] at hfits
  rcases hblank slot (List.mem_of_getElem? hslot) with hnone | hfalse
  · rw [hnone] at hfits ⊢
    exact if_neg hfits
  · rw [hfalse] at hfits ⊢
    exact if_pos (eq_boolean_of_stores hfits)

end RowMirrored

theorem rowMirrored_iff {slots : List Slot}
    (hvalue : row.version.value = some (slots.flatMap Slot.field))
    (hslots : ∀ slot ∈ slots, encodeColumn slot = .ok slot.field) (behind : ℕ → UInt8) :
    RowMirrored (schema.map ColumnField.dataType) (rowScalars schema row behind) slots ↔
      RowFits (schema.map ColumnField.dataType) slots := by
  have hnulls : schema.map (fun field ↦ sstTypedNull field.dataType) =
      (schema.map ColumnField.dataType).map sstTypedNull := by
    rw [List.map_map]
    rfl
  rw [rowScalars, hvalue]
  dsimp only
  rw [decodeRowValues_eq, hnulls]
  generalize schema.map ColumnField.dataType = types
  constructor
  · intro h
    have hlength : slots.length ≤ types.length := by
      by_contra hlt
      rw [Nat.not_le] at hlt
      obtain ⟨dataType, htype, -⟩ := h types.length _ (List.getElem?_eq_getElem hlt)
      rw [List.getElem?_eq_none (Nat.le_refl _)] at htype
      cases htype
    cases hrun : (all decodeTyped types).run ⟨slots.flatMap Slot.field, behind⟩ with
    | error err =>
      rw [hrun] at h
      exact rowFits_of_nulls hlength h
    | ok result =>
      rw [hrun] at h
      have hfits := fits_of_all hslots (List.append_nil _).symm (Nat.zero_le _) hrun h
      refine ⟨hlength, hfits, .inl ?_⟩
      by_contra hne
      obtain ⟨err, herr⟩ :=
        run_of_fits_of_lt hfits hslots (Nat.lt_of_le_of_ne hlength hne) behind
      cases hrun.symm.trans herr
  · intro h
    by_cases hlength : slots.length = types.length
    · have hfits := h.fits
      rw [hlength, List.take_length] at hfits
      obtain ⟨xs, hrun, hentries⟩ := all_of_fits (s := ⟨slots.flatMap Slot.field, behind⟩) (p := 0)
        hfits hslots (List.append_nil _).symm (Nat.zero_le _)
      change (all decodeTyped types).run _ = _ at hrun
      rw [hrun]
      exact rowMirrored_of_zipWith hentries
    · have hlt := Nat.lt_of_le_of_ne h.length hlength
      obtain ⟨err, hrun⟩ := run_of_fits_of_lt h.fits hslots hlt behind
      rw [hrun]
      exact rowMirrored_of_blank h (h.blank.resolve_left hlength)

/-! ## Files -/

/-- A tombstone, or a row that was stored with the registered schema of its table. -/
def Encoded (schemas : TableSchemas) (row : VersionedRow) : Prop :=
  ∀ payload, row.version.value = some payload → ∃ (batch : RecordBatch) (r : Fin batch.numRows),
    schemas (tableName row.key) = some batch.schema ∧ encodeRow batch r = .ok payload

/-- The columns that flush and compaction write for `rows` agree with the payloads, each
decoded with the schema of its table. -/
def Mirrors (schemas : TableSchemas) (rows : List VersionedRow) (behind : ℕ → ℕ → UInt8) : Prop :=
  ∀ (i : ℕ) row payload schema, rows[i]? = some row → row.version.value = some payload →
    schemas (tableName row.key) = some schema → ∀ memory decoded cursor,
      (decodeRowValues schema).run ⟨payload, memory⟩ = .ok (decoded, cursor) →
        ∀ (col : ℕ) scalar, decoded[col]? = some scalar →
          ∃ column, (businessColumns rows (fileSchema schemas rows) behind)[col]? = some column ∧
            column[i]? = some scalar.entry

def fileTypes (schemas : TableSchemas) (rows : List VersionedRow) : List DataType :=
  ((fileSchema schemas rows).getD []).map ColumnField.dataType

theorem getElem?_businessColumns (hrow : rows[i]? = some row) (col : ℕ)
    (entry : Option StoredValue) :
    (∃ column, (businessColumns rows (some schema) behind)[col]? = some column ∧
        column[i]? = some entry) ↔
      ∃ dataType, (schema.map ColumnField.dataType)[col]? = some dataType ∧
        columnEntry dataType ((rowScalars schema row (behind i)).getD col .null) = entry := by
  simp [businessColumns, buildColumnArray, List.getElem?_mapIdx, hrow]

theorem businessColumns_getD (rows : List VersionedRow) (rowSchema : Option (List ColumnField))
    (behind : ℕ → ℕ → UInt8) :
    businessColumns rows rowSchema behind =
      businessColumns rows (some (rowSchema.getD [])) behind := by
  cases rowSchema <;> rfl

theorem rowMirrored_iff_columns {schemas : TableSchemas} (hrow : rows[i]? = some row)
    {r : Fin batch.numRows} {payload : Bytes}
    (hencode : encodeRow batch r = .ok payload) :
    RowMirrored (fileTypes schemas rows)
        (rowScalars ((fileSchema schemas rows).getD []) row (behind i)) (batch.row r) ↔
      ∀ memory decoded cursor,
        (decodeRowValues batch.schema).run ⟨payload, memory⟩ = .ok (decoded, cursor) →
          ∀ (col : ℕ) scalar, decoded[col]? = some scalar →
            ∃ column, (businessColumns rows (fileSchema schemas rows) behind)[col]? = some column ∧
              column[i]? = some scalar.entry := by
  have hreads := reads_decodeRowValues hencode
  rw [businessColumns_getD]
  constructor
  · intro h memory decoded cursor hrun col scalar hscalar
    cases (hreads.run memory).symm.trans hrun
    rw [List.getElem?_map] at hscalar
    obtain ⟨slot, hslot, rfl⟩ := Option.map_eq_some_iff.mp hscalar
    exact (getElem?_businessColumns hrow col _).mpr (h col slot hslot)
  · intro h col slot hslot
    have hscalar : ((batch.row r).map Slot.recovered)[col]? = some slot.recovered := by
      rw [List.getElem?_map, hslot]
      rfl
    exact (getElem?_businessColumns hrow col _).mp (h 0 _ _ (hreads.run 0) col _ hscalar)

theorem rowMirrored_iff_of_encodeRow {r : Fin batch.numRows} {payload : Bytes}
    (hvalue : row.version.value = some payload) (hencode : encodeRow batch r = .ok payload)
    (behind : ℕ → UInt8) :
    RowMirrored (schema.map ColumnField.dataType) (rowScalars schema row behind) (batch.row r) ↔
      RowFits (schema.map ColumnField.dataType) (batch.row r) := by
  obtain ⟨hpayload, hslots⟩ := encodeRowNarrow_eq_ok hencode
  rw [hpayload] at hvalue
  exact rowMirrored_iff hvalue hslots behind

/-- The columns of a file mirror its payloads if and only if every row has the layout of
the file. -/
theorem mirrors_iff_rowFits {schemas : TableSchemas} {rows : List VersionedRow}
    (hrows : ∀ row ∈ rows, Encoded schemas row) (behind : ℕ → ℕ → UInt8) :
    Mirrors schemas rows behind ↔
      ∀ row ∈ rows, ∀ payload, row.version.value = some payload →
        ∃ (batch : RecordBatch) (r : Fin batch.numRows),
          schemas (tableName row.key) = some batch.schema ∧ encodeRow batch r = .ok payload ∧
            RowFits (fileTypes schemas rows) (batch.row r) := by
  constructor
  · intro h row hrow payload hvalue
    obtain ⟨batch, r, hbatch, hencode⟩ := hrows row hrow payload hvalue
    obtain ⟨i, hi⟩ := List.mem_iff_getElem?.mp hrow
    have hcolumns := h i row payload batch.schema hi hvalue hbatch
    refine ⟨batch, r, hbatch, hencode, ?_⟩
    exact (rowMirrored_iff_of_encodeRow hvalue hencode (behind i)).mp
      ((rowMirrored_iff_columns hi hencode).mpr hcolumns)
  · intro h i row payload schema hi hvalue hschema
    obtain ⟨batch, r, hbatch, hencode, hfits⟩ := h row (List.mem_of_getElem? hi) payload hvalue
    cases hschema.symm.trans hbatch
    exact (rowMirrored_iff_columns hi hencode).mp
      ((rowMirrored_iff_of_encodeRow hvalue hencode (behind i)).mpr hfits)

def userSchemas : TableSchemas
  | [117] => some [⟨"id", .int64⟩, ⟨"name", .utf8⟩]
  | [118] => some [⟨"name", .utf8⟩]
  | [119] => some [⟨"flag", .boolean⟩]
  | _ => none

def userBatch : RecordBatch where
  schema := [⟨"id", .int64⟩, ⟨"name", .utf8⟩]
  numRows := 1
  value
    | 0, _ => some (7 : Int64)
    | 1, _ => none

def userPayload : Bytes := [1, 7, 0, 0, 0, 0, 0, 0, 0, 0]

def userRows : List VersionedRow :=
  [⟨[117, 0, 7], ⟨some userPayload, 1, openEndedTs, 0⟩⟩, ⟨[117, 0, 8], ⟨none, 2, openEndedTs, 0⟩⟩]

theorem mirrors_iff_rowFits_userRows : Mirrors userSchemas userRows 0 := by
  have hrows : ∀ row ∈ userRows, ∀ payload, row.version.value = some payload →
      ∃ (batch : RecordBatch) (r : Fin batch.numRows),
        userSchemas (tableName row.key) = some batch.schema ∧ encodeRow batch r = .ok payload ∧
          RowFits (fileTypes userSchemas userRows) (batch.row r) := by
    intro row hrow payload hvalue
    fin_cases hrow
    · cases hvalue
      exact ⟨userBatch, (0 : Fin 1), rfl, rfl, Nat.le_refl 2,
        .cons trivial (.cons (nofun : DataType.utf8 ≠ .boolean) .nil), .inl rfl⟩
    · cases hvalue
  refine (mirrors_iff_rowFits (fun row hrow payload hvalue ↦ ?_) 0).mpr hrows
  obtain ⟨batch, r, hbatch, hencode, -⟩ := hrows row hrow payload hvalue
  exact ⟨batch, r, hbatch, hencode⟩

def nameRow : VersionedRow := ⟨[118, 0, 1], ⟨some [1, 1, 0, 0, 0, 97], 3, openEndedTs, 0⟩⟩

def flagRow : VersionedRow := ⟨[119, 0, 1], ⟨some [0], 3, openEndedTs, 0⟩⟩

/-- A name in a file of users is stored as null, and a missing flag as false. -/
theorem columns_differ :
    (∀ memory, (decodeRowValues [⟨"name", .utf8⟩]).run ⟨[1, 1, 0, 0, 0, 97], memory⟩ =
        .ok ([.utf8 (some [97])], .after 6)) ∧
      businessColumns (userRows ++ [nameRow]) (fileSchema userSchemas (userRows ++ [nameRow])) 0 =
        [[some (.int64 7), none, none], [none, none, none]] ∧
      (∀ memory, (decodeRowValues [⟨"flag", .boolean⟩]).run ⟨[0], memory⟩ =
        .ok ([.boolean none], .after 1)) ∧
      businessColumns [flagRow] (fileSchema userSchemas [flagRow]) 0 = [[some (.bool false)]] :=
  ⟨fun _ ↦ rfl, by decide +kernel, fun _ ↦ rfl, by decide +kernel⟩

end HatP
