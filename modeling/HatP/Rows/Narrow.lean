import HatP.Rows.Bounds

/-!
# Narrow rows

The encoder writes the listed columns in the order of the list, the decoder expects
all columns in the order of the schema and then projects.  They agree if the list has
every column at its own position.
-/

namespace HatP

variable {rest : Bytes} {c : Cursor} {scalars : List ScalarValue} {s : Slice UInt8} {slot : Slot}
  {ncols position : ℕ} {cols : List ℕ} {dataType : DataType} {types : List DataType}

open RawReader

/-! ## The projection -/

theorem columnTables_append (ncols : ℕ) (cols : List ℕ) (col : ℕ) :
    columnTables ncols (cols ++ [col]) =
      if col < ncols then
        ((columnTables ncols cols).1.set col true, (columnTables ncols cols).2.set col cols.length)
      else columnTables ncols cols := by
  simp only [columnTables, List.zipIdx_append, List.foldl_append, List.zipIdx_singleton,
    List.foldl_cons, List.foldl_nil, Nat.zero_add]

theorem length_columnTables (ncols : ℕ) (cols : List ℕ) :
    (columnTables ncols cols).1.length = ncols ∧ (columnTables ncols cols).2.length = ncols := by
  induction cols using List.reverseRecOn with
  | nil => simp [columnTables]
  | append_singleton cols col ih =>
    rw [columnTables_append]
    split
    · simpa using ih
    · exact ih

theorem wanted_iff {col : ℕ} (hcol : col < ncols) (cols : List ℕ) :
    (columnTables ncols cols).1.getD col false = true ↔ col ∈ cols := by
  induction cols using List.reverseRecOn with
  | nil => simp [columnTables, List.getD_eq_getElem?_getD, hcol]
  | append_singleton cols last ih =>
    have hlength := (length_columnTables ncols cols).1
    rw [columnTables_append, List.mem_append, List.mem_singleton]
    split
    next hlast =>
      by_cases heq : col = last
      · simp [heq, List.getD_eq_getElem?_getD, hlength, hlast]
      · simp only [List.getD_eq_getElem?_getD] at ih ⊢
        rw [List.getElem?_set_ne (Ne.symm heq), ih, or_iff_left heq]
    next hlast =>
      rw [ih, or_iff_left]
      rintro rfl
      exact hlast hcol

theorem colOrder_eq {col : ℕ} (hnodup : cols.Nodup)
    (hcol : col < ncols) (h : cols[position]? = some col) :
    (columnTables ncols cols).2.getD col (2 ^ 64 - 1) = position := by
  induction cols using List.reverseRecOn with
  | nil => cases h
  | append_singleton cols last ih =>
    have hlength := (length_columnTables ncols cols).2
    obtain ⟨hcols, -, hdisjoint⟩ := List.nodup_append.mp hnodup
    rw [columnTables_append]
    rcases Nat.lt_or_ge position cols.length with hlt | hge
    · rw [List.getElem?_append_left hlt] at h
      have hne : col ≠ last := hdisjoint col (List.mem_of_getElem? h) last (.head _)
      split
      · rw [List.getD_eq_getElem?_getD, List.getElem?_set_ne (Ne.symm hne),
          ← List.getD_eq_getElem?_getD, ih hcols h]
      · exact ih hcols h
    · have hposition : position = cols.length := by
        have hbound := (List.getElem?_eq_some_iff.mp h).1
        rw [List.length_append, List.length_singleton] at hbound
        omega
      rw [hposition, List.getElem?_concat_length, Option.some_inj] at h
      rw [h, if_pos hcol]
      simp [List.getD_eq_getElem?_getD, hlength, hcol, hposition]

theorem length_foldl_placeColumn (wanted : List Bool) (colOrder : List ℕ)
    (entries : List (ℕ × ScalarValue)) (values : List (Option ScalarValue)) :
    (entries.foldl (placeColumn wanted colOrder) values).length = values.length := by
  induction entries generalizing values with
  | nil => rfl
  | cons entry entries ih =>
    rw [List.foldl_cons, ih, placeColumn]
    split
    · exact List.length_set
    · rfl

theorem getElem?_foldl_placeColumn {wanted : List Bool} {colOrder : List ℕ}
    {entries : List (ℕ × ScalarValue)} {values : List (Option ScalarValue)} {place : ℕ}
    {entry : ℕ × ScalarValue} (hplace : place < values.length) (hentry : entry ∈ entries)
    (hwanted : wanted.getD entry.1 false = true)
    (horder : colOrder.getD entry.1 (2 ^ 64 - 1) = place)
    (hunique : ∀ other ∈ entries, wanted.getD other.1 false = true →
      colOrder.getD other.1 (2 ^ 64 - 1) = place → other = entry) :
    (entries.foldl (placeColumn wanted colOrder) values)[place]? = some (some entry.2) := by
  induction entries using List.reverseRecOn with
  | nil => cases hentry
  | append_singleton entries last ih =>
    have hlength := length_foldl_placeColumn wanted colOrder entries values
    rw [List.foldl_append, List.foldl_cons, List.foldl_nil, placeColumn]
    by_cases hlast : last = entry
    · rw [hlast, if_pos hwanted, horder, List.getElem?_set_self (hlength.symm ▸ hplace)]
    · have hold : entry ∈ entries := by
        rcases List.mem_append.mp hentry with hold | hnew
        · exact hold
        · exact absurd (List.mem_singleton.mp hnew).symm hlast
      have hrest := ih hold fun other hother ↦ hunique other (List.mem_append_left _ hother)
      split
      next hwants =>
        rw [List.getElem?_set_ne, hrest]
        intro hsame
        exact hlast (hunique last (List.mem_append_right _ (.head _)) hwants hsame)
      next => exact hrest

theorem mem_zip_range_iff (hlength : scalars.length = ncols) (entry : ℕ × ScalarValue) :
    entry ∈ (List.range ncols).zip scalars ↔
      entry.1 < ncols ∧ entry.2 = scalars.getD entry.1 .null := by
  rw [List.mem_iff_getElem?]
  constructor
  · rintro ⟨i, hi⟩
    obtain ⟨hcol, hscalar⟩ := List.getElem?_zip_eq_some.mp hi
    obtain ⟨hlt, hcol⟩ := List.getElem?_eq_some_iff.mp hcol
    rw [List.getElem_range] at hcol
    rw [List.length_range] at hlt
    rw [List.getD_eq_getElem?_getD, ← hcol, hscalar]
    exact ⟨hlt, rfl⟩
  · rintro ⟨hlt, hscalar⟩
    refine ⟨entry.1, List.getElem?_zip_eq_some.mpr ⟨by simp [hlt], ?_⟩⟩
    rw [hscalar, List.getD_eq_getElem?_getD, List.getElem?_eq_getElem (hlength.symm ▸ hlt)]
    rfl

theorem projectColumns_eq (hnodup : cols.Nodup) (hrange : ∀ col ∈ cols, col < ncols)
    (hlength : scalars.length = ncols) :
    projectColumns ncols cols scalars = cols.map fun col ↦ scalars.getD col .null := by
  have hsame : ((List.range ncols).zip scalars).foldl
      (placeColumn (columnTables ncols cols).1 (columnTables ncols cols).2)
      (List.replicate cols.length none) = cols.map fun col ↦ some (scalars.getD col .null) := by
    apply List.ext_getElem?
    intro place
    rcases Nat.lt_or_ge place cols.length with hlt | hge
    · have hcol := List.getElem?_eq_getElem hlt
      have hmem := List.getElem_mem hlt
      have hcolRange := hrange _ hmem
      have hentry : (cols[place], scalars.getD cols[place] .null) ∈
          (List.range ncols).zip scalars := (mem_zip_range_iff hlength _).mpr ⟨hcolRange, rfl⟩
      rw [getElem?_foldl_placeColumn (by simpa using hlt) hentry
        ((wanted_iff hcolRange cols).mpr hmem) (colOrder_eq hnodup hcolRange hcol)]
      · rw [List.getElem?_map, hcol]
        rfl
      · intro other hother hwanted horder
        obtain ⟨hotherRange, hvalue⟩ := (mem_zip_range_iff hlength other).mp hother
        obtain ⟨position, hposition⟩ :=
          List.mem_iff_getElem?.mp ((wanted_iff hotherRange cols).mp hwanted)
        have hplace : position = place :=
          (colOrder_eq hnodup hotherRange hposition).symm.trans horder
        rw [hplace, hcol, Option.some_inj] at hposition
        exact Prod.ext hposition.symm (by rw [hvalue, hposition])
    · rw [List.getElem?_eq_none, List.getElem?_eq_none]
      · simpa using hge
      · rw [length_foldl_placeColumn]
        simpa using hge
  rw [projectColumns]
  dsimp only
  rw [hsame, List.map_map]
  rfl

theorem map_getD_range (h : scalars.length = ncols) :
    (List.range ncols).map (fun col ↦ scalars.getD col .null) = scalars := by
  apply List.ext_getElem
  · simp [h]
  · intro i _ hi
    simp [List.getD_eq_getElem?_getD, hi]

theorem eq_range_of_fast (hlength : cols.length = ncols)
    (hidentity : cols.zipIdx.all fun entry ↦ entry.2 = entry.1) : cols = List.range ncols := by
  apply List.ext_getElem
  · rw [hlength, List.length_range]
  · intro i hi _
    have hentry : (cols[i], i) ∈ cols.zipIdx := List.mem_iff_getElem?.mpr ⟨i, by simp [hi]⟩
    have hsame := List.all_eq_true.mp hidentity _ hentry
    rw [List.getElem_range]
    exact (of_decide_eq_true hsame).symm

theorem run_decodeRowNarrow {schema : List ColumnField} (hnodup : cols.Nodup)
    (hrange : ∀ col ∈ cols, col < schema.length) (s : Slice UInt8) :
    (decodeRowNarrow schema cols).run s =
      ((all decodeTyped (schema.map ColumnField.dataType)).run s).map fun result ↦
        (cols.map fun col ↦ result.1.getD col .null, result.2) := by
  rw [← decodeRowFull_eq]
  have hlength : ∀ {result}, (decodeRowFull schema schema.length).run s = .ok result →
      result.1.length = schema.length :=
    fun h ↦ (length_of_all h).trans List.length_range
  by_cases hfast : cols.length = schema.length ∧ cols.zipIdx.all fun entry ↦ entry.2 = entry.1
  · rw [decodeRowNarrow, if_pos hfast, eq_range_of_fast hfast.1 hfast.2]
    cases hresult : (decodeRowFull schema schema.length).run s with
    | error err => rfl
    | ok result =>
      change _ = Except.ok (_, _)
      rw [map_getD_range (hlength hresult)]
  · rw [decodeRowNarrow_eq hfast]
    cases hresult : (decodeRowFull schema schema.length).run s with
    | error err => exact bind_apply_error hresult
    | ok result =>
      refine (bind_apply_ok hresult).trans ?_
      rw [projectColumns_eq hnodup hrange (hlength hresult)]
      rfl

/-! ## The round trip -/

/-- Every column is listed at its own position and can be stored; only columns without
values may have changed places. -/
def Aligned (schema : List ColumnField) (cols : List (Fin schema.length)) : Prop :=
  cols.length = schema.length ∧ ∀ position col, cols[position]? = some col →
    (schema.get col).dataType = .null ∨
      col.val = position ∧ (schema.get col).dataType.extracted = true

def RoundTrips (batch : RecordBatch) (row : Fin batch.numRows)
    (cols : List (Fin batch.schema.length)) : Prop :=
  ∀ bytes, encodeRowNarrow batch row cols = .ok bytes → ∀ behind,
    ((decodeRowNarrow batch.schema (cols.map Fin.val)).run ⟨bytes, behind⟩).map Prod.fst =
      .ok (cols.map fun col ↦ (batch.slot row col).scalar)

section Sufficient

variable {schema : List ColumnField} {cols : List (Fin schema.length)}

theorem mem_of_nodup_of_length (hnodup : cols.Nodup) (hlength : cols.length = schema.length)
    (col : Fin schema.length) : col ∈ cols := by
  have hcard : cols.toFinset.card = Fintype.card (Fin schema.length) := by
    rw [List.toFinset_card_of_nodup hnodup, hlength, Fintype.card_fin]
  have huniv := (Finset.card_eq_iff_eq_univ _).mp hcard
  exact List.mem_toFinset.mp (huniv ▸ Finset.mem_univ col)

theorem Aligned.at_position (h : Aligned schema cols) (hnodup : cols.Nodup)
    (position : Fin schema.length) :
    ∃ col, cols[position.val]? = some col ∧ (col = position ∨
      (schema.get col).dataType = .null ∧ (schema.get position).dataType = .null) := by
  have hlt : position.val < cols.length := h.1.symm ▸ position.isLt
  refine ⟨cols[position.val], List.getElem?_eq_getElem hlt, ?_⟩
  by_cases hnull : (schema.get position).dataType = .null
  · rcases h.2 position _ (List.getElem?_eq_getElem hlt) with hcol | ⟨hcol, -⟩
    · exact .inr ⟨hcol, hnull⟩
    · exact .inl (Fin.ext hcol)
  · obtain ⟨i, hi⟩ := List.mem_iff_getElem?.mp (mem_of_nodup_of_length hnodup h.1 position)
    rcases h.2 i position hi with hposition | ⟨hposition, -⟩
    · exact absurd hposition hnull
    · rw [← hposition, List.getElem?_eq_getElem hlt, Option.some_inj] at hi
      exact .inl hi

theorem Slot.scalar_of_null (h : slot.dataType = .null) : slot.scalar = .null := by
  obtain ⟨dataType, value⟩ := slot
  cases h
  rfl

theorem Slot.carried_of_null (h : slot.dataType = .null) : slot.Carried := by
  obtain ⟨dataType, value⟩ := slot
  cases h
  cases value with
  | none => exact .inr ⟨rfl, nofun⟩
  | some v => exact v.elim

theorem Aligned.roundTrips (h : Aligned schema cols) (hnodup : cols.Nodup) {numRows : ℕ}
    (value : (col : Fin schema.length) → Fin numRows → Option (schema.get col).dataType.Value)
    (row : Fin numRows) : RoundTrips ⟨schema, numRows, value⟩ row cols := by
  intro bytes hbytes behind
  obtain ⟨hstream, hslots⟩ := encodeRowNarrow_eq_ok hbytes
  set slot := RecordBatch.slot ⟨schema, numRows, value⟩ row with hslot
  have htypes : (cols.map slot).map Slot.dataType = schema.map ColumnField.dataType := by
    apply List.ext_getElem
    · simp [h.1]
    · intro i hi hi'
      obtain ⟨col, hcol, hsame⟩ := h.at_position hnodup ⟨i, by simpa using hi'⟩
      obtain ⟨_, hcol⟩ := List.getElem?_eq_some_iff.mp hcol
      simp only [List.getElem_map, hcol]
      rcases hsame with rfl | ⟨hleft, hright⟩
      · rfl
      · exact hleft.trans hright.symm
  have hreads := reads_slots hslots
  rw [htypes, ← hstream] at hreads
  have hvalues : ∀ col ∈ cols, ((cols.map slot).map Slot.recovered).getD col .null =
      (slot col).scalar := by
    intro col _
    obtain ⟨col', hcol', hsame⟩ := h.at_position hnodup col
    have hcarried : (slot col').Carried := by
      rcases h.2 col col' hcol' with hnull | ⟨-, hextracted⟩
      · exact Slot.carried_of_null hnull
      · exact .inl hextracted
    rw [List.getD_eq_getElem?_getD, List.map_map, List.getElem?_map, hcol']
    change (slot col').recovered = (slot col).scalar
    rw [(Slot.recovered_eq_scalar_iff _).mpr hcarried]
    rcases hsame with rfl | ⟨hleft, hright⟩
    · rfl
    · rw [Slot.scalar_of_null hleft, Slot.scalar_of_null hright]
  rw [run_decodeRowNarrow (hnodup.map Fin.val_injective) (by simp), hreads.run behind]
  refine congrArg Except.ok ?_
  dsimp only
  rw [List.map_map]
  exact List.map_congr_left hvalues

end Sufficient

/-! ## Rows that do not come back -/

theorem isNull_of_valueBytesToScalar {next : Cursor}
    {x : ScalarValue} (h : valueBytesToScalar dataType s c = .ok (x, next)) : x.isNull = false := by
  cases dataType with
  | null | other => cases h
  | intervalDayTime =>
    obtain ⟨days, mid, -, h⟩ := bind_eq_ok h
    obtain ⟨milliseconds, last, -, h⟩ := bind_eq_ok h
    cases h
    rfl
  | intervalMonthDayNano =>
    obtain ⟨months, first, -, h⟩ := bind_eq_ok h
    obtain ⟨days, second, -, h⟩ := bind_eq_ok h
    obtain ⟨nanoseconds, last, -, h⟩ := bind_eq_ok h
    cases h
    rfl
  | _ =>
    obtain ⟨v, last, -, h⟩ := bind_eq_ok h
    cases h
    rfl

theorem isNull_getD_of_ok {start : ℕ} {marker : UInt8}
    (hdata : s.data.drop start = List.replicate position 0 ++ marker :: rest)
    (h : all decodeTyped types s (.after start) = .ok (scalars, c))
    (hposition : position < types.length) :
    (scalars.getD position .null).isNull = decide (marker = 0) := by
  induction types generalizing start position scalars with
  | nil => cases hposition
  | cons dataType types ih =>
    obtain ⟨x, next, hx, h⟩ := bind_eq_ok h
    obtain ⟨xs, last, hxs, h⟩ := bind_eq_ok h
    cases h
    obtain ⟨first, mid, hfirst, hvalue⟩ := bind_eq_ok hx
    obtain ⟨tail, htail, rfl⟩ := element_eq_ok hfirst
    rw [decodeMarked] at hvalue
    cases position with
    | zero =>
      cases htail.symm.trans hdata
      split at hvalue
      next hzero =>
        cases hvalue
        rw [decide_eq_true hzero]
        exact isNull_typedNull dataType
      next hpresent =>
        rw [decide_eq_false hpresent]
        exact isNull_of_valueBytesToScalar hvalue
    | succ position =>
      cases htail.symm.trans hdata
      rw [if_pos rfl] at hvalue
      cases hvalue
      have hrest : s.data.drop (start + 1) = List.replicate position 0 ++ marker :: rest := by
        rw [← List.drop_drop, hdata]
        rfl
      change (xs.getD position .null).isNull = _
      exact ih hrest hxs (Nat.lt_of_succ_lt_succ hposition)

theorem length_le_of_ok {p : ℕ} {xs : List ScalarValue}
    (h : all decodeTyped types s (.after p) = .ok (xs, c)) :
    p + types.length ≤ max p s.data.length := by
  induction types generalizing p xs c with
  | nil => exact le_max_left p _
  | cons dataType types ih =>
    obtain ⟨x, next, hx, h⟩ := bind_eq_ok h
    obtain ⟨rest, last, hrest, -⟩ := bind_eq_ok h
    have hmarker : p + 1 ≤ s.data.length := by
      obtain ⟨marker, mid, hmarker, -⟩ := bind_eq_ok hx
      obtain ⟨tail, htail, -⟩ := element_eq_ok hmarker
      have hlength := congrArg List.length htail
      rw [List.length_drop, List.length_cons] at hlength
      omega
    have hnext : ∃ q, next = .after q ∧ p + 1 ≤ q := by
      rcases decodeTyped_ok hx with ⟨field, tail, -, ⟨marker, value, rfl, -⟩, rfl⟩ | hleaves
      · exact ⟨_, rfl, by rw [List.length_cons]; omega⟩
      · obtain ⟨marker, value, width, -, -, -, -, rfl⟩ := hleaves
        exact ⟨_, rfl, Nat.le_add_right _ _⟩
    obtain ⟨q, rfl, hq⟩ := hnext
    have hrest := ih hrest
    rw [List.length_cons]
    omega

theorem Slot.field_eq {field : Bytes} (h : encodeColumn slot = .ok field) : slot.field = field := by
  rw [Slot.field, h]

theorem encodeColumn_of_not_stored
    (h : (slot.dataType.extracted && slot.value.isSome) = false) : encodeColumn slot = .ok [0] := by
  rw [encodeColumn, isNull_arraySlotToScalar, h]
  rfl

theorem encodeColumn_of_empty (h : slot.value = none) : encodeColumn slot = .ok [0] := by
  apply encodeColumn_of_not_stored
  rw [h]
  exact Bool.and_false _

theorem flatMap_field_of_missing {slots : List Slot}
    (h : ∀ slot ∈ slots, encodeColumn slot = .ok [0]) :
    slots.flatMap Slot.field = List.replicate slots.length 0 := by
  induction slots with
  | nil => rfl
  | cons slot slots ih =>
    obtain ⟨hslot, hslots⟩ := List.forall_mem_cons.mp h
    rw [List.flatMap_cons, Slot.field_eq hslot, ih hslots]
    rfl

theorem exists_storable (h : dataType ≠ .null) :
    ∃ (v : dataType.Value) (rest : Bytes),
      encodeColumn ⟨dataType, some v⟩ = .ok ((if dataType.extracted then 1 else 0) :: rest) := by
  cases dataType with
  | null => exact absurd rfl h
  | int8 => exact ⟨(0 : Int8), _, rfl⟩
  | int16 => exact ⟨(0 : Int16), _, rfl⟩
  | int32 | date32 | time32Second | time32Millisecond | intervalYearMonth =>
    exact ⟨(0 : Int32), _, rfl⟩
  | int64 | date64 | timestamp | time64Microsecond | time64Nanosecond | duration =>
    exact ⟨(0 : Int64), _, rfl⟩
  | uint8 => exact ⟨(0 : UInt8), _, rfl⟩
  | uint16 => exact ⟨(0 : UInt16), _, rfl⟩
  | uint32 | float32 => exact ⟨(0 : UInt32), _, rfl⟩
  | uint64 | float64 => exact ⟨(0 : UInt64), _, rfl⟩
  | boolean => exact ⟨false, _, rfl⟩
  | utf8 | largeUtf8 => exact ⟨⟨[], rfl⟩, _, rfl⟩
  | binary | largeBinary | other => exact ⟨([] : Bytes), _, rfl⟩
  | intervalDayTime => exact ⟨⟨0, 0⟩, _, rfl⟩
  | intervalMonthDayNano => exact ⟨⟨0, 0, 0⟩, _, rfl⟩

section Necessary

variable {schema : List ColumnField} {cols : List (Fin schema.length)} {col : Fin schema.length}

theorem RoundTrips.full {batch : RecordBatch} {row : Fin batch.numRows}
    {cols : List (Fin batch.schema.length)} (h : RoundTrips batch row cols) (hnodup : cols.Nodup)
    (hok : ∀ col ∈ cols, ∃ field, encodeColumn (batch.slot row col) = .ok field) :
    ∃ scalars c, (all decodeTyped (batch.schema.map ColumnField.dataType)).run
        ⟨(cols.map (batch.slot row)).flatMap Slot.field, 0⟩ = .ok (scalars, c) ∧
      ∀ col ∈ cols, scalars.getD col .null = (batch.slot row col).scalar := by
  have hencode := encodeRowNarrow_of_ok fun col hcol ↦ by
    obtain ⟨field, hfield⟩ := hok col hcol
    rw [Slot.field_eq hfield, hfield]
  have hdecode := h _ hencode 0
  rw [run_decodeRowNarrow (hnodup.map Fin.val_injective) (by simp)] at hdecode
  obtain ⟨_, hmapped, hvalues⟩ := Fallible.map_eq_ok_iff.mp hdecode
  obtain ⟨result, hrun, rfl⟩ := Fallible.map_eq_ok_iff.mp hmapped
  rw [List.map_map, List.map_inj_left] at hvalues
  exact ⟨result.1, result.2, hrun, hvalues⟩

/-- A row without values shows that every column must be listed. -/
theorem length_of_roundTrips (hnodup : cols.Nodup)
    (h : RoundTrips ⟨schema, 1, fun _ _ ↦ none⟩ (0 : Fin 1) cols) :
    cols.length = schema.length := by
  have hmissing : ∀ slot ∈ cols.map (RecordBatch.slot ⟨schema, 1, fun _ _ ↦ none⟩ (0 : Fin 1)),
      encodeColumn slot = .ok [0] := by
    intro slot hslot
    obtain ⟨col, -, rfl⟩ := List.mem_map.mp hslot
    exact encodeColumn_of_empty rfl
  obtain ⟨scalars, c, hrun, -⟩ := h.full hnodup fun col hcol ↦
    ⟨[0], hmissing _ (List.mem_map_of_mem hcol)⟩
  have hlength := length_le_of_ok hrun
  rw [flatMap_field_of_missing hmissing] at hlength
  simp only [List.length_map, List.length_replicate] at hlength
  have hcard := hnodup.length_le_card
  rw [Fintype.card_fin] at hcard
  omega

theorem flatMap_field_split {α : Type} {slot : α → Slot} {cols : List α} {col : α}
    (hnodup : cols.Nodup) (hcol : cols[position]? = some col)
    (hothers : ∀ other, other ≠ col → encodeColumn (slot other) = .ok [0]) :
    ∃ after, (cols.map slot).flatMap Slot.field =
      List.replicate position 0 ++ ((slot col).field ++ after) := by
  obtain ⟨hlt, hget⟩ := List.getElem?_eq_some_iff.mp hcol
  have hsplit : cols = cols.take position ++ col :: cols.drop (position + 1) := by
    rw [← hget, List.getElem_cons_drop, List.take_append_drop]
  have hbefore : ∀ slot' ∈ (cols.take position).map slot, encodeColumn slot' = .ok [0] := by
    intro slot' hslot'
    obtain ⟨other, hother, rfl⟩ := List.mem_map.mp hslot'
    rw [hsplit] at hnodup
    exact hothers other ((List.nodup_append.mp hnodup).2.2 other hother col (.head _))
  refine ⟨((cols.drop (position + 1)).map slot).flatMap Slot.field, ?_⟩
  nth_rewrite 1 [hsplit]
  rw [List.map_append, List.flatMap_append, flatMap_field_of_missing hbefore, List.map_cons,
    List.flatMap_cons, List.length_map, List.length_take_of_le hlt.le]

theorem position_of_full {slot : Fin schema.length → Slot}
    (hnodup : cols.Nodup) (hlength : cols.length = schema.length)
    (hcol : cols[position]? = some col) (hself : encodeColumn (slot col) =
      .ok ((if (slot col).dataType.extracted then 1 else 0) :: rest))
    (hpresent : (slot col).value.isSome = true)
    (hothers : ∀ other, other ≠ col → (slot other).value = none)
    (hrun : (all decodeTyped (schema.map ColumnField.dataType)).run
      ⟨(cols.map slot).flatMap Slot.field, 0⟩ = .ok (scalars, c))
    (hvalues : ∀ col ∈ cols, scalars.getD col .null = (slot col).scalar) :
    col.val = position ∧ (slot col).dataType.extracted = true := by
  have hlt : position < schema.length := hlength ▸ (List.getElem?_eq_some_iff.mp hcol).1
  have hmissing : ∀ other : Fin schema.length,
      (scalars.getD other .null).isNull = (slot other).value.isNone := by
    intro other
    rw [hvalues other (mem_of_nodup_of_length hnodup hlength other), Slot.isNull_scalar]
  have hzero : ∀ other, other ≠ col → encodeColumn (slot other) = .ok [0] :=
    fun other hother ↦ encodeColumn_of_empty (hothers other hother)
  by_cases hextracted : (slot col).dataType.extracted = true
  · refine ⟨?_, hextracted⟩
    rw [if_pos hextracted] at hself
    obtain ⟨after, hafter⟩ := flatMap_field_split hnodup hcol hzero
    rw [Slot.field_eq hself, List.cons_append] at hafter
    rw [hafter] at hrun
    have hisNull : (scalars.getD position .null).isNull = false :=
      isNull_getD_of_ok (List.drop_zero) hrun (by rwa [List.length_map])
    have hvalue := (hmissing ⟨position, hlt⟩).symm.trans hisNull
    by_contra hne
    rw [hothers ⟨position, hlt⟩ fun heq ↦ hne (congrArg Fin.val heq).symm] at hvalue
    cases hvalue
  · have hall : ∀ slot' ∈ cols.map slot, encodeColumn slot' = .ok [0] := by
      intro slot' hslot'
      obtain ⟨other, -, rfl⟩ := List.mem_map.mp hslot'
      by_cases hother : other = col
      · rw [hother]
        apply encodeColumn_of_not_stored
        rw [Bool.eq_false_of_not_eq_true hextracted]
        exact Bool.false_and _
      · exact hzero other hother
    have hzeros : List.replicate cols.length (0 : UInt8) =
        List.replicate col.val 0 ++ 0 :: List.replicate (schema.length - col.val - 1) 0 := by
      rw [← List.replicate_succ, ← List.replicate_add, hlength]
      congr 1
      omega
    rw [flatMap_field_of_missing hall, List.length_map, hzeros] at hrun
    have hisNull : (scalars.getD col .null).isNull = true :=
      isNull_getD_of_ok (List.drop_zero) hrun (by rw [List.length_map]; exact col.isLt)
    have hvalue := (hmissing col).symm.trans hisNull
    rw [Option.isNone_iff_eq_none] at hvalue
    rw [hvalue] at hpresent
    cases hpresent

def oneValue (schema : List ColumnField) (col : Fin schema.length)
    (v : (schema.get col).dataType.Value) : RecordBatch :=
  ⟨schema, 1, fun other _ ↦ if heq : col = other then some (heq ▸ v) else none⟩

theorem slot_oneValue_self (col : Fin schema.length) (v : (schema.get col).dataType.Value) :
    (oneValue schema col v).slot (0 : Fin 1) col = ⟨(schema.get col).dataType, some v⟩ :=
  congrArg (Slot.mk (schema.get col).dataType) (dif_pos rfl)

theorem value_oneValue_ne {other : Fin schema.length} (h : other ≠ col)
    (v : (schema.get col).dataType.Value) :
    ((oneValue schema col v).slot (0 : Fin 1) other).value = none :=
  dif_neg (Ne.symm h)

theorem position_of_roundTrips (hnodup : cols.Nodup) (hlength : cols.length = schema.length)
    (hcol : cols[position]? = some col)
    {v : (schema.get col).dataType.Value} (hv : encodeColumn ⟨(schema.get col).dataType, some v⟩ =
      .ok ((if (schema.get col).dataType.extracted then 1 else 0) :: rest))
    (h : RoundTrips (oneValue schema col v) (0 : Fin 1) cols) :
    col.val = position ∧ (schema.get col).dataType.extracted = true := by
  have hself := slot_oneValue_self col v
  have hok : ∀ other : Fin schema.length,
      ∃ field, encodeColumn ((oneValue schema col v).slot (0 : Fin 1) other) = .ok field := by
    intro other
    by_cases hother : other = col
    · subst hother
      exact ⟨_, (congrArg encodeColumn hself).trans hv⟩
    · exact ⟨[0], encodeColumn_of_empty (value_oneValue_ne hother v)⟩
  obtain ⟨scalars, c, hrun, hvalues⟩ := h.full hnodup fun other _ ↦ hok other
  exact position_of_full hnodup hlength hcol ((congrArg encodeColumn hself).trans hv)
    (congrArg (fun slot : Slot ↦ slot.value.isSome) hself)
    (fun other hother ↦ value_oneValue_ne hother v) hrun hvalues

end Necessary

/-- The listed columns of every row come back if and only if the list is aligned. -/
theorem roundTrips_iff_aligned {schema : List ColumnField} {cols : List (Fin schema.length)}
    (hnodup : cols.Nodup) :
    (∀ numRows value row, RoundTrips ⟨schema, numRows, value⟩ row cols) ↔ Aligned schema cols := by
  constructor
  · intro h
    have hlength := length_of_roundTrips hnodup (h 1 _ 0)
    refine ⟨hlength, fun position col hcol ↦ or_iff_not_imp_left.mpr fun hnull ↦ ?_⟩
    obtain ⟨v, rest, hv⟩ := exists_storable hnull
    exact position_of_roundTrips hnodup hlength hcol hv (h 1 _ 0)
  · intro h numRows value row
    exact h.roundTrips hnodup value row

def userSchema : List ColumnField := [⟨"id", .int64⟩, ⟨"name", .utf8⟩]

theorem roundTrips_userSchema : ([0, 1] : List (Fin 2)).Nodup ∧
    ∀ numRows value row, RoundTrips ⟨userSchema, numRows, value⟩ row ([0, 1] : List (Fin 2)) := by
  have hnodup : ([0, 1] : List (Fin 2)).Nodup := by decide
  have haligned : Aligned userSchema ([0, 1] : List (Fin 2)) := by
    refine ⟨rfl, fun position col hcol ↦ .inr ?_⟩
    match position, hcol with
    | 0, rfl => exact ⟨rfl, rfl⟩
    | 1, rfl => exact ⟨rfl, rfl⟩
  exact ⟨hnodup, (roundTrips_iff_aligned hnodup).mpr haligned⟩

def hotColumn : RecordBatch :=
  ⟨[⟨"id", .int64⟩, ⟨"clicks", .int64⟩], 1, fun
    | 0, _ => some (7 : Int64)
    | 1, _ => some (3 : Int64)⟩

/-- The hot column of a row is written alone and is not found again. -/
theorem narrow_column_lost :
    encodeRowNarrow hotColumn (0 : Fin 1) [(1 : Fin 2)] = .ok [1, 3, 0, 0, 0, 0, 0, 0, 0] ∧
      ∀ behind, ((decodeRowNarrow hotColumn.schema [1]).run
        ⟨[1, 3, 0, 0, 0, 0, 0, 0, 0], behind⟩).map Prod.fst =
          .error (.corrupt "row codec: truncated null marker") :=
  ⟨rfl, fun _ ↦ rfl⟩

end HatP
