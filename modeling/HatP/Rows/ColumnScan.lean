import HatP.Rows.FilteredScan

/-!
# The filtered scan as a scan of the file format

The results on tables hold for every scan that keeps the rows that satisfy its
predicates.  The filtered scan of a file is one if the predicates are well typed and on
the first 256 columns: a dropped comparison or a missing Boolean only keeps more rows.
-/

namespace HatP

/-! ## Scalars as they are compared -/

structure ScalarKey where
  dataType : DataType
  rank : Option (List ℤ)
deriving DecidableEq

instance : PartialOrder ScalarKey where
  le a b := a.dataType = b.dataType ∧ (compare a.rank b.rank).isLE = true
  le_refl a := ⟨rfl, Std.ReflCmp.isLE_rfl⟩
  le_trans a b c hab hbc := ⟨hab.1.trans hbc.1, Std.TransCmp.isLE_trans hab.2 hbc.2⟩
  le_antisymm a b hab hba := by
    have hrank : a.rank = b.rank :=
      Std.LawfulEqCmp.eq_of_compare (Std.OrientedCmp.isLE_antisymm hab.2 hba.2)
    cases a
    cases b
    cases hab.1
    cases hrank
    rfl

instance : DecidableLE ScalarKey := fun _ _ ↦ inferInstanceAs (Decidable (_ ∧ _))

instance : DecidableLT ScalarKey := decidableLTOfDecidableLE

namespace ScalarValue

def key (value : ScalarValue) : ScalarKey := ⟨value.dataType.withoutZone, value.rank⟩

variable {a b : ScalarValue}

theorem key_le_key : a.key ≤ b.key ↔ (a.partialCmp b).any Ordering.isLE = true := by
  unfold partialCmp
  split
  next h => exact and_iff_right h
  next h => exact iff_of_false (fun hle ↦ h hle.1) nofun

theorem key_ge_key : b.key ≤ a.key ↔ (a.partialCmp b).any Ordering.isGE = true := by
  rw [key_le_key, ← partialCmp_swap a b]
  rcases a.partialCmp b with _ | _ | _ | _ <;> rfl

theorem key_lt_key : a.key < b.key ↔ a.partialCmp b = some .lt := by
  rw [lt_iff_le_not_ge, key_le_key, key_ge_key]
  rcases a.partialCmp b with _ | _ | _ | _ <;> simp

theorem key_gt_key : b.key < a.key ↔ a.partialCmp b = some .gt := by
  rw [key_lt_key, ← partialCmp_swap a b]
  rcases a.partialCmp b with _ | _ | _ | _ <;> simp

theorem key_eq_key : a.key = b.key ↔ a.partialCmp b = some .eq := by
  rw [le_antisymm_iff, key_le_key, key_ge_key]
  rcases a.partialCmp b with _ | _ | _ | _ <;> simp

theorem isNone_rank (value : ScalarValue) : value.key.rank.isNone = value.isNull := by
  cases value <;> first | rfl | exact Option.isNone_map

theorem pushable_key (value : ScalarValue) :
    (value.key.dataType.pushable && value.key.rank.isSome) = value.pushable := by
  cases value <;> first | rfl | exact Option.isSome_map

end ScalarValue

/-! ## Predicates on keys -/

def Bound.key (bound : Bound ScalarValue) : Bound ScalarKey := ⟨bound.value.key, bound.inclusive⟩

def ColumnPredicate.key : ColumnPredicate ScalarValue → ColumnPredicate ScalarKey
  | .eq col value => .eq col value.key
  | .lessThan col value => .lessThan col value.key
  | .lessThanOrEqual col value => .lessThanOrEqual col value.key
  | .greaterThan col value => .greaterThan col value.key
  | .greaterThanOrEqual col value => .greaterThanOrEqual col value.key
  | .range col lower upper => .range col (lower.map Bound.key) (upper.map Bound.key)

theorem evaluate_key (pred : ColumnPredicate ScalarValue) (value : ScalarValue) :
    pred.key.evaluate (·.rank.isNone) value.key = pred.evaluateScalar value := by
  unfold ColumnPredicate.evaluate ColumnPredicate.evaluateScalar
  cases pred <;> simp only [ColumnPredicate.key, Bound.key, Option.all_map,
    value.isNone_rank, ScalarValue.key_le_key (a := value), ScalarValue.key_ge_key (a := value),
    ScalarValue.key_lt_key (a := value), ScalarValue.key_gt_key (a := value),
    ScalarValue.key_eq_key, Bool.decide_eq_true]

/-! ## The scan of the format -/

def keyedSchema (schema : List ColumnField) : TableSchema ScalarKey where
  fields := schema.map fun field ↦ ⟨field.name, true⟩
  decode payload :=
    let keys := (rowScalars schema ⟨[], ⟨some payload, 0, 0, 0⟩⟩ 0).map ScalarValue.key
    if keys.length = schema.length then keys else schema.map fun _ ↦ ScalarValue.null.key
  isNull key := key.rank.isNone
  null := ScalarValue.null.key
  isNull_null := rfl
  decode_length payload := by
    dsimp only
    split <;> simp_all
  decode_nulls hfield _ _ := by
    obtain ⟨field, -, rfl⟩ := Option.map_eq_some_iff.mp (List.getElem?_map.symm.trans hfield)
    rfl

/-- The scan with a filter.  The rows that satisfy the predicates are among those that
the filter of these predicates selects. -/
def columnScan (schema : List ColumnField) (filter : List VortexExpr) : VortexScan ScalarKey where
  scan table rows predicates := rows.filter fun row ↦
    predicates.isEmpty || filter.all (·.selectsIn schema (rowScalars schema row 0)) ||
      table.satisfies predicates row.version
  sublist _ _ _ := List.filter_sublist
  complete _ _ _ row hrow h := List.mem_filter.mpr ⟨hrow, by rw [h, Bool.or_true]⟩
  scan_nil _ _ := List.filter_eq_self.mpr fun _ _ ↦ rfl
  pushable key := key.dataType.pushable && key.rank.isSome

section Scan

variable {schema : List ColumnField} {nullable : Set ℕ} {rows : List VersionedRow}
  {row : VersionedRow} {slots : List Slot} {pred : ColumnPredicate ScalarValue} {expr : VortexExpr}

theorem canVortexPushdown_key (filter : List VortexExpr) :
    (columnScan schema filter).canVortexPushdown pred.key = canVortexPushdown pred := by
  cases pred with
  | lessThanOrEqual | range => rfl
  | _ => exact ScalarValue.pushable_key _

theorem satisfies_key (h : TableRows schema nullable rows) (hrow : row ∈ rows)
    (predicates : List (ColumnPredicate ScalarValue)) :
    (keyedSchema schema).satisfies (predicates.map ColumnPredicate.key) row.version =
      satisfiesAll schema predicates 0 row := by
  cases hvalue : row.version.value with
  | none => rw [TableSchema.satisfies, satisfiesAll, hvalue]; rfl
  | some payload =>
    obtain ⟨slots, hslots, hdecodes⟩ := h.decodes hrow hvalue
    have hlength : slots.length = schema.length := by
      rw [← List.length_map Slot.dataType, hslots.types, List.length_map]
    have hscalars : rowScalars schema ⟨[], ⟨some payload, 0, 0, 0⟩⟩ 0 = _ :=
      rowScalars_of_decodes rfl hdecodes 0
    have hdecode : (keyedSchema schema).decode payload =
        (slots.map Slot.recovered).map ScalarValue.key := by
      simp only [keyedSchema, hscalars, List.length_map, hlength, if_true]
    have hcolumn : ∀ pred : ColumnPredicate ScalarValue, pred.key.column = pred.column := by
      rintro (_ | _ | _ | _ | _ | _) <;> rfl
    rw [TableSchema.satisfies, hvalue, Option.any_some, hdecode,
      satisfiesAll_of_decodes hvalue hdecodes, TableSchema.rowMatches, rowMatches, List.all_map]
    refine congrArg (List.all predicates) (funext fun pred ↦ ?_)
    rw [Function.comp_apply, hcolumn, List.getElem?_map, Option.any_map]
    exact congrArg (Option.any · _) (funext (evaluate_key pred))

section Pushed

variable (hpred : pred.WellTyped schema ∧ pred.column < 256) (hpush : canVortexPushdown pred = true)
  (hexpr : columnPredToVortex pred = some expr)

include hpred hpush hexpr

theorem exists_eqLiteral :
    ∃ op literal field stored, pred.pushed = some (op, literal) ∧
      schema[pred.column]? = some field ∧ literal.OfType field.dataType ∧
      literal.eqLiteral = some stored ∧ expr = ⟨pred.column, op, stored⟩ := by
  obtain ⟨op, literal, hpushed, -⟩ := pushed_of_canVortexPushdown hpush
  have ⟨field, hfield, _⟩ := hpred.1
  have htype := hpred.1.ofType hpushed hfield
  rw [columnPredToVortex_of_pushed hpushed, vortexColumn, if_pos hpred.2,
    ScalarValue.orderLiteral_eq htype] at hexpr
  obtain ⟨stored, hstored, rfl⟩ := Option.map_eq_some_iff.mp hexpr
  refine ⟨op, literal, field, stored, hpushed, hfield, htype, ?_, rfl⟩
  split at hstored
  · exact hstored
  · exact (Option.ite_none_right_eq_some.mp hstored).2

/-- A missing Boolean is stored as false, but it does not satisfy a predicate. -/
theorem selectsIn_of_evaluate (hrow : RowOf schema nullable slots)
    (h : (slots.map Slot.recovered)[pred.column]?.any pred.evaluateScalar = true) :
    expr.selectsIn schema (slots.map Slot.recovered) = true := by
  obtain ⟨op, literal, field, stored, hpushed, hfield, htype, hstored, rfl⟩ :=
    exists_eqLiteral hpred hpush hexpr
  obtain ⟨slot, hslot, hslotType⟩ := hrow.getElem? hfield
  rw [List.getElem?_map, hslot, Option.map_some, Option.any_some,
    evaluateScalar_of_pushed hpushed] at h
  rw [← hslotType] at htype
  rw [selectsIn_of_slot hfield hslot, ← hslotType,
    selects_columnEntry pred.column htype hstored, h]
  intro hboolean hnone
  obtain ⟨dataType, value⟩ := slot
  cases hboolean
  cases value with
  | none => cases h
  | some value => cases hnone

end Pushed

theorem all_selectsIn_of_satisfiesAll (h : TableRows schema nullable rows) (hrow : row ∈ rows)
    {predicates : List (ColumnPredicate ScalarValue)}
    (hpreds : ∀ pred ∈ predicates, pred.WellTyped schema ∧ pred.column < 256)
    (hsatisfies : satisfiesAll schema (predicates.filter canVortexPushdown) 0 row = true) :
    (pushedFilter predicates).all (·.selectsIn schema (rowScalars schema row 0)) = true := by
  obtain ⟨payload, hvalue, -⟩ := (Option.any_eq_true _ _).mp hsatisfies
  obtain ⟨slots, hslots, hdecodes⟩ := h.decodes hrow hvalue
  rw [satisfiesAll_of_decodes hvalue hdecodes, rowMatches, List.all_eq_true] at hsatisfies
  rw [rowScalars_of_decodes hvalue hdecodes, List.all_eq_true]
  intro expr hexpr
  obtain ⟨pred, hmem, hsome⟩ := List.mem_filterMap.mp hexpr
  obtain ⟨hpred, hpush⟩ := List.mem_filter.mp hmem
  exact selectsIn_of_evaluate (hpreds pred hpred) hpush hsome hslots (hsatisfies pred hmem)

theorem scan_pushed (h : TableRows schema nullable rows)
    {predicates : List (ColumnPredicate ScalarValue)}
    (hpreds : ∀ pred ∈ predicates, pred.WellTyped schema ∧ pred.column < 256) :
    (columnScan schema (pushedFilter predicates)).scan (keyedSchema schema) rows
        ((predicates.filter canVortexPushdown).map ColumnPredicate.key) =
      rows.filter fun row ↦
        (pushedFilter predicates).all (·.selectsIn schema (rowScalars schema row 0)) := by
  refine List.filter_congr fun row hrow ↦ ?_
  rw [Bool.eq_iff_iff, Bool.or_eq_true, Bool.or_eq_true, satisfies_key h hrow]
  refine ⟨?_, fun hall ↦ .inl (.inr hall)⟩
  rintro ((hempty | hall) | hsatisfies)
  · rw [pushedFilter, List.map_eq_nil_iff.mp (List.isEmpty_iff.mp hempty)]
    rfl
  · exact hall
  · exact all_selectsIn_of_satisfiesAll h hrow hpreds hsatisfies

/-- On such predicates the filtered scan of a file of the table is a `VortexScan`. -/
theorem scanWithFilter_eq_columnScan (h : TableRows schema nullable rows)
    {predicates : List (String × ColumnPredicate ScalarValue)}
    (hpreds : ∀ pred ∈ predicates.map Prod.snd, pred.WellTyped schema ∧ pred.column < 256)
    (lower upper : Bytes) (snapshot : ℕ) (behind reading : ℕ → ℕ → UInt8) :
    scanWithFilter (.write rows schema behind) lower upper snapshot predicates (some schema)
        reading =
      .ok ((columnScan schema (pushedFilter (predicates.map Prod.snd))).scanWithFilter
        (keyedSchema schema) rows lower upper snapshot
        (predicates.map (Prod.map id ColumnPredicate.key))) := by
  have hschema := eq_nil_of_wellTyped fun pred hpred ↦ (hpreds pred hpred).1
  have htyped := filterTyped_of_forall fun pred hpred hpush expr hexpr ↦ by
    obtain ⟨op, literal, field, stored, -, hfield, htype, hstored, rfl⟩ :=
      exists_eqLiteral (hpreds pred hpred) hpush hexpr
    exact typed_of_ofType hfield htype hstored
  have hkeys : (predicates.map (Prod.map id ColumnPredicate.key)).map Prod.snd =
      (predicates.map Prod.snd).map ColumnPredicate.key := by
    rw [List.map_map, List.map_map]
    rfl
  rw [scanWithFilter_write h lower upper snapshot behind reading hschema htyped,
    VortexScan.scanWithFilter, hkeys]
  generalize hsnd : predicates.map Prod.snd = preds at hpreds
  simp only [List.filter_map, Function.comp_def, canVortexPushdown_key,
    scan_pushed h.scanRows hpreds]
  cases hresidual : preds.filter fun pred ↦ !canVortexPushdown pred with
  | nil => rfl
  | cons pred residual =>
    cases schema with
    | nil =>
      cases hschema rfl
      cases hsnd
      cases hresidual
    | cons field schema =>
      refine congrArg Except.ok (List.filter_filter.symm.trans (List.filter_congr ?_))
      intro row hrow
      exact (satisfies_key h.scanRows (List.mem_of_mem_filter hrow) _).symm

end Scan

end HatP
