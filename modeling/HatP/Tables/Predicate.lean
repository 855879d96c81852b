import HatP.Tables.RangeScan

/-!
# Column predicates

A filtered scan of a file drops rows that fail a predicate, row by row, and a
file is skipped when its statistics show that no row can match.  Predicates that
the file format cannot evaluate are checked on the decoded rows, where a
tombstone never matches.
-/

namespace HatP

/-! ## Schemas and predicates -/

structure Field where
  name : String
  nullable : Bool
deriving DecidableEq

/-- A registered schema: its fields, how payloads decode, and the null scalar.
Payloads have one scalar for each field, and null only where the field allows it. -/
structure TableSchema (σ : Type*) where
  fields : List Field
  decode : Bytes → List σ
  isNull : σ → Bool
  null : σ
  isNull_null : isNull null = true
  decode_length : ∀ payload, (decode payload).length = fields.length
  decode_nulls : ∀ {payload : Bytes} {col : ℕ} {field : Field} {scalar : σ},
    fields[col]? = some field → (decode payload)[col]? = some scalar → isNull scalar = true →
      field.nullable = true

structure Bound (σ : Type*) where
  value : σ
  inclusive : Bool

/-- A comparison of a column with a literal. -/
inductive ColumnPredicate (σ : Type*)
  | eq (col : ℕ) (value : σ)
  | lessThan (col : ℕ) (value : σ)
  | lessThanOrEqual (col : ℕ) (value : σ)
  | greaterThan (col : ℕ) (value : σ)
  | greaterThanOrEqual (col : ℕ) (value : σ)
  | range (col : ℕ) (lower upper : Option (Bound σ))

def ColumnPredicate.column {σ : Type*} : ColumnPredicate σ → ℕ
  | .eq col _ | .lessThan col _ | .lessThanOrEqual col _ | .greaterThan col _
  | .greaterThanOrEqual col _ | .range col _ _ => col

def predicatesWithFields {σ : Type*} (predicates : List (ColumnPredicate σ))
    (schema : TableSchema σ) : List (String × ColumnPredicate σ) :=
  predicates.filterMap fun pred ↦ schema.fields[pred.column]?.map fun field ↦ (field.name, pred)

section Filter

-- Scalars of different types are not comparable, so the order is partial.
variable {σ : Type*} [PartialOrder σ] [DecidableEq σ] [DecidableLT σ] [DecidableLE σ]

def ColumnPredicate.evaluate (pred : ColumnPredicate σ) (isNull : σ → Bool) (value : σ) : Bool :=
  if isNull value then false
  else match pred with
    | .eq _ rhs => value = rhs
    | .lessThan _ rhs => value < rhs
    | .lessThanOrEqual _ rhs => value ≤ rhs
    | .greaterThan _ rhs => rhs < value
    | .greaterThanOrEqual _ rhs => rhs ≤ value
    | .range _ lower upper =>
      (lower.all fun low ↦ if low.inclusive then low.value ≤ value else low.value < value) &&
        upper.all fun high ↦ if high.inclusive then value ≤ high.value else value < high.value

namespace TableSchema

variable (schema : TableSchema σ)

/-- A missing column does not match. -/
def rowMatches (decoded : List σ) (predicates : List (ColumnPredicate σ)) : Bool :=
  predicates.all fun pred ↦ decoded[pred.column]?.any (pred.evaluate schema.isNull)

def satisfies (predicates : List (ColumnPredicate σ)) (version : VersionedValue) : Bool :=
  version.value.any fun payload ↦ schema.rowMatches (schema.decode payload) predicates

def applyRowPredicates (rows : List VersionedRow) (predicates : List (ColumnPredicate σ)) :
    List VersionedRow :=
  if predicates.isEmpty then rows
  else if schema.fields.isEmpty then rows
  else rows.filter fun row ↦ schema.satisfies predicates row.version

end TableSchema

/-- What the file format does with a filter: of the given rows it returns some,
among them all that satisfy the predicates, and all of them without predicates. -/
structure VortexScan (σ : Type*) [PartialOrder σ] [DecidableEq σ] [DecidableLT σ]
    [DecidableLE σ] where
  scan : TableSchema σ → List VersionedRow → List (ColumnPredicate σ) → List VersionedRow
  sublist : ∀ schema rows predicates, (scan schema rows predicates).Sublist rows
  complete : ∀ schema rows predicates, ∀ row ∈ rows,
    schema.satisfies predicates row.version = true → row ∈ scan schema rows predicates
  scan_nil : ∀ schema rows, scan schema rows [] = rows
  /-- The literals that the format can compare with a column. -/
  pushable : σ → Bool

namespace VortexScan

def exact : VortexScan σ where
  scan schema rows predicates :=
    if predicates.isEmpty then rows
    else rows.filter fun row ↦ schema.satisfies predicates row.version
  sublist schema rows predicates := by
    split
    · exact List.Sublist.refl rows
    · exact List.filter_sublist
  complete schema rows predicates row hrow h := by
    split
    · exact hrow
    · exact List.mem_filter.mpr ⟨hrow, h⟩
  scan_nil schema rows := rfl
  pushable _ := true

variable (vortex : VortexScan σ)

def canVortexPushdown : ColumnPredicate σ → Bool
  | .eq _ value | .lessThan _ value | .greaterThan _ value | .greaterThanOrEqual _ value =>
    vortex.pushable value
  | .lessThanOrEqual _ _ | .range _ _ _ => false

def scanWithFilter (schema : TableSchema σ) (rows : List VersionedRow) (lower upper : Bytes)
    (snapshot : ℕ) (predicates : List (String × ColumnPredicate σ)) : List VersionedRow :=
  let pushed := (predicates.map Prod.snd).filter vortex.canVortexPushdown
  let residual := (predicates.map Prod.snd).filter fun pred ↦ !vortex.canVortexPushdown pred
  let rows := vortex.scan schema (scanRows rows lower upper snapshot) pushed
  if residual.isEmpty then rows else schema.applyRowPredicates rows residual

end VortexScan

end Filter

/-! ## Column statistics -/

section Statistics

variable {σ : Type*} [PartialOrder σ] [DecidableLT σ]

/-- The least and the greatest scalar of each field that is not null. -/
structure TableColumnStats (σ : Type*) where
  min : String → Option σ
  max : String → Option σ

namespace TableColumnStats

def empty {σ : Type*} : TableColumnStats σ := ⟨fun _ ↦ none, fun _ ↦ none⟩

variable (schema : TableSchema σ)

def addScalar (stats : TableColumnStats σ) (entry : Field × σ) : TableColumnStats σ :=
  let (field, scalar) := entry
  if schema.isNull scalar then stats
  else
    { min := Function.update stats.min field.name (match stats.min field.name with
        | none => some scalar
        | some prev => if scalar < prev then some scalar else some prev)
      max := Function.update stats.max field.name (match stats.max field.name with
        | none => some scalar
        | some prev => if prev < scalar then some scalar else some prev) }

def addRow (stats : TableColumnStats σ) (row : VersionedRow) : TableColumnStats σ :=
  match row.version.value with
  | none => stats
  | some payload => (schema.fields.zip (schema.decode payload)).foldl (addScalar schema) stats

def compute (table : Bytes) (rows : List VersionedRow) : TableColumnStats σ :=
  (rows.filter fun row ↦ keyTablePrefix row.key == tablePrefix table).foldl (addRow schema) empty

end TableColumnStats

/-- An equality with a literal outside the bounds of its column rules the file
out; a file without statistics is never skipped. -/
def skipFileByColumnStats (stats : Option (TableColumnStats σ))
    (predicates : List (String × ColumnPredicate σ)) : Bool :=
  stats.any fun stats ↦ predicates.any fun (field, pred) ↦
    match pred with
    | .eq _ value =>
      ((stats.min field).any fun least ↦ value < least) ||
        (stats.max field).any fun greatest ↦ greatest < value
    | _ => false

end Statistics

/-! ## What a filtered scan keeps -/

section Filter

variable {σ : Type*} [PartialOrder σ] [DecidableEq σ] [DecidableLT σ] [DecidableLE σ]

namespace TableSchema

variable {schema : TableSchema σ} {predicates : List (ColumnPredicate σ)} {version : VersionedValue}

theorem satisfies_eq_true :
    schema.satisfies predicates version = true ↔ ∃ payload, version.value = some payload ∧
      schema.rowMatches (schema.decode payload) predicates = true := by
  rw [satisfies, Option.any_eq_true]

theorem satisfies_of_subset {fewer : List (ColumnPredicate σ)}
    (hsubset : fewer ⊆ predicates) (h : schema.satisfies predicates version = true) :
    schema.satisfies fewer version = true := by
  obtain ⟨payload, hvalue, hmatches⟩ := satisfies_eq_true.mp h
  rw [rowMatches, List.all_eq_true] at hmatches
  refine satisfies_eq_true.mpr ⟨payload, hvalue, ?_⟩
  rw [rowMatches, List.all_eq_true]
  exact fun pred hpred ↦ hmatches pred (hsubset hpred)

theorem mem_zip_of_rowMatches_eq {payload : Bytes} {col : ℕ} {value : σ} {field : Field}
    (h : schema.rowMatches (schema.decode payload) predicates = true)
    (hpred : .eq col value ∈ predicates) (hfield : schema.fields[col]? = some field) :
    (field, value) ∈ schema.fields.zip (schema.decode payload) ∧ schema.isNull value = false := by
  rw [rowMatches, List.all_eq_true] at h
  have hcolumn := h _ hpred
  rw [Option.any_eq_true] at hcolumn
  obtain ⟨scalar, hscalar, heval⟩ := hcolumn
  rw [ColumnPredicate.evaluate] at heval
  split at heval
  · cases heval
  next hnull =>
    obtain rfl : scalar = value := of_decide_eq_true heval
    refine ⟨List.mem_of_getElem? (i := col) ?_, by simpa using hnull⟩
    rw [List.getElem?_zip_eq_some]
    exact ⟨hfield, hscalar⟩

theorem applyRowPredicates_sublist (rows : List VersionedRow) :
    (schema.applyRowPredicates rows predicates).Sublist rows := by
  rw [applyRowPredicates]
  split
  · exact List.Sublist.refl rows
  · split
    · exact List.Sublist.refl rows
    · exact List.filter_sublist

theorem mem_applyRowPredicates {rows : List VersionedRow} {row : VersionedRow} (hrow : row ∈ rows)
    (h : schema.satisfies predicates row.version = true) :
    row ∈ schema.applyRowPredicates rows predicates := by
  rw [applyRowPredicates]
  split
  · exact hrow
  · split
    · exact hrow
    · exact List.mem_filter.mpr ⟨hrow, h⟩

end TableSchema

theorem map_predicatesWithFields_subset {σ : Type*} (predicates : List (ColumnPredicate σ))
    (schema : TableSchema σ) :
    (predicatesWithFields predicates schema).map Prod.snd ⊆ predicates := by
  intro pred hpred
  obtain ⟨⟨name, _⟩, hentry, rfl⟩ := List.mem_map.mp hpred
  obtain ⟨pred, hmem, hsome⟩ := List.mem_filterMap.mp hentry
  obtain ⟨field, -, heq⟩ := Option.map_eq_some_iff.mp hsome
  obtain ⟨-, rfl⟩ := Prod.mk.inj heq
  exact hmem

namespace VortexScan

variable (vortex : VortexScan σ) (schema : TableSchema σ) (rows : List VersionedRow)
  (lower upper : Bytes) (s : ℕ)

theorem scanWithFilter_sublist (predicates : List (String × ColumnPredicate σ)) :
    (vortex.scanWithFilter schema rows lower upper s predicates).Sublist
      (scanRows rows lower upper s) := by
  have hscan := vortex.sublist schema (scanRows rows lower upper s)
    ((predicates.map Prod.snd).filter vortex.canVortexPushdown)
  rw [scanWithFilter]
  split
  · exact hscan
  · exact (schema.applyRowPredicates_sublist _).trans hscan

theorem scanWithFilter_nil :
    vortex.scanWithFilter schema rows lower upper s [] = scanRows rows lower upper s :=
  vortex.scan_nil schema (scanRows rows lower upper s)

theorem mem_scanWithFilter {predicates : List (String × ColumnPredicate σ)} {row : VersionedRow}
    (hrow : row ∈ scanRows rows lower upper s)
    (h : schema.satisfies (predicates.map Prod.snd) row.version = true) :
    row ∈ vortex.scanWithFilter schema rows lower upper s predicates := by
  have hfilter : ∀ keep, schema.satisfies ((predicates.map Prod.snd).filter keep) row.version :=
    fun keep ↦ TableSchema.satisfies_of_subset (List.filter_subset_self _) h
  have hscan := vortex.complete schema _ _ row hrow (hfilter vortex.canVortexPushdown)
  rw [scanWithFilter]
  split
  · exact hscan
  · exact TableSchema.mem_applyRowPredicates hscan (hfilter _)

end VortexScan

end Filter

/-! ## A skipped file has no match -/

theorem foldl_of_mem {α β : Type*} {f : β → α → β} {P : β → Prop} (hkeep : ∀ b a, P b → P (f b a))
    {a : α} (hset : ∀ b, P (f b a)) {l : List α} (ha : a ∈ l) (b : β) : P (l.foldl f b) := by
  obtain ⟨before, after, rfl⟩ := List.append_of_mem ha
  rw [List.foldl_append, List.foldl_cons]
  exact List.foldlRecOn after f (hset _) fun b hb a _ ↦ hkeep b a hb

section Statistics

variable {σ : Type*} [PartialOrder σ] [DecidableLT σ]

namespace TableColumnStats

def Admits (stats : TableColumnStats σ) (field : String) (scalar : σ) : Prop :=
  (∃ least, stats.min field = some least ∧ ¬scalar < least) ∧
    ∃ greatest, stats.max field = some greatest ∧ ¬greatest < scalar

variable {schema : TableSchema σ} {stats : TableColumnStats σ} {scalar : σ}

theorem Admits.addScalar {field : String} (h : stats.Admits field scalar)
    (entry : Field × σ) : (stats.addScalar schema entry).Admits field scalar := by
  obtain ⟨⟨name, nullable⟩, other⟩ := entry
  rw [TableColumnStats.addScalar]
  split
  · exact h
  · by_cases hname : field = name
    · subst hname
      obtain ⟨⟨least, hmin, hleast⟩, greatest, hmax, hgreatest⟩ := h
      simp only [Admits, Function.update_self, hmin, hmax]
      refine ⟨?_, ?_⟩
      · split
        next hlt => exact ⟨other, rfl, fun h ↦ hleast (h.trans hlt)⟩
        next => exact ⟨least, rfl, hleast⟩
      · split
        next hlt => exact ⟨other, rfl, fun h ↦ hgreatest (hlt.trans h)⟩
        next => exact ⟨greatest, rfl, hgreatest⟩
    · simp only [Admits, Function.update_of_ne hname]
      exact h

theorem admits_addScalar (stats : TableColumnStats σ) {field : Field}
    (hnull : schema.isNull scalar = false) :
    (stats.addScalar schema (field, scalar)).Admits field.name scalar := by
  rw [TableColumnStats.addScalar]
  simp only [hnull, Bool.false_eq_true, if_false, Admits, Function.update_self]
  refine ⟨?_, ?_⟩
  · cases stats.min field.name with
    | none => exact ⟨scalar, rfl, lt_irrefl _⟩
    | some prev =>
      dsimp only
      split
      next => exact ⟨scalar, rfl, lt_irrefl _⟩
      next hlt => exact ⟨prev, rfl, hlt⟩
  · cases stats.max field.name with
    | none => exact ⟨scalar, rfl, lt_irrefl _⟩
    | some prev =>
      dsimp only
      split
      next => exact ⟨scalar, rfl, lt_irrefl _⟩
      next hlt => exact ⟨prev, rfl, hlt⟩

theorem Admits.addRow {field : String} (h : stats.Admits field scalar)
    (row : VersionedRow) : (stats.addRow schema row).Admits field scalar := by
  rw [TableColumnStats.addRow]
  split
  · exact h
  · exact List.foldlRecOn (motive := fun stats : TableColumnStats σ ↦ stats.Admits field scalar) _ _
      h
      fun _ hstats entry _ ↦ hstats.addScalar entry

theorem admits_compute {table : Bytes} {rows : List VersionedRow} {row : VersionedRow}
    (hrow : row ∈ rows) (htable : keyTablePrefix row.key = tablePrefix table) {payload : Bytes}
    (hvalue : row.version.value = some payload) {field : Field}
    (hentry : (field, scalar) ∈ schema.fields.zip (schema.decode payload))
    (hnull : schema.isNull scalar = false) :
    (compute schema table rows).Admits field.name scalar := by
  rw [compute]
  have hmem : row ∈ rows.filter fun row ↦ keyTablePrefix row.key == tablePrefix table :=
    List.mem_filter.mpr ⟨hrow, by simpa using htable⟩
  refine foldl_of_mem (P := fun stats : TableColumnStats σ ↦ stats.Admits field.name scalar)
    (fun stats row h ↦ h.addRow row) (fun stats ↦ ?_) hmem _
  rw [TableColumnStats.addRow, hvalue]
  exact foldl_of_mem (P := fun stats : TableColumnStats σ ↦ stats.Admits field.name scalar)
    (fun stats entry h ↦ h.addScalar entry) (fun stats ↦ stats.admits_addScalar hnull) hentry _

theorem compute_of_zero_mem {schema : TableSchema σ} {table : Bytes} (h : 0 ∈ table)
    (rows : List VersionedRow) : compute schema table rows = empty := by
  rw [compute, List.filter_eq_nil_iff.mpr]
  · rfl
  · intro row _ hkey
    exact zero_not_mem_of_keyTablePrefix (by simpa using hkey) h

end TableColumnStats

/-- A file is not skipped when a row of the table in it satisfies the predicates. -/
theorem not_skipFileByColumnStats [DecidableEq σ] [DecidableLE σ] {schema : TableSchema σ}
    {table : Bytes}
    {rows : List VersionedRow} {predicates : List (ColumnPredicate σ)} {row : VersionedRow}
    (hrow : row ∈ rows) (htable : tablePrefix table <+: row.key)
    (h : schema.satisfies predicates row.version = true) :
    skipFileByColumnStats (some (TableColumnStats.compute schema table rows))
      (predicatesWithFields predicates schema) = false := by
  obtain ⟨payload, hvalue, hmatches⟩ := TableSchema.satisfies_eq_true.mp h
  rw [skipFileByColumnStats, Option.any_some, List.any_eq_false]
  intro ⟨name, pred⟩ hpred
  obtain ⟨pred', hmem, hsome⟩ := List.mem_filterMap.mp hpred
  obtain ⟨field, hfield, heq⟩ := Option.map_eq_some_iff.mp hsome
  obtain ⟨rfl, rfl⟩ := Prod.mk.inj heq
  -- Only an equality can rule the file out, and then the row has the literal in that column.
  cases pred' with
  | eq col value =>
    by_cases hzero : 0 ∈ table
    · rw [TableColumnStats.compute_of_zero_mem hzero]
      simp [TableColumnStats.empty]
    · have hkey := (keyTablePrefix_of_table htable).trans (keyTablePrefix_tablePrefix hzero)
      obtain ⟨hentry, hnull⟩ := schema.mem_zip_of_rowMatches_eq hmatches hmem hfield
      obtain ⟨⟨least, hmin, hleast⟩, greatest, hmax, hgreatest⟩ :=
        TableColumnStats.admits_compute hrow hkey hvalue hentry hnull
      simp [hmin, hmax, hleast, hgreatest]
  | lessThan | lessThanOrEqual | greaterThan | greaterThanOrEqual | range => simp

end Statistics

end HatP
