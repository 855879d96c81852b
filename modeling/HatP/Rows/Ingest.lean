import HatP.Lib.Fallible
import HatP.Rows.Codec
import HatP.Tables.PrimaryKey

/-!
# Ingested rows and their keys

An insert stores each row under the encoded values of its primary-key columns.  Updates
and deletes look these columns up by name in the batch at hand.  An insert takes their
positions from a cache that is filled by the first batch of the table and never changed,
so it uses the same keys only as long as the columns stay in place.
-/

namespace HatP

open Fallible Transition
open Std (ExtTreeMap LawfulEqCmp)

/-! ## The key of a row -/

/-- The positions of the primary-key columns; `missing` is the error for a column that the
batch does not have. -/
def resolveColumns {ε : Type} (missing : String → ε) (batch : RecordBatch)
    (primaryKey : List String) : Except ε (List (ℕ × String)) :=
  primaryKey.mapM fun column ↦
    match indexOf batch.schema column with
    | some idx => .ok (idx, column)
    | none => .error (missing column)

section RowKey

variable {ε : Type} (null : NullPrimaryKey → ε) (outOfRange : ε)

def rowKeyPart (table : Bytes) (batch : RecordBatch) (row : Fin batch.numRows)
    (column : ℕ × String) : Except ε Bytes :=
  if h : column.1 < batch.schema.length then
    (pkPart table (column.2, arraySlotToScalar (batch.slot row ⟨column.1, h⟩))).mapError null
  else .error outOfRange

/-- `null` is the error for a value that cannot be in a key, `outOfRange` the panic for a
position behind the last column. -/
def rowKey (table : Bytes) (batch : RecordBatch) (row : Fin batch.numRows)
    (pkColumns : List (ℕ × String)) : Except ε Bytes := do
  let parts ← pkColumns.mapM (rowKeyPart null outOfRange table batch row)
  return assembleTableKey table parts

end RowKey

/-! ## The keys of updates and deletes -/

inductive PlanError
  | plan (message : String)
  | external (err : EngineError)
  | panicked
deriving DecidableEq

namespace DmlPlanner

def resolvePkColumns : RecordBatch → List String → Except PlanError (List (ℕ × String)) :=
  resolveColumns fun column ↦
    .plan ("primary key column `" ++ column ++ "` not found in batch schema")

def buildPkKey : (table : Bytes) → (batch : RecordBatch) → Fin batch.numRows →
    List (ℕ × String) → Except PlanError Bytes :=
  rowKey (fun err ↦ .plan ("null primary key column `" ++ err.column ++ "`")) .panicked

def keyOf (table : Bytes) (primaryKey : List String) (batch : RecordBatch)
    (row : Fin batch.numRows) : Except PlanError Bytes := do
  let pkColumns ← resolvePkColumns batch primaryKey
  buildPkKey table batch row pkColumns

end DmlPlanner

/-! ## The keys of inserts -/

inductive IngestError
  | corrupt (message : String)
  | nullPrimaryKey (err : NullPrimaryKey)
  | encode (err : EngineError)
  | panicked
deriving DecidableEq

/-- What the engine remembers of a table between calls. -/
structure IngestState where
  tableSchemas : Bytes → Option (List ColumnField)
  pkColumnCache : Bytes → Option (List (ℕ × String))

structure IngestCall where
  batches : List RecordBatch
  table : Bytes
  primaryKey : List String

def resolvePkColumns : RecordBatch → List String → Except IngestError (List (ℕ × String)) :=
  resolveColumns fun _ ↦
    .corrupt "resolve_pk_columns: primary key column not present in input batch"

def buildRowPkKey : (table : Bytes) → (batch : RecordBatch) → Fin batch.numRows →
    List (ℕ × String) → Except IngestError Bytes :=
  rowKey .nullPrimaryKey .panicked

def rowsOfBatches (batches : List RecordBatch) : List ((batch : RecordBatch) × Fin batch.numRows) :=
  batches.flatMap fun batch ↦ (List.finRange batch.numRows).map (⟨batch, ·⟩)

def mergeRow (table : Bytes) (pkColumns : List (ℕ × String))
    (merged : ExtTreeMap Bytes Bytes) (row : (batch : RecordBatch) × Fin batch.numRows) :
    Except IngestError (ExtTreeMap Bytes Bytes) := do
  let key ← buildRowPkKey table row.1 row.2 pkColumns
  let payload ← (encodeRow row.1 row.2).mapError .encode
  return merged.insert key payload

namespace IngestState

def initial : IngestState := ⟨fun _ ↦ none, fun _ ↦ none⟩

def resolvePkCached (s : IngestState) (table : Bytes) (primaryKey : List String)
    (firstBatch : Option RecordBatch) : Except IngestError (List (ℕ × String)) × IngestState :=
  match s.pkColumnCache table with
  | some cached => (.ok cached, s)
  | none =>
    match firstBatch with
    | none => (.error (.corrupt "ingest_batches: no batches"), s)
    | some batch =>
      match resolvePkColumns batch primaryKey with
      | .error err => (.error err, s)
      | .ok resolved =>
        (.ok resolved,
          { s with pkColumnCache := Function.update s.pkColumnCache table (some resolved) })

def register (s : IngestState) (call : IngestCall) : IngestState :=
  match call.batches.head? with
  | none => s
  | some batch =>
    { s with tableSchemas := Function.update s.tableSchemas call.table (some batch.schema) }

def ingestBatches (s : IngestState) (call : IngestCall) :
    Except IngestError (List Mutation) × IngestState :=
  if call.primaryKey.isEmpty then
    (.error (.corrupt ("ingest_batches requires a table with a primary key; the legacy " ++
      "row-index fallback encoding was removed")), s)
  else
    match (s.register call).resolvePkCached call.table call.primaryKey call.batches.head? with
    | (.error err, s) => (.error err, s)
    | (.ok pkColumns, s) =>
      (do
        let merged ← (rowsOfBatches call.batches).foldlM (mergeRow call.table pkColumns) ∅
        return merged.toList.map fun entry ↦ Mutation.put entry.1 entry.2, s)

end IngestState

/-! ## Where the key columns are -/

def positions (batch : RecordBatch) (primaryKey : List String) : Option (List ℕ) :=
  primaryKey.mapM (indexOf batch.schema)

def IngestState.keyPositions (s : IngestState) (call : IngestCall) : Option (List ℕ) :=
  match s.pkColumnCache call.table with
  | some cached => some (cached.map Prod.fst)
  | none => call.batches.head?.bind fun batch ↦ positions batch call.primaryKey

/-- The declared key columns of every batch stand where the cache has them, or where the
first batch has them if nothing is cached. -/
def PkInPlace (s : IngestState) (call : IngestCall) : Prop :=
  ∀ batch ∈ call.batches, positions batch call.primaryKey = s.keyPositions call

instance (s : IngestState) (call : IngestCall) : Decidable (PkInPlace s call) :=
  inferInstanceAs (Decidable (∀ batch ∈ call.batches, _))

/-- Every mutation is a put of a row under its key by name, and no key is missing. -/
structure PutsByName (call : IngestCall) (mutations : List Mutation) : Prop where
  sound : ∀ mutation ∈ mutations, ∃ row ∈ rowsOfBatches call.batches, ∃ key payload,
    mutation = .put key payload ∧
      DmlPlanner.keyOf call.table call.primaryKey row.1 row.2 = .ok key ∧
        encodeRow row.1 row.2 = .ok payload
  complete : ∀ row ∈ rowsOfBatches call.batches, ∃ mutation ∈ mutations,
    DmlPlanner.keyOf call.table call.primaryKey row.1 row.2 = .ok mutation.key

/-! ## Keys and positions -/

variable {batch : RecordBatch} {primaryKey : List String}

theorem positions_of_resolveColumns {ε : Type} {missing : String → ε}
    {pkColumns : List (ℕ × String)}
    (h : resolveColumns missing batch primaryKey = .ok pkColumns) :
    positions batch primaryKey = some (pkColumns.map Prod.fst) := by
  refine mapM_eq_some_iff.mpr (List.forall₂_map_right_iff.mpr ?_)
  refine (mapM_eq_ok_iff.mp h).imp fun column found hfound ↦ ?_
  cases hindex : indexOf batch.schema column with
  | none =>
    rw [hindex] at hfound
    cases hfound
  | some idx =>
    rw [hindex] at hfound
    cases hfound
    rfl

theorem resolveColumns_of_positions {ε : Type} (missing : String → ε) {found : List ℕ}
    (h : positions batch primaryKey = some found) :
    ∃ pkColumns, resolveColumns missing batch primaryKey = .ok pkColumns ∧
      pkColumns.map Prod.fst = found := by
  unfold resolveColumns
  simp only [mapM_eq_ok_iff]
  induction mapM_eq_some_iff.mp h with
  | nil => exact ⟨[], .nil, rfl⟩
  | @cons column idx columns found hindex hrest ih =>
    obtain ⟨pkColumns, hcolumns, hfst⟩ := ih (mapM_eq_some_iff.mpr hrest)
    refine ⟨(idx, column) :: pkColumns, .cons (by rw [hindex]) hcolumns, ?_⟩
    rw [List.map_cons, hfst]

section RowKey

variable {ε ε' : Type} {null : NullPrimaryKey → ε} {outOfRange : ε} {null' : NullPrimaryKey → ε'}
  {outOfRange' : ε'} {table : Bytes} {batch : RecordBatch} {row : Fin batch.numRows}
  {pkColumns : List (ℕ × String)}

theorem rowKeyPart_congr {idx : ℕ} {column column' : String} {part : Bytes}
    (h : rowKeyPart null outOfRange table batch row (idx, column) = .ok part) :
    rowKeyPart null' outOfRange' table batch row (idx, column') = .ok part := by
  unfold rowKeyPart at h ⊢
  split at h
  next hlt =>
    rw [dif_pos hlt]
    unfold pkPart at h ⊢
    dsimp only at h ⊢
    cases hencode : encodePkValue (arraySlotToScalar (batch.slot row ⟨idx, hlt⟩)) with
    | none =>
      rw [hencode] at h
      cases h
    | some bytes =>
      rw [hencode] at h
      cases h
      rfl
  next => cases h

theorem rowKey_eq_ok {key : Bytes} :
    rowKey null outOfRange table batch row pkColumns = .ok key ↔ ∃ parts,
      List.Forall₂ (fun column part ↦ rowKeyPart null outOfRange table batch row column = .ok part)
        pkColumns parts ∧ assembleTableKey table parts = key := by
  simp only [← mapM_eq_ok_iff]
  exact map_eq_ok_iff

theorem rowKey_congr {pkColumns' : List (ℕ × String)} {key : Bytes}
    (hpositions : pkColumns.map Prod.fst = pkColumns'.map Prod.fst)
    (h : rowKey null outOfRange table batch row pkColumns = .ok key) :
    rowKey null' outOfRange' table batch row pkColumns' = .ok key := by
  obtain ⟨parts, hparts, hkey⟩ := rowKey_eq_ok.mp h
  refine rowKey_eq_ok.mpr ⟨parts, ?_, hkey⟩
  have hidx : List.Forall₂ (fun idx part ↦ ∀ column,
      rowKeyPart null' outOfRange' table batch row (idx, column) = .ok part)
      (pkColumns.map Prod.fst) parts :=
    List.forall₂_map_left_iff.mpr (hparts.imp fun _ _ hpart _ ↦ rowKeyPart_congr hpart)
  rw [hpositions] at hidx
  exact (List.forall₂_map_left_iff.mp hidx).imp fun column _ hpart ↦ hpart column.2

end RowKey

/-! ## One call -/

section Merge

variable {table : Bytes} {pkColumns : List (ℕ × String)}
  {merged merged' : ExtTreeMap Bytes Bytes} {row : (batch : RecordBatch) × Fin batch.numRows}

theorem mergeRow_eq_ok (h : mergeRow table pkColumns merged row = .ok merged') :
    ∃ key payload, buildRowPkKey table row.1 row.2 pkColumns = .ok key ∧
      encodeRow row.1 row.2 = .ok payload ∧ merged' = merged.insert key payload := by
  obtain ⟨key, hkey, hrest⟩ := bind_eq_ok h
  obtain ⟨payload, hpayload, ⟨⟩⟩ := bind_eq_ok hrest
  refine ⟨key, payload, hkey, ?_, rfl⟩
  cases hencode : encodeRow row.1 row.2 <;> rw [hencode] at hpayload <;> cases hpayload
  rfl

theorem merged_sound {rows : List ((batch : RecordBatch) × Fin batch.numRows)}
    (h : rows.foldlM (mergeRow table pkColumns) ∅ = .ok merged) {key payload : Bytes}
    (hentry : merged[key]? = some payload) :
    ∃ row ∈ rows, buildRowPkKey table row.1 row.2 pkColumns = .ok key ∧
      encodeRow row.1 row.2 = .ok payload := by
  revert key payload
  refine foldlM_invariant (P := fun merged : ExtTreeMap Bytes Bytes ↦
    ∀ {key payload}, merged[key]? = some payload → ∃ row ∈ rows,
      buildRowPkKey table row.1 row.2 pkColumns = .ok key ∧ encodeRow row.1 row.2 = .ok payload)
    (fun row hrow merged merged' hmerged hstep ↦ ?_) (fun hentry ↦ ?_) h
  · obtain ⟨key, payload, hkey, hpayload, rfl⟩ := mergeRow_eq_ok hstep
    intro key' payload' hentry
    rw [ExtTreeMap.getElem?_insert] at hentry
    split at hentry
    next heq =>
      cases hentry
      cases LawfulEqCmp.eq_of_compare heq
      exact ⟨row, hrow, hkey, hpayload⟩
    next => exact hmerged hentry
  · rw [ExtTreeMap.getElem?_empty] at hentry
    cases hentry

theorem merged_complete {rows : List ((batch : RecordBatch) × Fin batch.numRows)}
    (h : rows.foldlM (mergeRow table pkColumns) ∅ = .ok merged) :
    ∀ row ∈ rows, ∃ key, buildRowPkKey table row.1 row.2 pkColumns = .ok key ∧ key ∈ merged := by
  refine foldlM_forall_mem (Q := fun row (merged : ExtTreeMap Bytes Bytes) ↦
    ∃ key, buildRowPkKey table row.1 row.2 pkColumns = .ok key ∧ key ∈ merged)
    (fun row merged merged' hstep ↦ ?_) (fun row row' merged merged' hrow hstep ↦ ?_) h
  · obtain ⟨key, payload, hkey, -, rfl⟩ := mergeRow_eq_ok hstep
    exact ⟨key, hkey, ExtTreeMap.mem_insert_self⟩
  · obtain ⟨key, payload, -, -, rfl⟩ := mergeRow_eq_ok hstep
    obtain ⟨key', hkey', hmem⟩ := hrow
    exact ⟨key', hkey', ExtTreeMap.mem_insert.mpr (.inr hmem)⟩

end Merge

theorem mem_batches_of_mem_rows {batches : List RecordBatch}
    {row : (batch : RecordBatch) × Fin batch.numRows} (h : row ∈ rowsOfBatches batches) :
    row.1 ∈ batches := by
  obtain ⟨batch, hbatch, hrow⟩ := List.mem_flatMap.mp h
  obtain ⟨r, -, rfl⟩ := List.mem_map.mp hrow
  exact hbatch

section Call

variable {s t : IngestState} {call : IngestCall} {pkColumns : List (ℕ × String)}

theorem IngestState.keyPositions_of_resolvePkCached
    (h : (s.register call).resolvePkCached call.table call.primaryKey call.batches.head? =
      (.ok pkColumns, t)) : s.keyPositions call = some (pkColumns.map Prod.fst) := by
  have hcache : (s.register call).pkColumnCache = s.pkColumnCache := by
    unfold register
    split <;> rfl
  unfold resolvePkCached at h
  rw [hcache] at h
  unfold keyPositions
  cases hcached : s.pkColumnCache call.table with
  | some cached =>
    rw [hcached] at h
    cases h
    rfl
  | none =>
    rw [hcached] at h
    cases hbatch : call.batches.head? with
    | none =>
      rw [hbatch] at h
      cases h
    | some batch =>
      rw [hbatch] at h
      dsimp only at h
      cases hresolve : resolvePkColumns batch call.primaryKey with
      | error err =>
        rw [hresolve] at h
        cases h
      | ok resolved =>
        rw [hresolve] at h
        cases h
        exact positions_of_resolveColumns hresolve

theorem keyOf_of_buildRowPkKey {batch : RecordBatch} {row : Fin batch.numRows} {key : Bytes}
    (hpositions : positions batch call.primaryKey = some (pkColumns.map Prod.fst))
    (h : buildRowPkKey call.table batch row pkColumns = .ok key) :
    DmlPlanner.keyOf call.table call.primaryKey batch row = .ok key := by
  obtain ⟨resolved, hresolve, hfst⟩ := resolveColumns_of_positions
    (fun column ↦
      PlanError.plan ("primary key column `" ++ column ++ "` not found in batch schema"))
    hpositions
  unfold DmlPlanner.keyOf DmlPlanner.resolvePkColumns
  rw [hresolve]
  exact rowKey_congr hfst.symm h

theorem putsByName_of_pkInPlace {mutations : List Mutation} (hplace : PkInPlace s call)
    (h : (s.ingestBatches call).1 = .ok mutations) : PutsByName call mutations := by
  unfold IngestState.ingestBatches at h
  split at h
  · cases h
  · split at h
    next => cases h
    next pkColumns t hresolve =>
      obtain ⟨merged, hmerged, rfl⟩ := map_eq_ok_iff.mp h
      have hpositions := IngestState.keyPositions_of_resolvePkCached hresolve
      have hkey : ∀ row ∈ rowsOfBatches call.batches, ∀ key,
          buildRowPkKey call.table row.1 row.2 pkColumns = .ok key →
          DmlPlanner.keyOf call.table call.primaryKey row.1 row.2 = .ok key := by
        intro row hrow key hkey
        have hbatch := (hplace row.1 (mem_batches_of_mem_rows hrow)).trans hpositions
        exact keyOf_of_buildRowPkKey hbatch hkey
      constructor
      · intro mutation hmutation
        obtain ⟨⟨key, payload⟩, hentry, rfl⟩ := List.mem_map.mp hmutation
        have hget : merged[key]? = some payload :=
          ExtTreeMap.mem_toList_iff_getElem?_eq_some.mp hentry
        obtain ⟨row, hrow, hrowKey, hpayload⟩ := merged_sound hmerged hget
        exact ⟨row, hrow, key, payload, rfl, hkey row hrow key hrowKey, hpayload⟩
      · intro row hrow
        obtain ⟨key, hrowKey, hmem⟩ := merged_complete hmerged row hrow
        refine ⟨.put key merged[key], ?_, hkey row hrow key hrowKey⟩
        refine List.mem_map.mpr ⟨(key, merged[key]), ?_, rfl⟩
        apply ExtTreeMap.mem_toList_iff_getElem?_eq_some.mpr
        exact ExtTreeMap.getElem?_eq_some_getElem hmem

end Call

/-! ## Sequences of calls -/

/-- The engine and the answers that it has given. -/
structure IngestRun where
  engine : IngestState
  answers : List (IngestCall × Except IngestError (List Mutation))

namespace IngestRun

def initial : IngestRun := ⟨.initial, []⟩

def step (s : IngestRun) (call : IngestCall) : Option IngestRun :=
  let (answer, engine) := s.engine.ingestBatches call
  some ⟨engine, s.answers ++ [(call, answer)]⟩

def KeysByName (s : IngestRun) : Prop :=
  ∀ call mutations, (call, .ok mutations) ∈ s.answers → PutsByName call mutations

/-- In every sequence of calls that find the key columns in place, the keys of all answers
are those by name. -/
theorem along_keysByName {calls : List IngestCall}
    (hmeet : StepsMeet step (fun s call ↦ PkInPlace s.engine call) initial calls) :
    Along step KeysByName initial calls := by
  refine hmeet.along (I := KeysByName) (fun s call t hs hplace hstep ↦ ?_) (fun _ h ↦ h)
    (fun _ _ h ↦ by cases h)
  cases hstep
  intro call' mutations hanswer
  rcases List.mem_append.mp hanswer with hold | hnew
  · exact hs call' mutations hold
  · obtain ⟨rfl, hanswer⟩ := Prod.mk.inj (List.mem_singleton.mp hnew)
    exact putsByName_of_pkInPlace hplace hanswer.symm

end IngestRun

def visitBatch : RecordBatch where
  schema := [⟨"id", .int64⟩, ⟨"age", .int64⟩]
  numRows := 1
  value
    | 0, _ => some (7 : Int64)
    | 1, _ => some (30 : Int64)

def turnedBatch : RecordBatch where
  schema := [⟨"age", .int64⟩, ⟨"id", .int64⟩]
  numRows := 1
  value
    | 0, _ => some (30 : Int64)
    | 1, _ => some (7 : Int64)

def visitCall : IngestCall := ⟨[visitBatch], [117], ["id"]⟩

def turnedCall : IngestCall := ⟨[turnedBatch], [117], ["id"]⟩

theorem along_keysByName_visitCall :
    Along IngestRun.step IngestRun.KeysByName .initial [visitCall, visitCall] := by
  apply IngestRun.along_keysByName
  decide +kernel

/-- After a call with the columns in one order, a call with them in another order files
the row under its age. -/
theorem key_of_other_column :
    ((IngestState.initial.ingestBatches visitCall).2.ingestBatches turnedCall).1 =
        .ok [.put [117, 0, 0, 128, 0, 0, 0, 0, 0, 0, 30]
          [1, 30, 0, 0, 0, 0, 0, 0, 0, 1, 7, 0, 0, 0, 0, 0, 0, 0]] ∧
      DmlPlanner.keyOf [117] ["id"] turnedBatch (0 : Fin 1) =
        .ok [117, 0, 0, 128, 0, 0, 0, 0, 0, 0, 7] := by
  decide +kernel

end HatP
