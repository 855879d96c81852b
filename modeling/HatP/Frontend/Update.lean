import HatP.Frontend.PredicateTranslator
import HatP.Lib.Upsert
import HatP.Rows.Ingest

/-!
# UPDATE

An update scans the table, applies the assignments to the rows that match the filters and
puts each under the key of its new values.  It never deletes the old key.  So it replaces
the matched rows exactly when their new keys are their old keys in some order.
-/

namespace HatP

variable {mutations : List Mutation} {rows : List TableRow}
  {entry : TableRow → Except PlanError (Bytes × Bytes)} {puts : List (Bytes × Bytes)}

open Fallible Upsert

/-! ## The planner -/

section Planner

-- How a scalar becomes a value of a column, which is left to the query engine.
variable (cast : (dataType : DataType) → ScalarValue → Except String (Option dataType.Value))

def evalExpr (expr : Expr) (batch : RecordBatch) (row : Fin batch.numRows) (dataType : DataType) :
    Except PlanError (Option dataType.Value) :=
  (cast dataType (expr.eval batch.schema ((batch.row row).map Slot.scalar))).mapError
    fun err ↦ .plan ("cast expression: " ++ err)

def evalExprToArray (expr : Expr) (batch : RecordBatch) (dataType : DataType) :
    Except PlanError (Fin batch.numRows → Option dataType.Value) :=
  sequence fun row ↦ evalExpr cast expr batch row dataType

def conjunctionExpr : List Expr → Option Expr
  | [] => none
  | filter :: filters => some (filters.foldl (fun left right ↦ .binaryExpr left .and right) filter)

def evalFiltersMask (filters : List Expr) (batch : RecordBatch) :
    Except PlanError (Fin batch.numRows → Option DataType.boolean.Value) :=
  match conjunctionExpr filters with
  | none => .ok fun _ ↦ some true
  | some expr => evalExprToArray cast expr batch .boolean

/-- A row is kept where the mask is true, not where it is false or null. -/
def selected (value : Option DataType.boolean.Value) : Bool :=
  Option.getD (α := Bool) value false

variable (assignments : List (String × Expr))

/-- The first assignment to the column decides. -/
def updatedColumn (batch : RecordBatch) (col : Fin batch.schema.length) :
    Except PlanError (Fin batch.numRows → Option (batch.schema.get col).dataType.Value) :=
  match assignments.find? fun assignment ↦ assignment.1 = (batch.schema.get col).name with
  | some (_, expr) => evalExprToArray cast expr batch (batch.schema.get col).dataType
  | none => .ok (batch.value col)

def putRow (table : Bytes) (batch : RecordBatch) (pkColumns : List (ℕ × String))
    (row : Fin batch.numRows) : Except PlanError Mutation := do
  let payload ← (encodeRow batch row).mapError .external
  let key ← DmlPlanner.buildPkKey table batch row pkColumns
  return .put key payload

variable (filters : List Expr) (table : Bytes) (primaryKey : List String)

def planUpdateBatch (batch : RecordBatch) : Except PlanError (List Mutation) :=
  if batch.numRows = 0 then .ok []
  else do
    let mask ← evalFiltersMask cast filters batch
    let values ← sequence (updatedColumn cast assignments batch)
    let updated : RecordBatch := ⟨batch.schema, batch.numRows, values⟩
    let matched := (List.finRange batch.numRows).filter fun row ↦ selected (mask row)
    let pkColumns ← DmlPlanner.resolvePkColumns updated primaryKey
    matched.mapM (putRow table updated pkColumns)

def planUpdate (scan : Except EngineError (List RecordBatch)) : Except PlanError (List Mutation) :=
  if primaryKey.isEmpty then .error (.plan "UPDATE requires a table with a primary key")
  else do
    let batches ← scan.mapError .external
    let mutations ← batches.mapM (planUpdateBatch cast assignments filters table primaryKey)
    return mutations.flatten

/-! ## What an update is for -/

abbrev TableRow := (batch : RecordBatch) × Fin batch.numRows

def rowMatched (row : TableRow) : Bool :=
  match conjunctionExpr filters with
  | none => true
  | some expr =>
    match evalExpr cast expr row.1 row.2 .boolean with
    | .ok value => selected value
    | .error _ => false

def assignedValue (row : TableRow) (col : Fin row.1.schema.length) :
    Except PlanError (Option (row.1.schema.get col).dataType.Value) :=
  match assignments.find? fun assignment ↦ assignment.1 = (row.1.schema.get col).name with
  | some (_, expr) => evalExpr cast expr row.1 row.2 (row.1.schema.get col).dataType
  | none => .ok (row.1.value col row.2)

def rowEntry (row : TableRow) : Except PlanError (Bytes × Bytes) := do
  let payload ← (encodeRow row.1 row.2).mapError .external
  let key ← DmlPlanner.keyOf table primaryKey row.1 row.2
  return (key, payload)

def updatedEntry (row : TableRow) : Except PlanError (Bytes × Bytes) := do
  let values ← sequence (assignedValue cast assignments row)
  rowEntry table primaryKey ⟨⟨row.1.schema, 1, fun col _ ↦ values col⟩, (0 : Fin 1)⟩

end Planner

/-! ## The planned puts -/

section Plan

variable {cast : (dataType : DataType) → ScalarValue → Except String (Option dataType.Value)}
  {assignments : List (String × Expr)} {filters : List Expr} {table : Bytes}
  {primaryKey : List String} {batch : RecordBatch}

theorem rowMatched_of_mask {mask : Fin batch.numRows → Option DataType.boolean.Value}
    (h : evalFiltersMask cast filters batch = .ok mask) (row : Fin batch.numRows) :
    rowMatched cast filters ⟨batch, row⟩ = selected (mask row) := by
  unfold evalFiltersMask at h
  unfold rowMatched
  cases hfilter : conjunctionExpr filters with
  | none =>
    rw [hfilter] at h
    cases h
    rfl
  | some expr =>
    rw [hfilter] at h
    dsimp only
    rw [of_sequence_eq_ok h row]

theorem assignedValue_of_updatedColumn {col : Fin batch.schema.length}
    {values : Fin batch.numRows → Option (batch.schema.get col).dataType.Value}
    (h : updatedColumn cast assignments batch col = .ok values) (row : Fin batch.numRows) :
    assignedValue cast assignments ⟨batch, row⟩ col = .ok (values row) := by
  unfold updatedColumn at h
  unfold assignedValue
  split at h
  next name expr hfind =>
    rw [hfind]
    exact of_sequence_eq_ok h row
  next hfind =>
    rw [hfind]
    cases h
    rfl

theorem rowEntry_of_row {values : (col : Fin batch.schema.length) → Fin batch.numRows →
      Option (batch.schema.get col).dataType.Value}
    {row : Fin batch.numRows} {pkColumns : List (ℕ × String)} {key payload : Bytes}
    (hcolumns : DmlPlanner.resolvePkColumns ⟨batch.schema, batch.numRows, values⟩ primaryKey =
      .ok pkColumns)
    (hpayload : (encodeRow ⟨batch.schema, batch.numRows, values⟩ row).mapError PlanError.external =
      .ok payload)
    (hkey : DmlPlanner.buildPkKey table ⟨batch.schema, batch.numRows, values⟩ row pkColumns =
      .ok key) :
    rowEntry table primaryKey ⟨⟨batch.schema, 1, fun col _ ↦ values col row⟩, (0 : Fin 1)⟩ =
      .ok (key, payload) := by
  have hcolumns' : DmlPlanner.resolvePkColumns ⟨batch.schema, 1, fun col _ ↦ values col row⟩
      primaryKey = .ok pkColumns := hcolumns
  have hpayload' : (encodeRow ⟨batch.schema, 1, fun col _ ↦ values col row⟩ (0 : Fin 1)).mapError
      PlanError.external = .ok payload := hpayload
  have hkey' : DmlPlanner.keyOf table primaryKey ⟨batch.schema, 1, fun col _ ↦ values col row⟩
      (0 : Fin 1) = .ok key := by
    rw [DmlPlanner.keyOf, hcolumns']
    exact hkey
  rw [rowEntry, hpayload', hkey']
  rfl

theorem planUpdateBatch_eq_ok
    (h : planUpdateBatch cast assignments filters table primaryKey batch = .ok mutations) :
    List.Forall₂ (fun row mutation ↦ ∃ entry,
        updatedEntry cast assignments table primaryKey row = .ok entry ∧
          mutation = .put entry.1 entry.2)
      (((List.finRange batch.numRows).map (⟨batch, ·⟩)).filter (rowMatched cast filters))
      mutations := by
  unfold planUpdateBatch at h
  split at h
  next hzero =>
    cases h
    have hrows : List.finRange batch.numRows = [] :=
      List.eq_nil_of_length_eq_zero (by rw [List.length_finRange, hzero])
    rw [hrows]
    exact .nil
  next =>
    obtain ⟨mask, hmask, h⟩ := bind_eq_ok h
    obtain ⟨values, hvalues, h⟩ := bind_eq_ok h
    obtain ⟨pkColumns, hcolumns, h⟩ := bind_eq_ok h
    rw [List.filter_map, List.forall₂_map_left_iff]
    have hfilter : (List.finRange batch.numRows).filter
        (rowMatched cast filters ∘ fun row ↦ ⟨batch, row⟩) =
          (List.finRange batch.numRows).filter fun row ↦ selected (mask row) :=
      List.filter_congr fun row _ ↦ rowMatched_of_mask hmask row
    rw [hfilter]
    refine (mapM_eq_ok_iff.mp h).imp fun row mutation hput ↦ ?_
    obtain ⟨payload, hpayload, hput⟩ := bind_eq_ok hput
    obtain ⟨key, hkey, hput⟩ := bind_eq_ok hput
    cases hput
    have hassigned : sequence (assignedValue cast assignments ⟨batch, row⟩) =
        .ok fun col ↦ values col row :=
      sequence_eq_ok fun col ↦ assignedValue_of_updatedColumn (of_sequence_eq_ok hvalues col) row
    refine ⟨(key, payload), ?_, rfl⟩
    rw [updatedEntry, hassigned]
    exact rowEntry_of_row hcolumns hpayload hkey

theorem planUpdate_eq_ok {batches : List RecordBatch}
    (h : planUpdate cast assignments filters table primaryKey (.ok batches) = .ok mutations) :
    List.Forall₂ (fun row mutation ↦ ∃ entry,
        updatedEntry cast assignments table primaryKey row = .ok entry ∧
          mutation = .put entry.1 entry.2)
      ((rowsOfBatches batches).filter (rowMatched cast filters)) mutations := by
  unfold planUpdate at h
  split at h
  · cases h
  · obtain ⟨_, hbatches, h⟩ := bind_eq_ok h
    cases hbatches
    obtain ⟨parts, hparts, h⟩ := bind_eq_ok h
    cases h
    clear * - hparts
    rw [mapM_eq_ok_iff] at hparts
    induction hparts with
    | nil => exact .nil
    | cons hbatch _ ih =>
      rw [rowsOfBatches, List.flatMap_cons, List.filter_append, List.flatten_cons]
      exact List.rel_append (planUpdateBatch_eq_ok hbatch) ih

end Plan

/-! ## The table before and after -/

def Engine.tableEntries (e : Engine) (table : Bytes) : Set (Bytes × Bytes) :=
  {entry | tablePrefix table <+: entry.1 ∧ some entry.2 ∈ e.newestValues entry.1}

def Engine.applyPlan (e : Engine) (txId : ℕ) (mutations : List Mutation) : Engine :=
  match e.writeWithTx txId mutations with
  | .ok (_, e') => e'
  | .error _ => e

def entriesOf (entry : TableRow → Except PlanError (Bytes × Bytes)) (rows : List TableRow) :
    List (Bytes × Bytes) :=
  rows.filterMap fun row ↦ (entry row).toOption

/-- The scan returned each live row of the table once. -/
structure ScansTable (e : Engine) (table : Bytes) (primaryKey : List String)
    (batches : List RecordBatch) : Prop where
  stored : ∀ row ∈ rowsOfBatches batches, ∃ entry, rowEntry table primaryKey row = .ok entry
  once : ((entriesOf (rowEntry table primaryKey) (rowsOfBatches batches)).map Prod.fst).Nodup
  live : e.tableEntries table =
    {entry | entry ∈ entriesOf (rowEntry table primaryKey) (rowsOfBatches batches)}

section Update

variable (cast : (dataType : DataType) → ScalarValue → Except String (Option dataType.Value))
  (assignments : List (String × Expr)) (filters : List Expr) (table : Bytes)
  (primaryKey : List String) (batches : List RecordBatch)

def unmatchedEntries : List (Bytes × Bytes) :=
  entriesOf (rowEntry table primaryKey)
    ((rowsOfBatches batches).filter fun row ↦ !rowMatched cast filters row)

def matchedEntries : List (Bytes × Bytes) :=
  entriesOf (rowEntry table primaryKey)
    ((rowsOfBatches batches).filter (rowMatched cast filters))

def updatedEntries : List (Bytes × Bytes) :=
  entriesOf (updatedEntry cast assignments table primaryKey)
    ((rowsOfBatches batches).filter (rowMatched cast filters))

/-- The table has the unmatched rows and the updated ones, and no two under one key. -/
def Replaced (e : Engine) : Prop :=
  e.tableEntries table = {entry | entry ∈ unmatchedEntries cast filters table primaryKey batches ++
      updatedEntries cast assignments filters table primaryKey batches} ∧
    ((unmatchedEntries cast filters table primaryKey batches ++
      updatedEntries cast assignments filters table primaryKey batches).map Prod.fst).Nodup

end Update

theorem entriesOf_cons_of_eq_ok
    {row : TableRow} {p : Bytes × Bytes} (h : entry row = .ok p) (rows : List TableRow) :
    entriesOf entry (row :: rows) = p :: entriesOf entry rows := by
  simp [entriesOf, h, Except.toOption]

theorem length_entriesOf (h : ∀ row ∈ rows, ∃ p, entry row = .ok p) :
    (entriesOf entry rows).length = rows.length := by
  induction rows with
  | nil => rfl
  | cons row rows ih =>
    obtain ⟨⟨p, hp⟩, hrows⟩ := List.forall_mem_cons.mp h
    rw [entriesOf_cons_of_eq_ok hp, List.length_cons, List.length_cons, ih hrows]

theorem eq_map_entriesOf
    (h : List.Forall₂ (fun row mutation ↦ ∃ p, entry row = .ok p ∧ mutation = .put p.1 p.2) rows
      mutations) :
    mutations = (entriesOf entry rows).map fun p ↦ .put p.1 p.2 := by
  induction h with
  | nil => rfl
  | cons hrow _ ih =>
    obtain ⟨p, hp, rfl⟩ := hrow
    rw [entriesOf_cons_of_eq_ok hp, List.map_cons, ih]

theorem netEffect_puts (puts : List (Bytes × Bytes)) (key : Bytes) :
    netEffect (puts.map fun p ↦ .put p.1 p.2) key = (lastPut puts key).map some := by
  induction puts using List.reverseRecOn with
  | nil => rfl
  | append_singleton puts put ih =>
    rw [List.map_append, List.map_singleton, netEffect_concat, lastPut_concat, ih]
    by_cases hkey : put.1 = key
    · rw [if_pos hkey, if_pos (show (Mutation.put put.1 put.2).key = key from hkey)]
      rfl
    · rw [if_neg hkey, if_neg (show (Mutation.put put.1 put.2).key ≠ key from hkey)]

theorem tableEntries_committed {e : Engine} (hinv : e.Inv) (txId : ℕ) {table : Bytes}
    (hkeys : ∀ put ∈ puts, tablePrefix table <+: put.1) :
    (e.committed txId (puts.map fun put ↦ .put put.1 put.2)).tableEntries table =
      upserted (e.tableEntries table) puts := by
  ext ⟨key, payload⟩
  simp only [Engine.tableEntries, upserted, Set.mem_ofPred_eq]
  rw [hinv.newestValues_committed, netEffect_puts]
  cases hput : lastPut puts key with
  | none => rfl
  | some value =>
    have hstart : tablePrefix table <+: key := hkeys _ (mem_of_lastPut hput)
    simp [hstart]

theorem tableEntries_applyPlan {e : Engine} (hinv : e.Inv) {txId : ℕ} (htx : txId ≠ 0)
    {table : Bytes} (hkeys : ∀ put ∈ puts, tablePrefix table <+: put.1) :
    (e.applyPlan txId (puts.map fun put ↦ .put put.1 put.2)).tableEntries table =
      upserted (e.tableEntries table) puts := by
  cases puts with
  | nil => rfl
  | cons put puts =>
    rw [← tableEntries_committed hinv txId hkeys]
    apply congrArg (Engine.tableEntries · table)
    rw [List.map_cons, Engine.applyPlan, Engine.writeWithTx, if_neg (List.cons_ne_nil _ _),
      if_neg htx]
    rfl

section Update

variable {cast : (dataType : DataType) → ScalarValue → Except String (Option dataType.Value)}
  {assignments : List (String × Expr)} {filters : List Expr} {table : Bytes}
  {primaryKey : List String} {batches : List RecordBatch}

theorem mem_entriesOf {p : Bytes × Bytes} (h : p ∈ entriesOf entry rows) :
    ∃ row ∈ rows, entry row = .ok p := by
  obtain ⟨row, hrow, hp⟩ := List.mem_filterMap.mp h
  refine ⟨row, hrow, ?_⟩
  cases hentry : entry row with
  | ok _ =>
    rw [hentry] at hp
    cases hp
    rfl
  | error _ =>
    rw [hentry] at hp
    cases hp

theorem tablePrefix_prefix_rowEntry {row : TableRow} {entry : Bytes × Bytes}
    (h : rowEntry table primaryKey row = .ok entry) : tablePrefix table <+: entry.1 := by
  obtain ⟨payload, _, h⟩ := bind_eq_ok h
  obtain ⟨key, hkey, h⟩ := bind_eq_ok h
  cases h
  obtain ⟨pkColumns, _, hkey⟩ := bind_eq_ok hkey
  obtain ⟨parts, _, rfl⟩ := rowKey_eq_ok.mp hkey
  exact tablePrefix_prefix_assembleTableKey table parts

variable (cast filters table primaryKey batches) in
theorem perm_entries :
    (entriesOf (rowEntry table primaryKey) (rowsOfBatches batches)).Perm
      (unmatchedEntries cast filters table primaryKey batches ++
        matchedEntries cast filters table primaryKey batches) := by
  rw [unmatchedEntries, matchedEntries, entriesOf, entriesOf, entriesOf, ← List.filterMap_append]
  apply List.Perm.filterMap
  exact (List.perm_append_comm.trans (List.filter_append_perm _ _)).symm

/-- An update replaces the rows it matches exactly when their new keys are their old keys. -/
theorem replaced_iff_keys_perm {e : Engine} (hinv : e.Inv) {txId : ℕ} (htx : txId ≠ 0)
    (hscan : ScansTable e table primaryKey batches) {mutations : List Mutation}
    (hplan : planUpdate cast assignments filters table primaryKey (.ok batches) = .ok mutations) :
    Replaced cast assignments filters table primaryKey batches (e.applyPlan txId mutations) ↔
      ((updatedEntries cast assignments filters table primaryKey batches).map Prod.fst).Perm
        ((matchedEntries cast filters table primaryKey batches).map Prod.fst) := by
  have hputs := planUpdate_eq_ok hplan
  have hstart : ∀ put ∈ updatedEntries cast assignments filters table primaryKey batches,
      tablePrefix table <+: put.1 := by
    intro put hput
    obtain ⟨row, _, hrow⟩ := mem_entriesOf hput
    obtain ⟨values, _, hrow⟩ := bind_eq_ok hrow
    exact tablePrefix_prefix_rowEntry hrow
  have hlength : (updatedEntries cast assignments filters table primaryKey batches).length =
      (matchedEntries cast filters table primaryKey batches).length := by
    have hmutations := congrArg List.length (eq_map_entriesOf hputs)
    rw [List.length_map, ← hputs.length_eq] at hmutations
    rw [updatedEntries, ← hmutations, matchedEntries, length_entriesOf]
    exact fun row hrow ↦ hscan.stored row (List.mem_of_mem_filter hrow)
  have hperm := perm_entries cast filters table primaryKey batches
  have hlive : e.tableEntries table =
      {entry | entry ∈ unmatchedEntries cast filters table primaryKey batches ++
        matchedEntries cast filters table primaryKey batches} := by
    rw [hscan.live]
    ext entry
    exact hperm.mem_iff
  rw [eq_map_entriesOf hputs]
  unfold Replaced
  rw [← updatedEntries, tableEntries_applyPlan hinv htx hstart, hlive]
  exact replaced_iff_perm ((hperm.map Prod.fst).nodup_iff.mp hscan.once) hlength

end Update

/-! ## Tables with one row and with two -/

theorem tableEntries_initial (table : Bytes) : Engine.initial.tableEntries table = ∅ := by
  ext entry
  simp [Engine.tableEntries, Engine.newestValues, Engine.IsNewest, Engine.heldStamps_initial]

def castSame : (dataType : DataType) → ScalarValue → Except String (Option dataType.Value)
  | .int64, .int64 v => .ok v
  | .boolean, .boolean v => .ok v
  | _, _ => .error "Unsupported CAST"

theorem scansTable_committed {table : Bytes} {primaryKey : List String}
    {batches : List RecordBatch} (entries : List (Bytes × Bytes))
    (hrows : (rowsOfBatches batches).map (rowEntry table primaryKey) = entries.map .ok)
    (hnodup : (entries.map Prod.fst).Nodup)
    (hstart : ∀ put ∈ entries, tablePrefix table <+: put.1) :
    ScansTable (Engine.initial.committed 1 (entries.map fun p ↦ .put p.1 p.2)) table primaryKey
      batches := by
  have hentries : entriesOf (rowEntry table primaryKey) (rowsOfBatches batches) = entries := by
    have hmap := congrArg (List.filterMap Except.toOption) hrows
    rw [List.filterMap_map, List.filterMap_map] at hmap
    exact hmap.trans List.filterMap_some
  refine ⟨fun row hrow ↦ ?_, by rwa [hentries], ?_⟩
  · have hmem : rowEntry table primaryKey row ∈ entries.map .ok :=
      hrows ▸ List.mem_map_of_mem hrow
    obtain ⟨p, -, hp⟩ := List.mem_map.mp hmem
    exact ⟨p, hp.symm⟩
  · rw [hentries]
    refine (tableEntries_committed Engine.inv_initial 1 hstart).trans ?_
    rw [tableEntries_initial]
    ext entry
    rw [mem_upserted hnodup, Set.mem_ofPred_eq]
    split
    next => rfl
    next hkey =>
      exact iff_of_false (Set.notMem_empty _) fun hmem ↦ hkey (List.mem_map_of_mem hmem)

def visitEntry : Bytes × Bytes :=
  ([117, 0, 0, 128, 0, 0, 0, 0, 0, 0, 7], [1, 7, 0, 0, 0, 0, 0, 0, 0, 1, 30, 0, 0, 0, 0, 0, 0, 0])

def visitFilter : Expr := .binaryExpr (.column "id") .eq (.literal (.int64 (some 7)))

def visitsBatch : RecordBatch where
  schema := [⟨"id", .int64⟩, ⟨"visits", .int64⟩]
  numRows := 2
  value
    | 0, 0 => some (7 : Int64)
    | 1, 0 => some (30 : Int64)
    | 0, _ => some (9 : Int64)
    | 1, _ => some (40 : Int64)

def lateEntry : Bytes × Bytes :=
  ([117, 0, 0, 128, 0, 0, 0, 0, 0, 0, 9], [1, 9, 0, 0, 0, 0, 0, 0, 0, 1, 40, 0, 0, 0, 0, 0, 0, 0])

def twoVisits : Engine :=
  Engine.initial.committed 1 [.put visitEntry.1 visitEntry.2, .put lateEntry.1 lateEntry.2]

def countedEntry : Bytes × Bytes :=
  ([117, 0, 0, 128, 0, 0, 0, 0, 0, 0, 7], [1, 7, 0, 0, 0, 0, 0, 0, 0, 1, 31, 0, 0, 0, 0, 0, 0, 0])

/-- The filter matches the first row and leaves the second one. -/
theorem replaced_iff_keys_perm_twoVisits :
    planUpdate castSame [("visits", .literal (.int64 (some 31)))] [visitFilter] [117] ["id"]
        (.ok [visitsBatch]) = .ok [.put countedEntry.1 countedEntry.2] ∧
      Replaced castSame [("visits", .literal (.int64 (some 31)))] [visitFilter] [117] ["id"]
        [visitsBatch] (twoVisits.applyPlan 2 [.put countedEntry.1 countedEntry.2]) := by
  have hplan : planUpdate castSame [("visits", .literal (.int64 (some 31)))] [visitFilter] [117]
      ["id"] (.ok [visitsBatch]) = .ok [.put countedEntry.1 countedEntry.2] := by
    decide +kernel
  have hscans : ScansTable twoVisits [117] ["id"] [visitsBatch] :=
    scansTable_committed [visitEntry, lateEntry] (by decide +kernel) (by decide) (by decide)
  refine ⟨hplan, ?_⟩
  apply (replaced_iff_keys_perm Engine.inv_initial.committed two_ne_zero hscans hplan).mpr
  decide +kernel

def visitEngine : Engine := Engine.initial.committed 1 [.put visitEntry.1 visitEntry.2]

theorem scansTable_visitEngine : ScansTable visitEngine [117] ["id"] [visitBatch] :=
  scansTable_committed [visitEntry] (by decide +kernel) (List.nodup_singleton _) (by decide)

def movedEntry : Bytes × Bytes :=
  ([117, 0, 0, 128, 0, 0, 0, 0, 0, 0, 8], [1, 8, 0, 0, 0, 0, 0, 0, 0, 1, 30, 0, 0, 0, 0, 0, 0, 0])

/-- An update of the key leaves the row under its old key. -/
theorem old_row_remains :
    planUpdate castSame [("id", .literal (.int64 (some 8)))] [visitFilter] [117] ["id"]
        (.ok [visitBatch]) = .ok [.put movedEntry.1 movedEntry.2] ∧
      ScansTable visitEngine [117] ["id"] [visitBatch] ∧
      visitEntry ∈ (visitEngine.applyPlan 2 [.put movedEntry.1 movedEntry.2]).tableEntries [117] ∧
      ¬ Replaced castSame [("id", .literal (.int64 (some 8)))] [visitFilter] [117] ["id"]
        [visitBatch] (visitEngine.applyPlan 2 [.put movedEntry.1 movedEntry.2]) := by
  have hremains : visitEntry ∈
      (visitEngine.applyPlan 2 [.put movedEntry.1 movedEntry.2]).tableEntries [117] := by
    have hstart : ∀ put ∈ [movedEntry], tablePrefix [117] <+: put.1 := by
      decide
    have hinv : visitEngine.Inv := Engine.inv_initial.committed
    have hafter := tableEntries_applyPlan hinv two_ne_zero hstart
    rw [List.map_singleton] at hafter
    rw [hafter, scansTable_visitEngine.live]
    have hput : lastPut [movedEntry] visitEntry.1 = none := by
      decide
    simp only [upserted, Set.mem_ofPred_eq, hput]
    decide +kernel
  refine ⟨by decide +kernel, scansTable_visitEngine, hremains, fun hreplaced ↦ ?_⟩
  rw [hreplaced.1] at hremains
  revert hremains
  rw [Set.mem_ofPred_eq]
  decide +kernel

end HatP
