import HatP.Frontend.Catalog
import HatP.Tables.Partitions

/-!
# Tables beside each other

The catalog tells tables apart by catalog, schema and name, and the store by the
name alone: the adapter of a table hands only its name to the engine.  So two
tables are kept apart exactly when their names differ and neither has a zero byte,
at which the prefix of a key would be cut.
-/

namespace HatP

open Std (ExtTreeMap ExtTreeSet LawfulEqCmp)

/-! ## What a table scan depends on -/

theorem MemTable.scanPrefixVersions_congr {memtable memtable' : MemTable} {table : Bytes} {s s' : ℕ}
    (hentry : ∀ key, tablePrefix table <+: key → memtable'[key]? = memtable[key]?)
    (hget : ∀ key, (memtable.chain key).get s' = (memtable.chain key).get s) :
    memtable'.scanPrefixVersions (tablePrefix table) s' =
      memtable.scanPrefixVersions (tablePrefix table) s := by
  have hscan : ∀ (t : MemTable) (at_ : ℕ), t.scanPrefixVersions (tablePrefix table) at_ =
      (t.filter fun key _ ↦ inPrefixRange (tablePrefix table) key).toList.filterMap
        fun entry ↦ (entry.2.get at_).map (VersionedRow.mk entry.1) := by
    intro t at_
    rw [ExtTreeMap.toList_filter, List.filterMap_filter, scanPrefixVersions]
    refine List.filterMap_congr fun entry _ ↦ ?_
    by_cases hin : inPrefixRange (tablePrefix table) entry.1 = true
    · have hunder := inPrefixRange_tablePrefix.mp hin
      rw [hin, List.isPrefixOf_iff_prefix.mpr hunder]
      rfl
    · rw [Bool.not_eq_true] at hin
      rw [hin]
      rfl
  have hsame : memtable'.filter (fun key _ ↦ inPrefixRange (tablePrefix table) key) =
      memtable.filter fun key _ ↦ inPrefixRange (tablePrefix table) key := by
    refine ExtTreeMap.ext_getElem? fun key ↦ ?_
    rw [ExtTreeMap.getElem?_filter', ExtTreeMap.getElem?_filter']
    by_cases hin : inPrefixRange (tablePrefix table) key = true
    · rw [hentry key (inPrefixRange_tablePrefix.mp hin)]
    · rw [Bool.not_eq_true] at hin
      simp [hin]
  rw [hscan, hscan, hsame]
  refine List.filterMap_congr fun entry hmem ↦ ?_
  have hfound := ExtTreeMap.mem_toList_iff_getElem?_eq_some.mp hmem
  rw [ExtTreeMap.getElem?_filter'] at hfound
  have hchain : memtable.chain entry.1 = entry.2 := by
    rw [chain, (Option.filter_eq_some_iff.mp hfound).1]
    rfl
  rw [← hchain, hget]

theorem VersionSet.filesFrom_congr {vs vs' : VersionSet} (h : vs'.levels = vs.levels)
    (fuel level : ℕ) : vs'.filesFrom fuel level = vs.filesFrom fuel level := by
  induction fuel generalizing level with
  | zero => rfl
  | succ fuel ih =>
    have hfiles : vs'.files level = vs.files level := by rw [files, files, h]
    rw [filesFrom, filesFrom, hfiles, ih]

namespace Engine

section Scan

variable {σ : Type*} [PartialOrder σ] [DecidableEq σ] [DecidableLT σ] [DecidableLE σ]

/-- A table scan sees the memtable under the prefix, the drop of the table, the
files of the levels and their rows under the prefix. -/
structure SameTable (e e' : Engine) (table : Bytes) : Prop where
  memtable : e'.memtable.scanPrefixVersions (tablePrefix table) e'.snapshotTs =
    e.memtable.scanPrefixVersions (tablePrefix table) e.snapshotTs
  dropped : e'.isDroppedPrefix (tablePrefix table) = e.isDroppedPrefix (tablePrefix table)
  levels : e'.versionSet.levels = e.versionSet.levels
  rows : ∀ i, e'.fileRows table i = e.fileRows table i

variable {e e' : Engine} {table : Bytes}

theorem SameTable.mergedVisible_eq (h : e.SameTable e' table) (vortex : VortexScan σ)
    (stats : ℕ → Option (TableColumnStats σ)) (schema : TableSchema σ)
    (predicates : Option (List (String × ColumnPredicate σ))) :
    e'.mergedVisible vortex stats schema table predicates =
      e.mergedVisible vortex stats schema table predicates := by
  have hfiles : e'.versionSet.files 0 = e.versionSet.files 0 := by
    rw [VersionSet.files, VersionSet.files, h.levels]
  have hscan : ∀ i, e'.fileScan vortex schema table (predicates.getD []) i =
        e.fileScan vortex schema table (predicates.getD []) i := by
    intro i
    rw [fileScan, fileScan, VortexScan.scanWithFilter, VortexScan.scanWithFilter, ← fileRows,
      h.rows]
  have hkept : ∀ i, ∀ row ∈ e.fileScan vortex schema table (predicates.getD []) i,
        e'.isDroppedPrefix row.key = e.isDroppedPrefix row.key := by
    intro i row hrow
    have hunder := tablePrefix_prefix_iff.mpr
      (mem_scanRows.mp ((vortex.scanWithFilter_sublist schema _ _ _ _ _).subset hrow)).1
    rw [isDroppedPrefix_of_table hunder, isDroppedPrefix_of_table hunder, h.dropped]
  rw [Engine.mergedVisible_eq, Engine.mergedVisible_eq, mergedRows, mergedRows, h.memtable,
    h.dropped, hfiles]
  congr 2
  split
  · rfl
  · refine List.flatMap_congr fun i _ ↦ ?_
    split
    · rfl
    · rw [hscan]
      exact List.filter_congr fun row hrow ↦ by rw [hkept i row hrow]

theorem SameTable.scanTableArrow_eq (h : e.SameTable e' table) (vortex : VortexScan σ)
    (stats : ℕ → Option (TableColumnStats σ)) (registered fallback : Option (TableSchema σ))
    (batchSize : ℕ+) (predicates : Option (List (ColumnPredicate σ))) :
    e'.scanTableArrow vortex stats registered fallback table batchSize predicates =
      e.scanTableArrow vortex stats registered fallback table batchSize predicates := by
  cases hschema : registered.or fallback with
  | none => rw [scanTableArrow, scanTableArrow, hschema]
  | some schema =>
    have hfile : ∀ i, e'.fileBatches vortex schema table (predicates.getD []) batchSize i =
          e.fileBatches vortex schema table (predicates.getD []) batchSize i := by
      intro i
      rw [fileBatches, fileBatches, VortexScan.scanToArrowBatches, VortexScan.scanToArrowBatches,
        ← fileRows, h.rows]
    have hfiles : e'.partitionFiles = e.partitionFiles := by
      rw [partitionFiles, partitionFiles, VersionSet.filesFrom_congr h.levels, h.levels]
    simp only [scanTableArrow, hschema, h.mergedVisible_eq, scannedFiles, h.dropped, hfiles, hfile]

end Scan

/-! ## Commits and drops beside a table -/

variable {e : Engine} {table : Bytes} {mutations : List Mutation}

theorem getElem?_applyMutationsBatch (memtable : MemTable) (txId commitTs : ℕ) {key : Bytes}
    (h : ∀ m ∈ mutations, m.key ≠ key) :
    (memtable.applyMutationsBatch txId mutations commitTs)[key]? = memtable[key]? := by
  induction mutations generalizing memtable with
  | nil => rfl
  | cons m mutations ih =>
    obtain ⟨hm, hmutations⟩ := List.forall_mem_cons.mp h
    rw [MemTable.applyMutationsBatch, List.foldl_cons, ← MemTable.applyMutationsBatch,
      ih _ hmutations, MemTable.applyMutation, ExtTreeMap.getElem?_alter,
      if_neg fun heq ↦ hm (LawfulEqCmp.eq_of_compare heq)]

theorem Inv.get_next (h : e.Inv) (hseq : e.commitSeq < openEndedTs) (key : Bytes) :
    (e.memtable.chain key).get e.commitSeq = (e.memtable.chain key).get e.snapshotTs := by
  refine List.find?_congr fun v hv ↦ ?_
  exact visibleAt_next (h.memtable_tiled key)
    (fun u hu ↦ h.begun key u.stamp (.inl (stamp_mem_stamps hu))) hseq hv

theorem Inv.scanRows_next (h : e.Inv) (hseq : e.commitSeq < openEndedTs) (i : ℕ)
    (lower upper : Bytes) :
    scanRows (e.rowsOf i) lower upper e.commitSeq =
      scanRows (e.rowsOf i) lower upper e.snapshotTs := by
  by_cases hlive : e.IsLive i
  · refine List.filter_congr fun row hrow ↦ ?_
    obtain ⟨r, hr, rfl⟩ := List.mem_map.mp hrow
    have hversion : r.version ∈ versionsOf (e.rowsOf i) r.key := mem_versionsOf.mpr hr
    have hsees := visibleAt_next (h.tiled i hlive r.key) (fun u hu ↦
      h.begun r.key u.stamp (.inr ⟨u, ⟨i, hlive, hu⟩, rfl⟩)) hseq hversion
    change (_ && r.version.visibleAt e.commitSeq) = (_ && r.version.visibleAt (e.commitSeq - 1))
    rw [hsees]
  · rw [rowsOf, h.retired i hlive]
    rfl

theorem Inv.sameTable_committed (h : e.Inv) (hseq : e.commitSeq < openEndedTs) {txId : ℕ}
    (hkeys : ∀ m ∈ mutations, ¬tablePrefix table <+: m.key) :
    e.SameTable (e.committed txId mutations) table where
  memtable := by
    refine MemTable.scanPrefixVersions_congr (fun key hkey ↦ ?_) fun key ↦ h.get_next hseq key
    exact getElem?_applyMutationsBatch _ _ _ fun m hm heq ↦ hkeys m hm (heq ▸ hkey)
  dropped := rfl
  levels := rfl
  rows i := h.scanRows_next hseq i _ _

theorem sameTable_dropped {name : Bytes} (hzero : 0 ∉ table) (hne : name ≠ table)
    (hname : 0 ∉ name) : e.SameTable (e.dropped name) table where
  memtable := by
    refine MemTable.scanPrefixVersions_congr (fun key hkey ↦ ?_) fun _ ↦ rfl
    have hother : inPrefixRange (tablePrefix name) key = false := by
      rw [← Bool.not_eq_true, inPrefixRange_tablePrefix]
      intro hunder
      have hsame := (keyTablePrefix_of_table hunder).symm.trans (keyTablePrefix_of_table hkey)
      rw [keyTablePrefix_tablePrefix hname, keyTablePrefix_tablePrefix hzero] at hsame
      exact hne (List.append_cancel_right hsame)
    change (e.memtable.erasePrefix (tablePrefix name)).2[key]? = _
    rw [MemTable.erasePrefix, ExtTreeMap.getElem?_filter', hother]
    cases e.memtable[key]? <;> rfl
  dropped := by
    have hother : tablePrefix name ≠ tablePrefix table :=
      fun heq ↦ hne (List.append_cancel_right heq)
    rw [Bool.eq_iff_iff]
    simp only [isDroppedPrefix, ExtTreeSet.contains_iff_mem, keyTablePrefix_tablePrefix hzero]
    change tablePrefix table ∈ e.droppedTables.insert (tablePrefix name) ↔ _
    rw [ExtTreeSet.mem_insert, LawfulEqCmp.compare_eq_iff_eq, or_iff_right hother]
  levels := rfl
  rows _ := rfl

end Engine

namespace Frontend

/-! ## Statements -/

/-- What `with_engine` keeps of a table: of its identity only the name. -/
structure TableProviderAdapter where
  name : Bytes
  primaryKey : List String
  schema : List Field

def TableProviderAdapter.withEngine (schema : TableSchema) : TableProviderAdapter :=
  ⟨schema.name, schema.primaryKey, schema.arrow.fields.map ArrowField.toField⟩

/-- What a statement asks the engine for.  Each row comes with the encoded parts of
its primary key and its payload. -/
inductive Statement (σ : Type*)
  | insert
  /-- `ingest_batches` of batches with a schema, and the write of its puts. -/
  | ingest (schema : HatP.TableSchema σ) (rows : List (List Bytes × Bytes))
  | update (rows : List (List Bytes × Bytes))
  | delete (keys : List (List Bytes))
  | dropTablePrefix

/-- The input has to be a `MemorySourceConfig`.  That is a data source, and the input
of an `INSERT` is an execution plan, so the check fails for every input. -/
def planInsert : Except String (List Mutation) :=
  .error ("plan_insert currently only supports MemorySourceConfig (i.e. direct table scans via " ++
    "TableProviderAdapter). Joins / aggregates must use INSERT ... SELECT via execute_sql + the " ++
    "TableProviderAdapter::insert_into path.")

/-- The puts of `ingest_batches`: one for each key, the last row of the key. -/
def insertMutations (table : Bytes) (rows : List (List Bytes × Bytes)) : List Mutation :=
  (rows.foldl (fun merged row ↦ merged.insert (assembleTableKey table row.1) row.2)
    (∅ : ExtTreeMap Bytes Bytes)).toList.map fun entry ↦ .put entry.1 entry.2

def updateMutations (table : Bytes) (rows : List (List Bytes × Bytes)) : List Mutation :=
  rows.map fun row ↦ .put (assembleTableKey table row.1) row.2

def deleteMutations (table : Bytes) (keys : List (List Bytes)) : List Mutation :=
  keys.map fun parts ↦ .delete (assembleTableKey table parts)

/-- The store with the registry of table schemas. -/
structure SchemaStore (σ : Type*) where
  store : LoggedEngine
  tableSchemas : ExtTreeMap Bytes (HatP.TableSchema σ)

namespace SchemaStore

section Exec

variable {σ : Type*}

def commit (db : SchemaStore σ) (txId : ℕ) (mutations : List Mutation) : SchemaStore σ :=
  { db with store := (db.store.tableStep (.call (.write txId mutations))).getD db.store }

/-- A statement through the adapter of a table.  Without a primary key a table can
only be dropped. -/
def exec (db : SchemaStore σ) (table : TableProviderAdapter) (txId : ℕ) :
    Statement σ → SchemaStore σ
  | .insert =>
    match planInsert with
    | .error _ => db
    | .ok mutations => db.commit txId mutations
  | .ingest schema rows =>
    if table.primaryKey.isEmpty then db
    else { db with tableSchemas := db.tableSchemas.insert table.name schema }.commit txId
      (insertMutations table.name rows)
  | .update rows =>
    if table.primaryKey.isEmpty then db else db.commit txId (updateMutations table.name rows)
  | .delete keys =>
    if table.primaryKey.isEmpty then db else db.commit txId (deleteMutations table.name keys)
  | .dropTablePrefix =>
    { db with store := (db.store.tableStep (.dropTable table.name)).getD db.store }

variable [PartialOrder σ] [DecidableEq σ] [DecidableLT σ] [DecidableLE σ]

def scan (db : SchemaStore σ) (table : TableProviderAdapter) (vortex : VortexScan σ)
    (stats : ℕ → Option (TableColumnStats σ)) (fallback : Option (HatP.TableSchema σ))
    (batchSize : ℕ+) (predicates : Option (List (ColumnPredicate σ))) :
    Except EngineError (List (List (List (List σ)))) :=
  db.store.engine.scanTableArrow vortex stats db.tableSchemas[table.name]? fallback table.name
    batchSize predicates

end Exec

end SchemaStore

/-- No statement through one table changes what a scan of the other returns, while
there are timestamps left. -/
def Frames (table other : TableProviderAdapter) : Prop :=
  ∀ (σ : Type) [PartialOrder σ] [DecidableEq σ] [DecidableLT σ] [DecidableLE σ]
    (ops : List TableOp) (db : SchemaStore σ) (txId : ℕ) (statement : Statement σ),
    Transition.run LoggedEngine.tableStep .initial ops = some db.store →
    db.store.engine.commitSeq < openEndedTs →
    ∀ (vortex : VortexScan σ) (stats : ℕ → Option (TableColumnStats σ))
      (fallback : Option (HatP.TableSchema σ)) (batchSize : ℕ+)
      (predicates : Option (List (ColumnPredicate σ))),
      (db.exec table txId statement).scan other vortex stats fallback batchSize predicates =
        db.scan other vortex stats fallback batchSize predicates

/-- Two tables are kept apart. -/
structure Isolated (table other : TableProviderAdapter) : Prop where
  disjoint : ∀ parts parts', assembleTableKey table.name parts ≠ assembleTableKey other.name parts'
  found : ∀ parts, keyTablePrefix (assembleTableKey table.name parts) = tablePrefix table.name
  found_other : ∀ parts,
    keyTablePrefix (assembleTableKey other.name parts) = tablePrefix other.name
  frames : Frames table other
  frames_other : Frames other table

/-! ## Keys of a table -/

variable {table other : TableProviderAdapter}

theorem keyTablePrefix_assembleTableKey {table : Bytes} (h : 0 ∉ table) (parts : List Bytes) :
    keyTablePrefix (assembleTableKey table parts) = tablePrefix table := by
  rw [keyTablePrefix_of_table (tablePrefix_prefix_assembleTableKey table parts),
    keyTablePrefix_tablePrefix h]

theorem not_tablePrefix_assembleTableKey {table other : Bytes} (h : 0 ∉ table) (hother : 0 ∉ other)
    (hne : table ≠ other) (parts : List Bytes) :
    ¬tablePrefix other <+: assembleTableKey table parts := by
  intro hunder
  have hfound := keyTablePrefix_of_table hunder
  rw [keyTablePrefix_assembleTableKey h, keyTablePrefix_tablePrefix hother] at hfound
  exact hne (List.append_cancel_right hfound)

def KeysOf (table : Bytes) (mutations : List Mutation) : Prop :=
  ∀ m ∈ mutations, ∃ parts, m.key = assembleTableKey table parts

theorem keysOf_insertMutations (table : Bytes) (rows : List (List Bytes × Bytes)) :
    KeysOf table (insertMutations table rows) := by
  have hmerged : ∀ (rows : List (List Bytes × Bytes)) (merged : ExtTreeMap Bytes Bytes),
      (∀ key ∈ merged, ∃ parts, key = assembleTableKey table parts) →
      ∀ key ∈ rows.foldl (fun merged row ↦ merged.insert (assembleTableKey table row.1) row.2)
        merged, ∃ parts, key = assembleTableKey table parts := by
    intro rows
    induction rows with
    | nil => exact fun merged h ↦ h
    | cons row rows ih =>
      refine fun merged h ↦ ih _ fun key hkey ↦ ?_
      rcases ExtTreeMap.mem_insert.mp hkey with heq | hold
      · exact ⟨row.1, (LawfulEqCmp.eq_of_compare heq).symm⟩
      · exact h key hold
  intro m hm
  obtain ⟨entry, hentry, rfl⟩ := List.mem_map.mp hm
  refine hmerged rows ∅ (fun key hkey ↦ absurd hkey ExtTreeMap.not_mem_empty) entry.1 ?_
  exact ExtTreeMap.mem_iff_isSome_getElem?.mpr
    (Option.isSome_of_eq_some (ExtTreeMap.mem_toList_iff_getElem?_eq_some.mp hentry))

theorem keysOf_updateMutations (table : Bytes) (rows : List (List Bytes × Bytes)) :
    KeysOf table (updateMutations table rows) := by
  intro m hm
  obtain ⟨row, -, rfl⟩ := List.mem_map.mp hm
  exact ⟨row.1, rfl⟩

theorem keysOf_deleteMutations (table : Bytes) (keys : List (List Bytes)) :
    KeysOf table (deleteMutations table keys) := by
  intro m hm
  obtain ⟨parts, -, rfl⟩ := List.mem_map.mp hm
  exact ⟨parts, rfl⟩

/-! ## Isolation -/

section Frame

variable {σ : Type*} {table other : TableProviderAdapter} {db : SchemaStore σ}

theorem sameTable_commit (hinv : db.store.engine.Inv)
    (hseq : db.store.engine.commitSeq < openEndedTs) {name : Bytes} {mutations : List Mutation}
    (hkeys : ∀ m ∈ mutations, ¬tablePrefix name <+: m.key) (txId : ℕ) :
    db.store.engine.SameTable (db.commit txId mutations).store.engine name := by
  have hrefl : db.store.engine.SameTable db.store.engine name := ⟨rfl, rfl, rfl, fun _ ↦ rfl⟩
  rcases db.store.writeWithTx_cases txId mutations with ⟨err, herr⟩ | ⟨w, -, -, -, hok⟩
  · rw [SchemaStore.commit, LoggedEngine.tableStep, LoggedEngine.step, herr]
    exact hrefl
  · rw [SchemaStore.commit, LoggedEngine.tableStep, LoggedEngine.step, hok]
    exact hinv.sameTable_committed hseq hkeys

theorem sameTable_drop {name name' : Bytes} (hzero : 0 ∉ name') (hne : name ≠ name')
    (hname : 0 ∉ name) : db.store.engine.SameTable
      ((db.store.tableStep (.dropTable name)).getD db.store).engine name' := by
  rcases db.store.engine.dropTablePrefix_cases name with ⟨err, herr⟩ | ⟨removed, hok⟩
  · rw [LoggedEngine.tableStep, herr]
    exact ⟨rfl, rfl, rfl, fun _ ↦ rfl⟩
  · rw [LoggedEngine.tableStep, hok]
    exact Engine.sameTable_dropped hzero hne hname

/-- A statement through one table leaves the other, and its registered schema. -/
theorem sameTable_exec (hne : table.name ≠ other.name) (hzero : 0 ∉ table.name)
    (hother : 0 ∉ other.name) (hinv : db.store.engine.Inv)
    (hseq : db.store.engine.commitSeq < openEndedTs) (txId : ℕ) (statement : Statement σ) :
    db.store.engine.SameTable (db.exec table txId statement).store.engine other.name ∧
      (db.exec table txId statement).tableSchemas[other.name]? = db.tableSchemas[other.name]? := by
  have hrefl : db.store.engine.SameTable db.store.engine other.name :=
    ⟨rfl, rfl, rfl, fun _ ↦ rfl⟩
  have hoff : ∀ {mutations : List Mutation}, KeysOf table.name mutations →
      ∀ m ∈ mutations, ¬tablePrefix other.name <+: m.key := by
    intro mutations hkeys m hm
    obtain ⟨parts, hparts⟩ := hkeys m hm
    rw [hparts]
    exact not_tablePrefix_assembleTableKey hzero hother hne parts
  cases statement with
  | insert => exact ⟨hrefl, rfl⟩
  | ingest schema rows =>
    rw [SchemaStore.exec]
    split
    · exact ⟨hrefl, rfl⟩
    · refine ⟨sameTable_commit hinv hseq
        (hoff (keysOf_insertMutations _ rows)) txId, ?_⟩
      change (db.tableSchemas.insert table.name schema)[other.name]? = _
      rw [ExtTreeMap.getElem?_insert, if_neg fun heq ↦ hne (LawfulEqCmp.eq_of_compare heq)]
  | update rows =>
    rw [SchemaStore.exec]
    split
    · exact ⟨hrefl, rfl⟩
    · exact ⟨sameTable_commit hinv hseq (hoff (keysOf_updateMutations _ rows)) txId, rfl⟩
  | delete keys =>
    rw [SchemaStore.exec]
    split
    · exact ⟨hrefl, rfl⟩
    · exact ⟨sameTable_commit hinv hseq (hoff (keysOf_deleteMutations _ keys)) txId, rfl⟩
  | dropTablePrefix => exact ⟨sameTable_drop hother hne hzero, rfl⟩

end Frame

theorem frames_of_names (hne : table.name ≠ other.name)
    (hzero : 0 ∉ table.name) (hother : 0 ∉ other.name) : Frames table other := by
  intro σ _ _ _ _ ops db txId statement hrun hseq vortex stats fallback batchSize predicates
  obtain ⟨hsame, hschema⟩ := sameTable_exec hne hzero hother (LoggedEngine.engine_inv_of_run hrun)
    hseq txId statement
  rw [SchemaStore.scan, SchemaStore.scan, hschema, hsame.scanTableArrow_eq]

theorem isolated_iff :
    Isolated table other ↔ table.name ≠ other.name ∧ 0 ∉ table.name ∧ 0 ∉ other.name := by
  constructor
  · intro h
    exact ⟨fun heq ↦ h.disjoint [] [] (by rw [heq]), zero_not_mem_of_keyTablePrefix (h.found []),
      zero_not_mem_of_keyTablePrefix (h.found_other [])⟩
  · rintro ⟨hne, hzero, hother⟩
    refine ⟨fun parts parts' heq ↦ ?_, keyTablePrefix_assembleTableKey hzero,
      keyTablePrefix_assembleTableKey hother, frames_of_names hne hzero hother,
      frames_of_names (Ne.symm hne) hother hzero⟩
    exact not_tablePrefix_assembleTableKey hzero hother hne parts
      (heq ▸ tablePrefix_prefix_assembleTableKey other.name parts')

/-- Two tables of a catalog are kept apart exactly when their names differ and
neither has a zero byte; their schemas do not matter. -/
theorem tables_isolated_iff (ops : List CatalogOp) {qualified qualified' : QualifiedName}
    {name name' : Bytes} {table table' : TableSchema}
    (htable : (ops.foldl Catalog.exec .new).tableSchema qualified name = some table)
    (htable' : (ops.foldl Catalog.exec .new).tableSchema qualified' name' = some table') :
    Isolated (.withEngine table) (.withEngine table') ↔ name ≠ name' ∧ 0 ∉ name ∧ 0 ∉ name' := by
  obtain ⟨-, rfl⟩ := Catalog.namesTables_of_run ops qualified name table htable
  obtain ⟨-, rfl⟩ := Catalog.namesTables_of_run ops qualified' name' table' htable'
  exact isolated_iff

/-! ## Shared rows -/

def valueColumn : ArrowSchema := ⟨[⟨⟨"value", true⟩, .uint8, []⟩], []⟩

def oneColumn (schema name : Bytes) : CreateTable :=
  ⟨⟨[104], schema⟩, name, valueColumn, ["value"]⟩

def columnTable (schema name : Bytes) : TableSchema :=
  ⟨⟨[104], schema⟩, name, valueColumn, ["value"]⟩

/-- Two schemas with a table of one name each, and in the first schema another table
and one whose name has a zero byte. -/
def fourTables : List CatalogOp :=
  [.createSchema [104] [97], .createSchema [104] [98], .createTable (oneColumn [97] [116]),
    .createTable (oneColumn [98] [116]), .createTable (oneColumn [97] [117]),
    .createTable (oneColumn [97] [116, 0, 117])]

theorem tableSchema_fourTables :
    (fourTables.foldl Catalog.exec .new).tableSchema ⟨[104], [97]⟩ [116] =
        some (columnTable [97] [116]) ∧
      (fourTables.foldl Catalog.exec .new).tableSchema ⟨[104], [98]⟩ [116] =
        some (columnTable [98] [116]) ∧
      (fourTables.foldl Catalog.exec .new).tableSchema ⟨[104], [97]⟩ [117] =
        some (columnTable [97] [117]) ∧
      (fourTables.foldl Catalog.exec .new).tableSchema ⟨[104], [97]⟩ [116, 0, 117] =
        some (columnTable [97] [116, 0, 117]) := by
  decide

theorem tables_isolated_iff_fourTables :
    Isolated (.withEngine (columnTable [98] [116])) (.withEngine (columnTable [97] [117])) :=
  (tables_isolated_iff fourTables tableSchema_fourTables.2.1 tableSchema_fourTables.2.2.1).mpr
    ⟨by decide, by decide, by decide⟩

def ingested (schema name : Bytes) : SchemaStore ℕ :=
  SchemaStore.exec ⟨.initial, ∅⟩ (.withEngine (columnTable schema name)) 1
    (.ingest (LoggedEngine.byteSchema true) [([[1]], [2])])

def scanned (db : SchemaStore ℕ) (schema name : Bytes) :
    Except EngineError (List (List (List (List ℕ)))) :=
  db.scan (.withEngine (columnTable schema name)) .exact (fun _ ↦ none)
    (some (LoggedEngine.byteSchema true)) 100 none

/-- What is done through the table of the same name in another schema shows in a scan:
rows that come in, an update, a delete and a drop.  So do rows of a table whose name
goes on behind a zero byte. -/
theorem statements_seen_through_other :
    (∀ table ∈ [columnTable [97] [116], columnTable [98] [116], columnTable [97] [116, 0, 117]],
      (fourTables.foldl Catalog.exec .new).tableSchema table.qualified table.name = some table) ∧
    scanned ⟨.initial, ∅⟩ [98] [116] = .ok [[[]]] ∧
    (∀ name ∈ [[116], [116, 0, 117]], scanned (ingested [97] name) [98] [116] = .ok [[[[3]]]]) ∧
    scanned (ingested [98] [116]) [98] [116] = .ok [[[[3]]]] ∧
    ∀ entry ∈ [(.update [([[1]], [8])], [[[[9]]]]), (.delete [[[1]]], [[[]]]),
        (.dropTablePrefix, [[[]]])],
      scanned ((ingested [98] [116]).exec (.withEngine (columnTable [97] [116])) 2 entry.1)
        [98] [116] = .ok entry.2 := by
  refine ⟨by decide, by decide, by decide, by decide, ?_⟩
  decide +kernel

end Frontend

end HatP
