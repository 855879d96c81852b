import HatP.Lib.Fallible
import HatP.Tables.Predicate

/-!
# Table scans

A scan of a table returns partitions.  The memtable and the files of level 0 are
merged by key into the first; every file of the deeper levels is a partition of
its own, read from its columns without a merge.  The deeper levels are walked
from level 1 to the first that has no file.
-/

namespace HatP

open Fallible
open Std (ExtTreeMap)

/-! ## The scan -/

/-- The memtable's range from the table prefix on, checked once more key by key. -/
def MemTable.scanPrefixVersions (table : MemTable) (tablePrefix : Bytes) (snapshot : ℕ) :
    List VersionedRow :=
  table.toList.filterMap fun entry ↦
    if inPrefixRange tablePrefix entry.1 && tablePrefix.isPrefixOf entry.1 then
      (entry.2.get snapshot).map (VersionedRow.mk entry.1)
    else none

/-- Slices of at most `batchSize` elements; each takes one unit of fuel. -/
def slices {α : Type*} (batchSize : ℕ) : ℕ → List α → List (List α)
  | 0, _ => []
  | _ + 1, [] => []
  | fuel + 1, row :: rows =>
    (row :: rows).take batchSize :: slices batchSize fuel ((row :: rows).drop batchSize)

def sliceBatches {α : Type*} (batchSize : ℕ+) (rows : List α) : List (List α) :=
  slices batchSize rows.length rows

namespace TableSchema

variable {σ : Type*} (schema : TableSchema σ)

def recordBatch (rows : List (List σ)) : Except EngineError (List (List σ)) :=
  if schema.fields.isEmpty then
    .error (.corruptMessage
      "Invalid argument error: must either specify a row count or at least one column")
  else
    match schema.fields.zipIdx.find? fun (field, col) ↦
        !field.nullable && rows.any fun row ↦ row[col]?.any schema.isNull with
    | some (field, _) =>
      .error (.corruptMessage ("Invalid argument error: Column '" ++ field.name ++
        "' is declared as non-nullable but contains null values"))
    | none => .ok rows

def rowsToBatches (batchSize : ℕ+) (visible : ExtTreeMap Bytes VersionedValue) :
    Except EngineError (List (List (List σ))) :=
  let rows := visible.toList.filterMap fun entry ↦ entry.2.value.map schema.decode
  if schema.fields.isEmpty || rows.isEmpty then .ok [[]]
  else (sliceBatches batchSize rows).mapM schema.recordBatch

def mergedPartition (batchSize : ℕ+) (visible : ExtTreeMap Bytes VersionedValue) :
    Except EngineError (List (List (List (List σ)))) :=
  if visible.isEmpty then .ok []
  else (schema.rowsToBatches batchSize visible).map fun batches ↦ [batches]

/-- The columns that a file has for a version; a tombstone has nulls. -/
def businessColumns (version : VersionedValue) : List σ :=
  match version.value with
  | some payload => schema.decode payload
  | none => List.replicate schema.fields.length schema.null

end TableSchema

/-- Partitions of files without rows are left out, and there is at least one. -/
def shownPartitions {α : Type*} (merged results : List (List (List α))) : List (List (List α)) :=
  let partitions := merged ++ results.filter fun batches ↦ batches.any (!·.isEmpty)
  if partitions.isEmpty then [[[]]] else partitions

/-- The predicates that the merged partition gets: those of a registered schema. -/
def namedPredicates {σ : Type*} (registered : Option (TableSchema σ))
    (predicates : Option (List (ColumnPredicate σ))) :
    Option (List (String × ColumnPredicate σ)) :=
  predicates.bind fun preds ↦ registered.map (predicatesWithFields preds)

section Definitions

variable {σ : Type*} [PartialOrder σ] [DecidableEq σ] [DecidableLT σ] [DecidableLE σ]

def VortexScan.scanToArrowBatches (vortex : VortexScan σ) (schema : TableSchema σ)
    (rows : List VersionedRow) (lower upper : Bytes) (snapshot : ℕ)
    (predicates : List (ColumnPredicate σ)) (batchSize : ℕ+) :
    Except EngineError (List (List (List σ))) :=
  let read := vortex.scan schema (scanRows rows lower upper snapshot) predicates
  if read.isEmpty then .ok [[]]
  else (sliceBatches batchSize (read.map fun row ↦ schema.businessColumns row.version)).mapM
    schema.recordBatch

/-- The files from `level` on, up to the first level without files. -/
def VersionSet.filesFrom (vs : VersionSet) : ℕ → ℕ → List ℕ
  | 0, _ => []
  | fuel + 1, level =>
    if (vs.files level).isEmpty then [] else vs.files level ++ vs.filesFrom fuel (level + 1)

namespace Engine

/-- The files that become partitions; a walk past the number of levels meets an
empty one. -/
def partitionFiles (e : Engine) : List ℕ :=
  e.versionSet.filesFrom (e.versionSet.levels.size + 1) 1

def mergedVisible (e : Engine) (vortex : VortexScan σ) (stats : ℕ → Option (TableColumnStats σ))
    (schema : TableSchema σ) (table : Bytes)
    (predicates : Option (List (String × ColumnPredicate σ))) :
    ExtTreeMap Bytes VersionedValue :=
  let lower := tablePrefix table
  let upper := prefixUpperExclusive lower
  let inMemory := (e.memtable.scanPrefixVersions lower e.snapshotTs).foldl insertNewest ∅
  if e.isDroppedPrefix lower then inMemory
  else (e.versionSet.files 0).foldl (fun visible fileId ↦
    if predicates.any (skipFileByColumnStats (stats fileId)) then visible
    else e.insertRows visible (vortex.scanWithFilter schema (e.rowsOf fileId) lower upper
      e.snapshotTs (predicates.getD []))) inMemory

def scannedFiles (e : Engine) (stats : ℕ → Option (TableColumnStats σ)) (schema : TableSchema σ)
    (table : Bytes) (predicates : List (ColumnPredicate σ)) : List ℕ :=
  if e.isDroppedPrefix (tablePrefix table) then []
  else e.partitionFiles.filter fun fileId ↦ predicates.isEmpty ||
    !skipFileByColumnStats (stats fileId) (predicatesWithFields predicates schema)

/-- `scan_table_arrow` at the current snapshot.  A partition is a list of batches
and a batch a list of rows. -/
def scanTableArrow (e : Engine) (vortex : VortexScan σ) (stats : ℕ → Option (TableColumnStats σ))
    (registered fallback : Option (TableSchema σ)) (table : Bytes) (batchSize : ℕ+)
    (predicates : Option (List (ColumnPredicate σ))) :
    Except EngineError (List (List (List (List σ)))) :=
  match registered.or fallback with
  | none => .error (.corruptMessage ("scan_table_arrow: no schema for `" ++
      (String.fromUTF8? ⟨table.toArray⟩).getD "" ++ "` and no fallback"))
  | some schema => do
    let merged ← schema.mergedPartition batchSize
      (e.mergedVisible vortex stats schema table (namedPredicates registered predicates))
    let preds := predicates.getD []
    let results ← (e.scannedFiles stats schema table preds).mapM fun fileId ↦
      vortex.scanToArrowBatches schema (e.rowsOf fileId) (tablePrefix table)
        (prefixUpperExclusive (tablePrefix table)) e.snapshotTs preds batchSize
    return shownPartitions merged results

def scanTable (e : Engine) (vortex : VortexScan σ) (stats : ℕ → Option (TableColumnStats σ))
    (registered fallback : Option (TableSchema σ)) (table : Bytes) :
    Except EngineError (List (List (List σ))) :=
  (e.scanTableArrow vortex stats registered fallback table ⟨2 ^ 64 - 1, by decide⟩ none).map
    List.flatten

end Engine

end Definitions

/-! ## Batches -/

variable {α : Type*}

theorem flatten_slices {batchSize : ℕ} (hpos : 0 < batchSize) {fuel : ℕ}
    {rows : List α} (hfuel : rows.length ≤ fuel) : (slices batchSize fuel rows).flatten = rows := by
  induction fuel generalizing rows with
  | zero => exact (List.eq_nil_of_length_eq_zero (Nat.le_zero.mp hfuel)).symm
  | succ fuel ih =>
    cases rows with
    | nil => rfl
    | cons row rows =>
      have hrest : ((row :: rows).drop batchSize).length ≤ fuel := by
        rw [List.length_drop]
        omega
      rw [slices, List.flatten_cons, ih hrest, List.take_append_drop]

theorem flatten_sliceBatches (batchSize : ℕ+) (rows : List α) :
    (sliceBatches batchSize rows).flatten = rows :=
  flatten_slices batchSize.pos le_rfl

namespace TableSchema

variable {σ : Type*} {schema : TableSchema σ}

/-- The row has null only where the field allows it. -/
def Fits (schema : TableSchema σ) (row : List σ) : Prop :=
  ∀ (col : ℕ) (field : Field) (scalar : σ), schema.fields[col]? = some field →
    row[col]? = some scalar → schema.isNull scalar = true → field.nullable = true

theorem fits_decode (schema : TableSchema σ) (payload : Bytes) :
    schema.Fits (schema.decode payload) :=
  fun _ _ _ hfield hscalar hnull ↦ schema.decode_nulls hfield hscalar hnull

theorem recordBatch_eq_ok_iff {rows rows' : List (List σ)} :
    schema.recordBatch rows = .ok rows' ↔
      rows' = rows ∧ schema.fields ≠ [] ∧ ∀ row ∈ rows, schema.Fits row := by
  rw [recordBatch]
  split
  next hempty =>
    rw [List.isEmpty_iff] at hempty
    exact ⟨fun h ↦ (nomatch h), fun h ↦ absurd hempty h.2.1⟩
  next hempty =>
    rw [List.isEmpty_iff] at hempty
    split
    next field col hfind =>
      refine ⟨fun h ↦ (nomatch h), fun ⟨_, _, hfits⟩ ↦ ?_⟩
      have hbad := List.find?_some hfind
      simp only [Bool.and_eq_true, Bool.not_eq_true', List.any_eq_true, Option.any_eq_true] at hbad
      obtain ⟨hnullable, row, hrow, scalar, hscalar, hnull⟩ := hbad
      have hfield := List.mem_zipIdx_iff_getElem?.mp (List.mem_of_find?_eq_some hfind)
      rw [hfits row hrow col field scalar hfield hscalar hnull] at hnullable
      cases hnullable
    next hnone =>
      refine ⟨fun h ↦ ⟨(Except.ok.inj h).symm, hempty, fun row hrow col field scalar hfield hscalar
        hnull ↦ ?_⟩, fun h ↦ by rw [h.1]⟩
      have hgood := List.find?_eq_none.mp hnone (field, col)
        (List.mem_zipIdx_iff_getElem?.mpr hfield)
      by_contra hnullable
      refine hgood ?_
      simp only [Bool.and_eq_true, Bool.not_eq_true', List.any_eq_true, Option.any_eq_true]
      exact ⟨by simpa using hnullable, row, hrow, scalar, hscalar, hnull⟩

theorem mapM_recordBatch_eq_ok_iff {batches batches' : List (List (List σ))} :
    batches.mapM schema.recordBatch = .ok batches' ↔ batches' = batches ∧
      ∀ batch ∈ batches, schema.fields ≠ [] ∧ ∀ row ∈ batch, schema.Fits row := by
  rw [mapM_eq_ok_iff]
  simp only [recordBatch_eq_ok_iff]
  induction batches generalizing batches' with
  | nil =>
    rw [List.forall₂_nil_left_iff]
    exact ⟨fun h ↦ ⟨h, fun _ hmem ↦ by cases hmem⟩, And.left⟩
  | cons batch batches ih =>
    rw [List.forall₂_cons_left_iff, List.forall_mem_cons]
    constructor
    · rintro ⟨_, rest, ⟨rfl, hbatch⟩, hrest, rfl⟩
      obtain ⟨rfl, hbatches⟩ := ih.mp hrest
      exact ⟨rfl, hbatch, hbatches⟩
    · rintro ⟨rfl, hbatch, hbatches⟩
      exact ⟨batch, batches, ⟨rfl, hbatch⟩, ih.mpr ⟨rfl, hbatches⟩, rfl⟩

def liveRows (schema : TableSchema σ) (visible : ExtTreeMap Bytes VersionedValue) : List (List σ) :=
  if schema.fields = [] then []
  else visible.toList.filterMap fun entry ↦ entry.2.value.map schema.decode

theorem exists_rowsToBatches (schema : TableSchema σ) (batchSize : ℕ+)
    (visible : ExtTreeMap Bytes VersionedValue) :
    ∃ batches, schema.rowsToBatches batchSize visible = .ok batches ∧
      batches.flatten = schema.liveRows visible := by
  set rows := visible.toList.filterMap fun entry ↦ entry.2.value.map schema.decode with hrows
  by_cases hnone : schema.fields = [] ∨ rows = []
  · refine ⟨[[]], ?_, ?_⟩
    · rw [rowsToBatches, ← hrows, if_pos (by simpa using hnone)]
    · rw [liveRows, ← hrows]
      split
      · rfl
      next hfields => exact (hnone.resolve_left hfields).symm
  · rw [not_or] at hnone
    refine ⟨sliceBatches batchSize rows, ?_, ?_⟩
    · rw [rowsToBatches, ← hrows, if_neg (by simpa using hnone)]
      refine mapM_recordBatch_eq_ok_iff.mpr ⟨rfl, fun batch hbatch ↦ ⟨hnone.1, fun row hrow ↦ ?_⟩⟩
      have hmem : row ∈ rows := by
        rw [← flatten_sliceBatches batchSize rows]
        exact List.mem_flatten.mpr ⟨batch, hbatch, hrow⟩
      obtain ⟨entry, -, hsome⟩ := List.mem_filterMap.mp (hrows ▸ hmem)
      obtain ⟨payload, -, rfl⟩ := Option.map_eq_some_iff.mp hsome
      exact schema.fits_decode payload
    · rw [flatten_sliceBatches, liveRows, if_neg hnone.1]

theorem exists_mergedPartition (schema : TableSchema σ) (batchSize : ℕ+)
    (visible : ExtTreeMap Bytes VersionedValue) :
    ∃ merged, schema.mergedPartition batchSize visible = .ok merged ∧
      merged.flatten.flatten = schema.liveRows visible := by
  rw [mergedPartition]
  by_cases hempty : visible.isEmpty
  · refine ⟨[], if_pos hempty, ?_⟩
    rw [ExtTreeMap.isEmpty_iff.mp hempty, liveRows]
    split <;> rfl
  · obtain ⟨batches, hok, hflatten⟩ := schema.exists_rowsToBatches batchSize visible
    rw [if_neg hempty, hok]
    exact ⟨[batches], rfl, by rw [List.flatten_singleton, hflatten]⟩

end TableSchema

theorem flatten_shownPartitions (merged results : List (List (List α))) :
    (shownPartitions merged results).flatten.flatten =
      merged.flatten.flatten ++ results.flatten.flatten := by
  have hfilter : (results.filter fun batches ↦ batches.any (!·.isEmpty)).flatten.flatten =
      results.flatten.flatten := by
    induction results with
    | nil => rfl
    | cons batches results ih =>
      rw [List.filter_cons]
      split
      next =>
        rw [List.flatten_cons, List.flatten_append, ih, List.flatten_cons, List.flatten_append]
      next hnone =>
        have hnil : batches.flatten = [] := by simpa using hnone
        rw [ih, List.flatten_cons, List.flatten_append, hnil, List.nil_append]
  rw [← hfilter, ← List.flatten_append, ← List.flatten_append, shownPartitions]
  split
  next hempty => rw [List.isEmpty_iff.mp hempty]; rfl
  next => rfl

section Scan

variable {σ : Type*} [PartialOrder σ] [DecidableEq σ] [DecidableLT σ] [DecidableLE σ]
  {vortex : VortexScan σ} {schema : TableSchema σ} {rows : List VersionedRow}
  {predicates : List (ColumnPredicate σ)} {batches : List (List (List σ))}

/-- The scan of a file fails when a row has a null where no null may be. -/
theorem VortexScan.scanToArrowBatches_eq_ok_iff {lower upper : Bytes} {s : ℕ} {batchSize : ℕ+} :
    vortex.scanToArrowBatches schema rows lower upper s predicates batchSize = .ok batches ↔
      let read := vortex.scan schema (scanRows rows lower upper s) predicates
      let decoded := read.map fun row ↦ schema.businessColumns row.version
      batches = (if read = [] then [[]] else sliceBatches batchSize decoded) ∧
        ∀ row ∈ decoded, schema.fields ≠ [] ∧ schema.Fits row := by
  rw [scanToArrowBatches]
  dsimp only
  set read := vortex.scan schema (scanRows rows lower upper s) predicates
  set decoded := read.map fun row ↦ schema.businessColumns row.version with hdecoded
  by_cases hread : read = []
  · have hnil : decoded = [] := by rw [hdecoded, hread, List.map_nil]
    rw [if_pos (by simpa using hread), if_pos hread, hnil]
    exact ⟨fun h ↦ ⟨(Except.ok.inj h).symm, fun _ hmem ↦ by cases hmem⟩,
      fun h ↦ by rw [h.1]⟩
  · rw [if_neg (by simpa using hread), if_neg hread, TableSchema.mapM_recordBatch_eq_ok_iff]
    refine and_congr_right fun _ ↦ ⟨fun h row hrow ↦ ?_, fun h batch hbatch ↦ ?_⟩
    · rw [← flatten_sliceBatches batchSize decoded] at hrow
      obtain ⟨batch, hbatch, hmem⟩ := List.mem_flatten.mp hrow
      exact ⟨(h batch hbatch).1, (h batch hbatch).2 row hmem⟩
    · have hsub : ∀ row ∈ batch, row ∈ decoded := fun row hrow ↦ by
        rw [← flatten_sliceBatches batchSize decoded]
        exact List.mem_flatten.mpr ⟨batch, hbatch, hrow⟩
      obtain ⟨row, hrow⟩ := List.exists_mem_of_ne_nil _ hread
      exact ⟨(h _ (List.mem_map_of_mem hrow)).1, fun row hrow ↦ (h row (hsub row hrow)).2⟩

theorem VortexScan.flatten_scanToArrowBatches {lower upper : Bytes} {s : ℕ} {batchSize : ℕ+}
    (h : vortex.scanToArrowBatches schema rows lower upper s predicates batchSize = .ok batches) :
    batches.flatten = (vortex.scan schema (scanRows rows lower upper s) predicates).map
      fun row ↦ schema.businessColumns row.version := by
  rw [(scanToArrowBatches_eq_ok_iff.mp h).1]
  split
  next hread => rw [hread]; rfl
  next => exact flatten_sliceBatches batchSize _

namespace Engine

variable {e : Engine} {vortex : VortexScan σ} {stats : ℕ → Option (TableColumnStats σ)}
  {registered fallback : Option (TableSchema σ)} {schema : TableSchema σ} {table : Bytes}
  {batchSize : ℕ+} {predicates : Option (List (ColumnPredicate σ))}
  {partitions : List (List (List (List σ)))}

abbrev fileRows (e : Engine) (table : Bytes) (fileId : ℕ) : List VersionedRow :=
  scanRows (e.rowsOf fileId) (tablePrefix table) (prefixUpperExclusive (tablePrefix table))
    e.snapshotTs

abbrev fileScan (e : Engine) (vortex : VortexScan σ) (schema : TableSchema σ) (table : Bytes)
    (predicates : List (String × ColumnPredicate σ)) (fileId : ℕ) : List VersionedRow :=
  vortex.scanWithFilter schema (e.rowsOf fileId) (tablePrefix table)
    (prefixUpperExclusive (tablePrefix table)) e.snapshotTs predicates

abbrev fileBatches (e : Engine) (vortex : VortexScan σ) (schema : TableSchema σ) (table : Bytes)
    (predicates : List (ColumnPredicate σ)) (batchSize : ℕ+) (fileId : ℕ) :
    Except EngineError (List (List (List σ))) :=
  vortex.scanToArrowBatches schema (e.rowsOf fileId) (tablePrefix table)
    (prefixUpperExclusive (tablePrefix table)) e.snapshotTs predicates batchSize

def partitionRows (e : Engine) (vortex : VortexScan σ) (schema : TableSchema σ) (table : Bytes)
    (predicates : List (ColumnPredicate σ)) (fileId : ℕ) : List VersionedRow :=
  vortex.scan schema (e.fileRows table fileId) predicates

theorem scanTableArrow_eq (e : Engine) (vortex : VortexScan σ)
    (stats : ℕ → Option (TableColumnStats σ)) (hschema : registered.or fallback = some schema)
    (table : Bytes) (batchSize : ℕ+) (predicates : Option (List (ColumnPredicate σ))) :
    ∃ merged : List (List (List (List σ))),
      merged.flatten.flatten = schema.liveRows
        (e.mergedVisible vortex stats schema table (namedPredicates registered predicates)) ∧
      e.scanTableArrow vortex stats registered fallback table batchSize predicates =
        ((e.scannedFiles stats schema table (predicates.getD [])).mapM fun fileId ↦
          e.fileBatches vortex schema table (predicates.getD []) batchSize fileId).map
            (shownPartitions merged) := by
  obtain ⟨merged, hok, hflatten⟩ := schema.exists_mergedPartition batchSize
    (e.mergedVisible vortex stats schema table (namedPredicates registered predicates))
  refine ⟨merged, hflatten, ?_⟩
  rw [scanTableArrow, hschema]
  dsimp only
  rw [hok]
  rfl

theorem flatten_results {files : List ℕ} {preds : List (ColumnPredicate σ)}
    {results : List (List (List (List σ)))}
    (h : List.Forall₂ (fun fileId batches ↦
      e.fileBatches vortex schema table preds batchSize fileId = .ok batches) files results) :
    results.flatten.flatten = files.flatMap fun fileId ↦
      (e.partitionRows vortex schema table preds fileId).map fun row ↦
        schema.businessColumns row.version := by
  induction h with
  | nil => rfl
  | cons hfile _ ih =>
    rw [List.flatten_cons, List.flatten_append, ih, List.flatMap_cons,
      VortexScan.flatten_scanToArrowBatches hfile]
    rfl

theorem rows_of_scanTableArrow (hschema : registered.or fallback = some schema)
    (h : e.scanTableArrow vortex stats registered fallback table batchSize predicates =
      .ok partitions) :
    partitions.flatten.flatten = schema.liveRows (e.mergedVisible vortex stats schema table
        (namedPredicates registered predicates)) ++
      (e.scannedFiles stats schema table (predicates.getD [])).flatMap fun fileId ↦
        (e.partitionRows vortex schema table (predicates.getD []) fileId).map fun row ↦
          schema.businessColumns row.version := by
  obtain ⟨merged, hflatten, heq⟩ :=
    e.scanTableArrow_eq vortex stats hschema table batchSize predicates
  rw [heq] at h
  obtain ⟨results, hresults, rfl⟩ := map_eq_ok_iff.mp h
  rw [flatten_shownPartitions, hflatten, flatten_results (mapM_eq_ok_iff.mp hresults)]

/-- A table scan fails exactly when some file has a null that its field forbids. -/
theorem exists_scanTableArrow_iff (hschema : registered.or fallback = some schema) :
    (∃ partitions, e.scanTableArrow vortex stats registered fallback table batchSize predicates =
        .ok partitions) ↔
      ∀ i ∈ e.scannedFiles stats schema table (predicates.getD []),
        ∀ row ∈ e.partitionRows vortex schema table (predicates.getD []) i,
          schema.fields ≠ [] ∧ schema.Fits (schema.businessColumns row.version) := by
  obtain ⟨merged, -, heq⟩ := e.scanTableArrow_eq vortex stats hschema table batchSize predicates
  have hresults : (∃ partitions, e.scanTableArrow vortex stats registered fallback table batchSize
      predicates = .ok partitions) ↔ ∀ i ∈ e.scannedFiles stats schema table (predicates.getD []),
        ∃ batches,
          e.fileBatches vortex schema table (predicates.getD []) batchSize i = .ok batches := by
    simp only [heq, map_eq_ok_iff, ← exists_mapM_eq_ok_iff]
    exact ⟨fun ⟨_, results, hresults, _⟩ ↦ ⟨results, hresults⟩,
      fun ⟨results, hresults⟩ ↦ ⟨_, results, hresults, rfl⟩⟩
  rw [hresults]
  refine forall₂_congr fun i _ ↦ ?_
  simp only [VortexScan.scanToArrowBatches_eq_ok_iff, exists_and_right, exists_eq, true_and,
    List.forall_mem_map, partitionRows]

end Engine

end Scan

/-! ## Which files become partitions -/

namespace VersionSet

variable {vs : VersionSet} {i : ℕ} {level : ℕ}

theorem mem_filesFrom {fuel : ℕ} :
    i ∈ vs.filesFrom fuel level ↔
      ∃ n < fuel, i ∈ vs.files (level + n) ∧ ∀ m ≤ n, vs.files (level + m) ≠ [] := by
  induction fuel generalizing level with
  | zero =>
    exact ⟨fun h ↦ (by cases h), fun ⟨n, hn, _⟩ ↦ absurd hn (Nat.not_lt_zero n)⟩
  | succ fuel ih =>
    rw [filesFrom]
    split
    next hempty =>
      refine ⟨fun h ↦ (by cases h), fun ⟨n, _, _, hfull⟩ ↦ ?_⟩
      exact absurd (List.isEmpty_iff.mp hempty) (hfull 0 (Nat.zero_le n))
    next hfull =>
      rw [List.mem_append, ih]
      constructor
      · rintro (hi | ⟨n, hn, hi, hrest⟩)
        · refine ⟨0, Nat.succ_pos fuel, hi, fun m hm ↦ ?_⟩
          rw [Nat.le_zero.mp hm]
          exact List.ne_nil_of_mem hi
        · refine ⟨n + 1, Nat.succ_lt_succ hn, by rwa [← add_assoc, add_right_comm], fun m hm ↦ ?_⟩
          cases m with
          | zero => exact fun h ↦ hfull (List.isEmpty_iff.mpr h)
          | succ m =>
            rw [← add_assoc, add_right_comm]
            exact hrest m (Nat.le_of_succ_le_succ hm)
      · rintro ⟨n, hn, hi, hrest⟩
        cases n with
        | zero => exact .inl hi
        | succ n =>
          refine .inr ⟨n, Nat.lt_of_succ_lt_succ hn, ?_, fun m hm ↦ ?_⟩
          · rwa [add_right_comm, add_assoc]
          · rw [add_right_comm, add_assoc]
            exact hrest (m + 1) (Nat.succ_le_succ hm)

theorem mem_levels_of_files_ne_nil (h : vs.files level ≠ []) : level ∈ vs.levels := by
  rw [ExtTreeMap.mem_iff_isSome_getElem?]
  cases hlevel : vs.levels[level]? with
  | none =>
    refine absurd ?_ h
    rw [files, hlevel]
    rfl
  | some _ => rfl

theorem le_size_of_files_ne_nil {n : ℕ} (h : ∀ m < n, vs.files (level + m) ≠ []) :
    n ≤ vs.levels.size := by
  have hsubset : List.range' level n ⊆ vs.levels.keys := fun l hl ↦ by
    obtain ⟨m, hm, rfl⟩ := List.mem_range'.mp hl
    rw [one_mul]
    exact ExtTreeMap.mem_keys.mpr (mem_levels_of_files_ne_nil (h m hm))
  have hlength := ((List.nodup_range' 1).subperm hsubset).length_le
  rwa [List.length_range', ExtTreeMap.length_keys] at hlength

theorem WellFormed.nodup_filesFrom (h : vs.WellFormed) (fuel level : ℕ) :
    (vs.filesFrom fuel level).Nodup := by
  induction fuel generalizing level with
  | zero => exact List.nodup_nil
  | succ fuel ih =>
    rw [filesFrom]
    split
    · exact List.nodup_nil
    · refine List.nodup_append'.mpr ⟨vs.nodup_files level, ih (level + 1), fun i hi hrest ↦ ?_⟩
      obtain ⟨n, -, hn, -⟩ := mem_filesFrom.mp hrest
      have hlevel := h.level_unique hi hn
      omega

end VersionSet

namespace Engine

variable {e : Engine} {i : ℕ}

theorem mem_partitionFiles :
    i ∈ e.partitionFiles ↔ ∃ level, 1 ≤ level ∧ i ∈ e.versionSet.files level ∧
      ∀ l, 1 ≤ l → l ≤ level → e.versionSet.files l ≠ [] := by
  rw [partitionFiles, VersionSet.mem_filesFrom]
  constructor
  · rintro ⟨n, -, hi, hfull⟩
    refine ⟨1 + n, Nat.le_add_right 1 n, hi, fun l hl hle ↦ ?_⟩
    obtain ⟨m, rfl⟩ := Nat.exists_eq_add_of_le hl
    exact hfull m (Nat.le_of_add_le_add_left hle)
  · rintro ⟨level, hlevel, hi, hfull⟩
    obtain ⟨n, rfl⟩ := Nat.exists_eq_add_of_le hlevel
    have hall : ∀ m ≤ n, e.versionSet.files (1 + m) ≠ [] := fun m hm ↦
      hfull (1 + m) (Nat.le_add_right 1 m) (Nat.add_le_add_left hm 1)
    have hsize : n + 1 ≤ e.versionSet.levels.size :=
      VersionSet.le_size_of_files_ne_nil fun m hm ↦ hall m (Nat.le_of_lt_succ hm)
    exact ⟨n, Nat.lt_succ_of_le (Nat.le_of_succ_le hsize), hi, hall⟩

theorem isLive_of_mem_partitionFiles (h : i ∈ e.partitionFiles) : e.IsLive i := by
  obtain ⟨level, -, hi, -⟩ := mem_partitionFiles.mp h
  exact ⟨level, hi⟩

end Engine

end HatP
