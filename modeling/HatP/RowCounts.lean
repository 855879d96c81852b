import HatP.Lib.Tally
import HatP.Tables.Store

/-!
# Row counts

The engine keeps the number of rows in the live files, in total and by table,
without reading the files again: a flush adds its rows, a compaction applies
signed differences that it has collected chunk by chunk, and only `open` counts
from scratch.  The counters are machine integers, so they are exact as long as
the number of stored rows is one.
-/

namespace HatP

open Engine Tally Transition
open Std (ExtTreeMap ExtTreeSet)

/-! ## Machine arithmetic -/

def asIsize (n : ℕ) : ℤ := Int.bmod n (2 ^ 64)

def isizeSub (a b : ℤ) : ℤ := Int.bmod (a - b) (2 ^ 64)

def isizeSaturatingAdd (a b : ℤ) : ℤ := max (-2 ^ 63) (min (a + b) (2 ^ 63 - 1))

theorem isizeSub_asIsize {a b : ℕ} (ha : a < 2 ^ 63) (hb : b < 2 ^ 63) :
    isizeSub (asIsize a) (asIsize b) = a - b := by
  have hcast : ∀ n : ℕ, n < 2 ^ 63 → asIsize n = n := fun n hn ↦
    Int.bmod_eq_of_le (by omega) (by omega)
  rw [hcast a ha, hcast b hb]
  exact Int.bmod_eq_of_le (by omega) (by omega)

theorem foldl_saturatingAdd (ns : List ℕ) (start : ℕ) (h : start + ns.sum < 2 ^ 64) :
    ns.foldl saturatingAdd start = start + ns.sum := by
  induction ns generalizing start with
  | nil => simp
  | cons n ns ih =>
    rw [List.sum_cons] at h ⊢
    have hfirst : saturatingAdd start n = start + n := by
      rw [saturatingAdd, maxU64]
      omega
    rw [List.foldl_cons, hfirst, ih _ (by omega), Nat.add_assoc]

/-! ## Counting by prefix -/

def addRowsByPrefix (counts : ExtTreeMap Bytes ℕ) (rows : List VersionedRow) : ExtTreeMap Bytes ℕ :=
  tallied (2 ^ 64 - 1) counts (rows.map fun row ↦ keyTablePrefix row.key)

def countRowsByPrefix (rows : List VersionedRow) : ExtTreeMap Bytes ℕ :=
  addRowsByPrefix ∅ rows

def prefixCountDelta (input output : ExtTreeMap Bytes ℕ) : ExtTreeMap Bytes ℤ :=
  let keys := ExtTreeSet.ofList (input.keys ++ output.keys)
  keys.toList.foldl (fun delta key ↦
    if isizeSub (asIsize (count output key)) (asIsize (count input key)) ≠ 0 then
      delta.insert key
        (isizeSub (asIsize (count output key)) (asIsize (count input key)))
    else delta) ∅

def mergeDelta (merged delta : ExtTreeMap Bytes ℤ) : ExtTreeMap Bytes ℤ :=
  delta.toList.foldl (fun merged entry ↦ merged.alter entry.1 fun change ↦
    some (isizeSaturatingAdd (change.getD 0) entry.2)) merged

def applyChange (change : ℤ) (entry : Option ℕ) : Option ℕ :=
  if 0 < change then some (saturatingAdd (entry.getD 0) change.toNat)
  else entry.bind fun count ↦
    if count - change.natAbs = 0 then none else some (count - change.natAbs)

def applyDelta (tableRows : ExtTreeMap Bytes ℕ) (delta : ExtTreeMap Bytes ℤ) : ExtTreeMap Bytes ℕ :=
  delta.toList.foldl (fun tableRows entry ↦
    tableRows.alter entry.1 (applyChange entry.2)) tableRows

def underPrefix (tablePrefix : Bytes) (rows : List VersionedRow) : ℕ :=
  (rows.map fun row ↦ keyTablePrefix row.key).count tablePrefix

@[simp] theorem underPrefix_append (p : Bytes) (rows rows' : List VersionedRow) :
    underPrefix p (rows ++ rows') = underPrefix p rows + underPrefix p rows' := by
  rw [underPrefix, List.map_append, List.count_append]
  rfl

theorem underPrefix_le_length (p : Bytes) (rows : List VersionedRow) :
    underPrefix p rows ≤ rows.length := by
  rw [← List.length_map fun row ↦ keyTablePrefix row.key]
  exact List.count_le_length

theorem perm_underPrefix {rows rows' : List VersionedRow} (h : rows.Perm rows') (p : Bytes) :
    underPrefix p rows = underPrefix p rows' :=
  (h.map _).count_eq p

@[simp] theorem underPrefix_readAll (p : Bytes) (rows : List VersionedRow) :
    underPrefix p (readAll rows) = underPrefix p rows := by
  rw [underPrefix, readAll, List.map_map]
  rfl

variable {counts : ExtTreeMap Bytes ℕ} {rows : List VersionedRow} {p : Bytes}

theorem count_addRowsByPrefix (h : count counts p + underPrefix p rows < 2 ^ 64) :
    count (addRowsByPrefix counts rows) p = count counts p + underPrefix p rows := by
  apply count_tallied
  rw [underPrefix] at h
  omega

theorem count_countRowsByPrefix (h : rows.length < 2 ^ 64) :
    count (countRowsByPrefix rows) p = underPrefix p rows := by
  have hle := underPrefix_le_length p rows
  rw [countRowsByPrefix, count_addRowsByPrefix, count_empty, Nat.zero_add]
  rw [count_empty]
  omega

theorem count_eq_zero_of_not_mem {tally : ExtTreeMap Bytes ℕ} (h : p ∉ tally) :
    count tally p = 0 := by
  rw [count, ExtTreeMap.getElem?_eq_none h, Option.getD_none]

theorem count_prefixCountDelta {input output : ExtTreeMap Bytes ℕ}
    (hin : count input p < 2 ^ 63) (hout : count output p < 2 ^ 63) :
    count (prefixCountDelta input output) p = ((count output p : ℕ) : ℤ) - (count input p : ℕ) := by
  rw [← isizeSub_asIsize hout hin]
  refine (count_foldl_insert_nonzero (fun key ↦ isizeSub (asIsize (count output key))
    (asIsize (count input key))) _ _ _).trans ?_
  rw [count_empty]
  split_ifs with h
  · rfl
  · by_contra hne
    apply h
    refine ⟨?_, Ne.symm hne⟩
    by_contra hnot
    rw [ExtTreeSet.mem_toList, ExtTreeSet.mem_ofList, List.contains_iff_mem,
      List.mem_append, ExtTreeMap.mem_keys, ExtTreeMap.mem_keys, not_or] at hnot
    rw [count_eq_zero_of_not_mem hnot.1, count_eq_zero_of_not_mem hnot.2] at hne
    exact hne rfl

theorem count_mergeDelta (merged delta : ExtTreeMap Bytes ℤ)
    (hlow : -2 ^ 63 ≤ count merged p + count delta p)
    (hhigh : count merged p + count delta p < 2 ^ 63) :
    count (mergeDelta merged delta) p = count merged p + count delta p := by
  have hkey := getElem?_foldl_toList
    (fun entry (change : Option ℤ) ↦ some (isizeSaturatingAdd (change.getD 0) entry)) delta
    merged p
  cases hdelta : delta[p]? with
  | none =>
    rw [hdelta] at hkey
    rw [count, mergeDelta, hkey, count, count, hdelta, Option.getD_none, add_zero]
  | some change =>
    have hcount : count delta p = change := by
      rw [count, hdelta, Option.getD_some]
    rw [hcount] at hlow hhigh ⊢
    rw [hdelta] at hkey
    rw [count, mergeDelta, hkey, Option.getD_some, ← count, isizeSaturatingAdd]
    omega

theorem getD_applyChange (change : ℤ) (entry : Option ℕ)
    (hlow : 0 ≤ (entry.getD 0 : ℤ) + change) (hhigh : (entry.getD 0 : ℤ) + change < 2 ^ 64) :
    (((applyChange change entry).getD 0 : ℕ) : ℤ) = entry.getD 0 + change := by
  rw [applyChange]
  split_ifs with hpos
  · rw [Option.getD_some, saturatingAdd, maxU64]
    omega
  · cases entry with
    | none =>
      rw [Option.getD_none] at hlow ⊢
      simp only [Option.bind_none, Option.getD_none]
      omega
    | some count =>
      rw [Option.getD_some] at hlow ⊢
      rw [Option.bind_some]
      split_ifs with hzero
      · rw [Option.getD_none]
        omega
      · rw [Option.getD_some]
        omega

theorem count_applyDelta (tableRows : ExtTreeMap Bytes ℕ) (delta : ExtTreeMap Bytes ℤ)
    (hlow : 0 ≤ ((count tableRows p : ℕ) : ℤ) + count delta p)
    (hhigh : ((count tableRows p : ℕ) : ℤ) + count delta p < 2 ^ 64) :
    ((count (applyDelta tableRows delta) p : ℕ) : ℤ) = (count tableRows p : ℕ) + count delta p := by
  have hkey := getElem?_foldl_toList applyChange delta tableRows p
  cases hdelta : delta[p]? with
  | none =>
    have hzero : count delta p = 0 := by
      rw [count, hdelta, Option.getD_none]
    rw [hdelta] at hkey
    rw [hzero, add_zero, count, applyDelta, hkey]
    rfl
  | some change =>
    have hcount : count delta p = change := by
      rw [count, hdelta, Option.getD_some]
    rw [hcount] at hlow hhigh ⊢
    rw [hdelta] at hkey
    rw [count, applyDelta, hkey]
    exact getD_applyChange change _ hlow hhigh

/-! ## The counters -/

structure RowCounters where
  sstRowCount : UInt64
  tableRows : ExtTreeMap Bytes ℕ

/-- What the merge of a chunk reports besides its file. -/
structure ChunkCounts where
  newRows : ℕ
  deletedRows : ℕ
  prefixDelta : ExtTreeMap Bytes ℤ

def Engine.chunkCounts (e : Engine) (chunk : List ℕ) (watermark : ℕ) : ChunkCounts :=
  let rows := chunk.flatMap fun input ↦ readAll (e.rowsOf input)
  let output := e.compactChunk chunk watermark
  { newRows := output.length
    deletedRows := (chunk.map fun input ↦ (readAll (e.rowsOf input)).length).foldl saturatingAdd 0
    prefixDelta := prefixCountDelta (countRowsByPrefix rows) (countRowsByPrefix output) }

namespace RowCounters

def flushed (c : RowCounters) (rows : List VersionedRow) : RowCounters where
  sstRowCount := c.sstRowCount + UInt64.ofNat rows.length
  tableRows := addRowsByPrefix c.tableRows rows

def commitCompaction (c : RowCounters) (newRows : List ℕ) (deletedRows : ℕ)
    (prefixDelta : ExtTreeMap Bytes ℤ) : RowCounters where
  sstRowCount := c.sstRowCount - UInt64.ofNat deletedRows + UInt64.ofNat newRows.sum
  tableRows := applyDelta c.tableRows prefixDelta

def commitChunks (c : RowCounters) (results : List ChunkCounts) : RowCounters :=
  c.commitCompaction (results.map ChunkCounts.newRows)
    ((results.map ChunkCounts.deletedRows).foldl saturatingAdd 0)
    ((results.map ChunkCounts.prefixDelta).foldl mergeDelta ∅)

def recovered (e : Engine) : RowCounters :=
  let files := (e.versionSet.entries.map Prod.fst).map fun fileId ↦ readAll (e.rowsOf fileId)
  { sstRowCount := UInt64.ofNat ((files.map List.length).foldl saturatingAdd 0)
    tableRows := files.foldl addRowsByPrefix ∅ }

end RowCounters

/-- An engine with its log and its counters. -/
structure CountedEngine where
  store : LoggedEngine
  counters : RowCounters

namespace CountedEngine

def initial : CountedEngine := ⟨.initial, 0, ∅⟩

def tableRowCount (st : CountedEngine) (table : Bytes) : ℕ :=
  count st.counters.tableRows (tablePrefix table)

def step (st : CountedEngine) : RestartOp → Option CountedEngine
  | .write txId mutations =>
    (st.store.step (.write txId mutations)).map fun store ↦ ⟨store, st.counters⟩
  | .flush env walMaxSizeBytes =>
    let rows := st.store.engine.memtable.drainInto
    some
      { store := st.store.flush env walMaxSizeBytes
        counters := if rows = [] then st.counters else st.counters.flushed rows }
  | .compact sourceLevel targetLevel watermark env =>
    let e := st.store.engine
    let inputs := e.compactionInputs sourceLevel targetLevel
    let counts := e.chunkCounts inputs watermark
    some
      { store :=
          { st.store with
            engine := e.compactWithWatermark sourceLevel targetLevel watermark env }
        counters := if inputs.length < 2 then st.counters
          else st.counters.commitCompaction [counts.newRows] counts.deletedRows
            counts.prefixDelta }
  | .subCompact sourceLevel targetLevel watermark env =>
    let e := st.store.engine
    let inputs := e.compactionInputs sourceLevel targetLevel
    let chunks := splitBySize inputs e.versionSet maxChunkBytes
    some
      { store :=
          { st.store with engine := e.subCompact sourceLevel targetLevel watermark env }
        counters := if inputs.length < 2 then st.counters
          else st.counters.commitChunks (chunks.map fun chunk ↦ e.chunkCounts chunk watermark) }
  | .reopen => st.store.reopen.toOption.map fun store ↦ ⟨store, .recovered st.store.engine⟩

theorem store_step {st t : CountedEngine} {op : RestartOp} (h : st.step op = some t) :
    st.store.step op = some t.store := by
  cases op with
  | write txId mutations | reopen =>
    obtain ⟨store, hstore, rfl⟩ := Option.map_eq_some_iff.mp h
    exact hstore
  | flush env walMaxSizeBytes | compact src tgt w env | subCompact src tgt w env =>
    cases h
    rfl

end CountedEngine

/-! ## Exact counters -/

namespace RowCounters

/-- The counters are those of `rows`. -/
structure Counts (c : RowCounters) (rows : List VersionedRow) : Prop where
  total : c.sstRowCount = UInt64.ofNat rows.length
  byPrefix : ∀ p, count c.tableRows p = underPrefix p rows

variable {c : RowCounters} {rows rows' kept ins outs : List VersionedRow}

theorem Counts.perm (h : c.Counts rows) (hperm : rows.Perm rows') : c.Counts rows' where
  total := hperm.length_eq ▸ h.total
  byPrefix p := (h.byPrefix p).trans (perm_underPrefix hperm p)

theorem Counts.flushed (h : c.Counts rows) {new : List VersionedRow}
    (hfits : (rows ++ new).length < 2 ^ 64) : (c.flushed new).Counts (rows ++ new) where
  total := by
    rw [RowCounters.flushed, h.total, List.length_append, UInt64.ofNat_add]
  byPrefix p := by
    have hle := underPrefix_le_length p (rows ++ new)
    rw [underPrefix_append] at hle ⊢
    rw [← h.byPrefix p] at hle ⊢
    exact count_addRowsByPrefix (by omega)

theorem Counts.commitCompaction (h : c.Counts (kept ++ ins)) {newRows : List ℕ}
    {deletedRows : ℕ} {delta : ExtTreeMap Bytes ℤ}
    (hfits : (kept ++ outs).length < 2 ^ 64) (hnew : newRows.sum = outs.length)
    (hdeleted : deletedRows = ins.length)
    (hdelta : ∀ p, count delta p = (underPrefix p outs : ℤ) - underPrefix p ins) :
    (c.commitCompaction newRows deletedRows delta).Counts (kept ++ outs) where
  total := by
    rw [RowCounters.commitCompaction, h.total, hnew, hdeleted, List.length_append,
      List.length_append, UInt64.ofNat_add, UInt64.ofNat_add, UInt64.add_sub_cancel]
  byPrefix p := by
    have hbefore := h.byPrefix p
    have hle := underPrefix_le_length p (kept ++ outs)
    rw [underPrefix_append] at hbefore hle ⊢
    have happly := count_applyDelta (p := p) c.tableRows delta
    rw [hdelta p, hbefore] at happly
    have hcount := happly (by omega) (by omega)
    change count (applyDelta c.tableRows delta) p = _
    omega

end RowCounters

/-! ## The rows of the live files -/

namespace Engine

variable {e : Engine} {src tgt w : ℕ} {chunks : List (List ℕ)} {env : ℕ → SstEnv}

def liveRows (e : Engine) : List VersionedRow := e.liveFiles.flatMap e.rowsOf

section

variable (hwf : e.versionSet.WellFormed)

include hwf

theorem nodup_liveFiles : e.liveFiles.Nodup := by
  have hperm : e.liveFiles.Perm (e.versionSet.entries.map Prod.fst) :=
    (List.perm_insertionSort _ _).map _
  refine hperm.nodup_iff.mpr (e.versionSet.nodup_entries.map_on ?_)
  rintro ⟨i, l⟩ hi ⟨j, l'⟩ hj rfl
  have hlevel := hwf.level_unique (VersionSet.mem_entries.mp hi) (VersionSet.mem_entries.mp hj)
  rw [hlevel]

theorem wellFormed_flush (env : SstEnv) : (e.flush env).versionSet.WellFormed := by
  by_cases hne : e.memtable.drainInto = []
  · rwa [flush_of_nil hne]
  · rw [versionSet_flush hne]
    exact (hwf.addFile 0 _ fun l hl ↦ lt_irrefl _ (hwf.fresh hl)).nextFileId _

theorem perm_liveRows_flush (env : SstEnv) (hne : e.memtable.drainInto ≠ []) :
    (e.liveRows ++ e.memtable.drainInto).Perm (e.flush env).liveRows := by
  have hnew : e.versionSet.nextFileId ∉ e.liveFiles := by
    intro hmem
    obtain ⟨l, hl⟩ := mem_liveFiles.mp hmem
    exact lt_irrefl _ (hwf.fresh hl)
  have hfiles : (e.versionSet.nextFileId :: e.liveFiles).Perm (e.flush env).liveFiles := by
    refine (List.perm_ext_iff_of_nodup (List.nodup_cons.mpr ⟨hnew, nodup_liveFiles hwf⟩)
      (nodup_liveFiles (wellFormed_flush hwf env))).mpr fun i ↦ ?_
    rw [mem_liveFiles, isLive_flush hne, List.mem_cons, mem_liveFiles, or_comm]
  have hold : e.liveFiles.flatMap (e.flush env).rowsOf = e.liveRows :=
    List.flatMap_congr fun i hi ↦ rowsOf_flush_old hne fun heq ↦ hnew (heq ▸ hi)
  refine List.perm_append_comm.trans (.trans ?_ (hfiles.flatMap_right _))
  rw [List.flatMap_cons, rowsOf_flush_new hne, hold]

end

def keptFiles (e : Engine) (src tgt : ℕ) : List ℕ :=
  e.liveFiles.filter fun i ↦ i ∉ e.compactionInputs src tgt

theorem mem_keptFiles {i : ℕ} :
    i ∈ e.keptFiles src tgt ↔ e.IsLive i ∧ i ∉ e.compactionInputs src tgt := by
  rw [keptFiles, List.mem_filter, mem_liveFiles, decide_eq_true_eq]

theorem isLive_of_mem_compactionInputs {i : ℕ} (h : i ∈ e.compactionInputs src tgt) :
    e.IsLive i := by
  rcases mem_compactionInputs.mp h with h | h
  · exact ⟨src, h⟩
  · exact ⟨tgt, h⟩

section Compaction

variable (hwf : e.versionSet.WellFormed)

include hwf

theorem perm_liveFiles_inputs (src tgt : ℕ) :
    e.liveFiles.Perm (e.keptFiles src tgt ++ e.compactionInputs src tgt) := by
  refine (List.perm_ext_iff_of_nodup (nodup_liveFiles hwf) ?_).mpr fun i ↦ ?_
  · refine List.nodup_append'.mpr
      ⟨(nodup_liveFiles hwf).filter _, nodup_compactionInputs src tgt, ?_⟩
    intro i hkept hinput
    exact (mem_keptFiles.mp hkept).2 hinput
  · rw [List.mem_append, mem_keptFiles, mem_liveFiles]
    constructor
    · intro hi
      exact (em (i ∈ e.compactionInputs src tgt)).symm.imp_left fun hnot ↦ ⟨hi, hnot⟩
    · rintro (h | h)
      · exact h.1
      · exact isLive_of_mem_compactionInputs h

theorem perm_liveFiles_compactChunks :
    (e.keptFiles src tgt ++ (e.chunkOutputs w chunks env).map Output.fileId).Perm
      (e.merged src tgt w chunks env).liveFiles := by
  have hwf' : (e.merged src tgt w chunks env).versionSet.WellFormed :=
    wellFormed_compactChunks hwf fun i ↦ mem_compactionInputs.mp
  refine (List.perm_ext_iff_of_nodup ?_ (nodup_liveFiles hwf')).mpr fun i ↦ ?_
  · refine List.nodup_append'.mpr
      ⟨(nodup_liveFiles hwf).filter _, nodup_fileIds_chunkOutputs, ?_⟩
    intro i hkept houtput
    obtain ⟨o, ho, rfl⟩ := List.mem_map.mp houtput
    obtain ⟨l, hl⟩ := (mem_keptFiles.mp hkept).1
    exact output_not_mem_files hwf ho l hl
  · rw [mem_liveFiles, isLive_compactChunks hwf, List.mem_append, mem_keptFiles,
      fileIds_chunkOutputs, List.mem_map]
    simp only [List.mem_range, eq_comm]

theorem flatMap_rowsOf_outputs :
    ((e.chunkOutputs w chunks env).map Output.fileId).flatMap
        (e.merged src tgt w chunks env).rowsOf =
      chunks.flatMap fun chunk ↦ e.compactChunk chunk w := by
  have hrows : (e.chunkOutputs w chunks env).map Output.rows =
      chunks.map fun chunk ↦ e.compactChunk chunk w := by
    apply List.ext_getElem
    · simp [chunkOutputs]
    · intro n h₁ h₂
      simp [chunkOutputs]
  have houtputs : (e.chunkOutputs w chunks env).flatMap Output.rows =
      chunks.flatMap fun chunk ↦ e.compactChunk chunk w := by
    rw [List.flatMap_def, hrows, List.flatMap_def]
  rw [List.flatMap_map, ← houtputs]
  apply List.flatMap_congr
  intro o ho
  obtain ⟨index, chunk, hchunk, rfl⟩ := mem_chunkOutputs.mp ho
  exact rowsOf_output hwf hchunk

/-- A compaction replaces the rows of its inputs by those of its outputs. -/
theorem perm_liveRows_compactChunks :
    ((e.keptFiles src tgt).flatMap e.rowsOf ++
      chunks.flatMap fun chunk ↦ e.compactChunk chunk w).Perm
        (e.merged src tgt w chunks env).liveRows := by
  have hkept : (e.keptFiles src tgt).flatMap
      (e.merged src tgt w chunks env).rowsOf = (e.keptFiles src tgt).flatMap e.rowsOf := by
    apply List.flatMap_congr
    intro i hi
    obtain ⟨⟨l, hl⟩, hnot⟩ := mem_keptFiles.mp hi
    exact rowsOf_eq_of_ssts (ssts_compactChunks_kept hnot (hwf.fresh hl))
  have hfiles : (e.keptFiles src tgt ++ (e.chunkOutputs w chunks env).map Output.fileId).Perm
      (e.merged src tgt w chunks env).liveFiles := perm_liveFiles_compactChunks hwf
  have hrows := hfiles.flatMap_right
    (e.merged src tgt w chunks env).rowsOf
  rwa [List.flatMap_append, hkept, flatMap_rowsOf_outputs hwf] at hrows

end Compaction

/-! ## What a chunk reports -/

theorem flatMap_readAll (e : Engine) (chunk : List ℕ) :
    (chunk.flatMap fun i ↦ readAll (e.rowsOf i)) = readAll (chunk.flatMap e.rowsOf) :=
  List.map_flatMap.symm

theorem deletedRows_chunkCounts {chunk : List ℕ} (w : ℕ)
    (hin : (chunk.flatMap e.rowsOf).length < 2 ^ 63) :
    (e.chunkCounts chunk w).deletedRows = (chunk.flatMap e.rowsOf).length := by
  have hsum : (chunk.map fun i ↦ (readAll (e.rowsOf i)).length).sum =
      (chunk.flatMap e.rowsOf).length := by
    rw [List.length_flatMap]
    simp only [readAll, List.length_map]
  refine (foldl_saturatingAdd _ 0 ?_).trans ?_
  · rw [hsum]
    omega
  · rw [hsum, Nat.zero_add]

theorem count_chunkCounts {chunk : List ℕ} {w : ℕ} (hin : (chunk.flatMap e.rowsOf).length < 2 ^ 63)
    (hout : (e.compactChunk chunk w).length < 2 ^ 63) (p : Bytes) :
    count (e.chunkCounts chunk w).prefixDelta p =
      (underPrefix p (e.compactChunk chunk w) : ℤ) - underPrefix p (chunk.flatMap e.rowsOf) := by
  have hlength : (readAll (chunk.flatMap e.rowsOf)).length < 2 ^ 63 := by
    rwa [readAll, List.length_map]
  have hinput : count (countRowsByPrefix (chunk.flatMap fun i ↦ readAll (e.rowsOf i))) p =
      underPrefix p (chunk.flatMap e.rowsOf) := by
    rw [flatMap_readAll, count_countRowsByPrefix (by omega), underPrefix_readAll]
  have houtput : count (countRowsByPrefix (e.compactChunk chunk w)) p =
      underPrefix p (e.compactChunk chunk w) := count_countRowsByPrefix (by omega)
  have hinLe := underPrefix_le_length p (chunk.flatMap e.rowsOf)
  have houtLe := underPrefix_le_length p (e.compactChunk chunk w)
  refine (count_prefixCountDelta ?_ ?_).trans ?_
  · rw [hinput]
    omega
  · rw [houtput]
    omega
  · rw [hinput, houtput]

/-- The differences of the chunks add up.  The partial sums stay in range, being
differences of two numbers of rows. -/
theorem count_foldl_mergeDelta (w : ℕ) (chunks : List (List ℕ))
    (merged : ExtTreeMap Bytes ℤ) {p : Bytes} {a b : ℕ} (hmerged : count merged p = (b : ℤ) - a)
    (hin : a + (chunks.flatten.flatMap e.rowsOf).length < 2 ^ 63)
    (hout : b + (chunks.flatMap fun chunk ↦ e.compactChunk chunk w).length < 2 ^ 63) :
    count (((chunks.map fun chunk ↦ e.chunkCounts chunk w).map
        ChunkCounts.prefixDelta).foldl mergeDelta merged) p =
      ((b + underPrefix p (chunks.flatMap fun chunk ↦ e.compactChunk chunk w) : ℕ) : ℤ) -
        (a + underPrefix p (chunks.flatten.flatMap e.rowsOf) : ℕ) := by
  induction chunks generalizing merged a b with
  | nil => simpa [underPrefix] using hmerged
  | cons chunk chunks ih =>
    rw [List.flatten_cons, List.flatMap_append, List.length_append] at hin
    rw [List.flatMap_cons, List.length_append] at hout
    have hchunk : count (e.chunkCounts chunk w).prefixDelta p =
        (underPrefix p (e.compactChunk chunk w) : ℤ) -
          underPrefix p (chunk.flatMap e.rowsOf) :=
      count_chunkCounts (by omega) (by omega) p
    have hinLe := underPrefix_le_length p (chunk.flatMap e.rowsOf)
    have houtLe := underPrefix_le_length p (e.compactChunk chunk w)
    have hstep := count_mergeDelta (p := p) merged (e.chunkCounts chunk w).prefixDelta
    rw [hmerged, hchunk] at hstep
    have hnext := ih (mergeDelta merged (e.chunkCounts chunk w).prefixDelta)
      (a := a + underPrefix p (chunk.flatMap e.rowsOf))
      (b := b + underPrefix p (e.compactChunk chunk w))
      (by rw [hstep (by omega) (by omega)]; push_cast; ring) (by omega) (by omega)
    rw [List.map_cons, List.map_cons, List.foldl_cons, hnext, List.flatMap_cons,
      List.flatten_cons, List.flatMap_append, underPrefix_append, underPrefix_append]
    push_cast
    ring

end Engine

namespace RowCounters

variable {c : RowCounters} {e : Engine} {src tgt w : ℕ}

def Replaces (c c' : RowCounters) (ins outs : List VersionedRow) : Prop :=
  ∀ kept, c.Counts (kept ++ ins) → (kept ++ ins).length < 2 ^ 63 →
    (kept ++ outs).length < 2 ^ 63 → c'.Counts (kept ++ outs)

theorem replaces_commitChunk (c : RowCounters) (e : Engine) (inputs : List ℕ) (w : ℕ) :
    c.Replaces (c.commitCompaction [(e.chunkCounts inputs w).newRows]
        (e.chunkCounts inputs w).deletedRows (e.chunkCounts inputs w).prefixDelta)
      (inputs.flatMap e.rowsOf) (e.compactChunk inputs w) := by
  intro kept h hin hout
  have hin' := hin
  have hout' := hout
  rw [List.length_append] at hin' hout'
  exact h.commitCompaction (by omega) List.sum_singleton
    (deletedRows_chunkCounts w (by omega))
    (count_chunkCounts (by omega) (by omega))

theorem replaces_commitChunks (c : RowCounters) (e : Engine) (chunks : List (List ℕ)) (w : ℕ) :
    c.Replaces (c.commitChunks (chunks.map fun chunk ↦ e.chunkCounts chunk w))
      (chunks.flatten.flatMap e.rowsOf) (chunks.flatMap fun chunk ↦ e.compactChunk chunk w) := by
  intro kept h hin hout
  rw [List.length_append] at hin
  have hout' := hout
  rw [List.length_append] at hout'
  apply h.commitCompaction (by omega)
  · rw [List.map_map, List.length_flatMap]
    rfl
  · have hsum : (chunks.map fun chunk ↦ (chunk.flatMap e.rowsOf).length).sum =
        (chunks.flatten.flatMap e.rowsOf).length := by
      rw [← List.flatMap_id, List.flatMap_assoc, List.length_flatMap]
      rfl
    have hdeleted : (chunks.map fun chunk ↦ e.chunkCounts chunk w).map ChunkCounts.deletedRows =
        chunks.map fun chunk ↦ (chunk.flatMap e.rowsOf).length := by
      rw [List.map_map]
      apply List.map_congr_left
      intro chunk hchunk
      have hle := List.le_sum_of_mem (List.mem_map_of_mem (f := fun chunk : List ℕ ↦
        (chunk.flatMap e.rowsOf).length) hchunk)
      exact deletedRows_chunkCounts w (by omega)
    rw [hdeleted, foldl_saturatingAdd _ 0 (by omega), hsum, Nat.zero_add]
  · intro p
    have hdelta := count_foldl_mergeDelta (e := e) (p := p) (a := 0) (b := 0) w chunks ∅
      (by rw [count_empty]; rfl) (by omega) (by omega)
    rw [hdelta, Nat.zero_add, Nat.zero_add]

theorem count_foldl_addRowsByPrefix (files : List (List VersionedRow))
    (counts : ExtTreeMap Bytes ℕ) (p : Bytes)
    (h : count counts p + underPrefix p files.flatten < 2 ^ 64) :
    count (files.foldl addRowsByPrefix counts) p =
      count counts p + underPrefix p files.flatten := by
  induction files generalizing counts with
  | nil => simp [underPrefix]
  | cons rows files ih =>
    rw [List.flatten_cons, underPrefix_append] at h ⊢
    have hfirst : count (addRowsByPrefix counts rows) p =
        count counts p + underPrefix p rows := count_addRowsByPrefix (by omega)
    rw [List.foldl_cons, ih _ (by rw [hfirst]; omega), hfirst, Nat.add_assoc]

theorem counts_recovered (h : e.liveRows.length < 2 ^ 63) : (recovered e).Counts e.liveRows := by
  have hperm : ((e.versionSet.entries.map Prod.fst).flatMap e.rowsOf).Perm e.liveRows :=
    (((List.perm_insertionSort _ _).map _).flatMap_right e.rowsOf).symm
  have hfiles : ((e.versionSet.entries.map Prod.fst).map fun i ↦ readAll (e.rowsOf i)).flatten =
      readAll ((e.versionSet.entries.map Prod.fst).flatMap e.rowsOf) := by
    rw [← List.flatMap_def, flatMap_readAll]
  have hlength : (((e.versionSet.entries.map Prod.fst).map fun i ↦
      readAll (e.rowsOf i)).map List.length).sum = e.liveRows.length := by
    rw [← List.length_flatten, hfiles, readAll, List.length_map, hperm.length_eq]
  refine Counts.perm ⟨?_, fun p ↦ ?_⟩ hperm
  · have hsum := foldl_saturatingAdd _ 0 (by rw [hlength]; omega)
    rw [recovered, hsum, hlength, Nat.zero_add, hperm.length_eq]
  · have hle := underPrefix_le_length p e.liveRows
    refine (count_foldl_addRowsByPrefix _ _ p ?_).trans ?_
    · rw [hfiles, underPrefix_readAll, perm_underPrefix hperm, count_empty]
      omega
    · rw [hfiles, underPrefix_readAll, count_empty, Nat.zero_add]

end RowCounters

/-! ## Histories -/

namespace CountedEngine

def Fits (st : CountedEngine) : Prop := st.store.engine.liveRows.length < 2 ^ 63

instance : DecidablePred Fits := fun _ ↦ Nat.decLt _ _

/-- `sst_row_count` and `table_row_count` report what the live files hold. -/
def Exact (st : CountedEngine) : Prop :=
  st.counters.sstRowCount.toNat = st.store.engine.liveRows.length ∧
    ∀ table : Bytes, 0 ∉ table → st.tableRowCount table =
      st.store.engine.liveRows.countP fun row ↦ decide (tablePrefix table <+: row.key)

structure Inv (st : CountedEngine) : Prop where
  wellFormed : st.store.engine.versionSet.WellFormed
  counts : st.counters.Counts st.store.engine.liveRows

theorem inv_initial : Inv initial where
  wellFormed := VersionSet.wellFormed_initial
  counts := by
    have hnone : initial.store.engine.liveRows = [] := rfl
    exact hnone ▸ ⟨rfl, fun p ↦ count_empty p⟩

theorem liveRows_congr {e e' : Engine} (hversionSet : e'.versionSet = e.versionSet)
    (hssts : e'.ssts = e.ssts) : e'.liveRows = e.liveRows := by
  have hrows : e'.rowsOf = e.rowsOf := by
    funext i
    rw [rowsOf, rowsOf, hssts]
  rw [liveRows, liveRows, liveFiles, liveFiles, hversionSet, hrows]

theorem files_of_step {st st' : LoggedEngine} {op : RestartOp}
    (hop : op = .reopen ∨ ∃ txId mutations, op = .write txId mutations)
    (h : st.step op = some st') :
    st'.engine.versionSet = st.engine.versionSet ∧ st'.engine.ssts = st.engine.ssts := by
  rcases hop with rfl | ⟨txId, mutations, rfl⟩
  · obtain ⟨_, -, hrest⟩ := Fallible.bind_eq_ok (LoggedEngine.reopen_of_step h)
    obtain ⟨_, -, ⟨⟩⟩ := Fallible.bind_eq_ok hrest
    exact ⟨rfl, rfl⟩
  · rw [LoggedEngine.step] at h
    rcases st.writeWithTx_cases txId mutations with ⟨err, herr⟩ | ⟨w, -, -, -, hok⟩
    · rw [herr] at h
      cases h
      exact ⟨rfl, rfl⟩
    · rw [hok] at h
      cases h
      exact ⟨rfl, rfl⟩

variable {st t : CountedEngine}

theorem Inv.compactChunks (h : Inv st) (src tgt w : ℕ) (chunks : List (List ℕ))
    (hchunks : chunks.flatten = st.store.engine.compactionInputs src tgt) (env : ℕ → SstEnv)
    {t : CountedEngine} (hengine : t.store.engine = st.store.engine.merged src tgt w chunks env)
    (hreplaces : st.counters.Replaces t.counters
      (chunks.flatten.flatMap st.store.engine.rowsOf)
      (chunks.flatMap fun chunk ↦ st.store.engine.compactChunk chunk w))
    (hfits : st.Fits) (hfits' : t.Fits) : Inv t := by
  have hbefore := (perm_liveFiles_inputs h.wellFormed src tgt).flatMap_right
    st.store.engine.rowsOf
  rw [← liveRows, List.flatMap_append, ← hchunks] at hbefore
  have hafter : List.Perm _ (st.store.engine.merged src tgt w chunks env).liveRows :=
    perm_liveRows_compactChunks h.wellFormed
  rw [Fits, hengine, ← hafter.length_eq] at hfits'
  rw [Fits, hbefore.length_eq] at hfits
  constructor
  · rw [hengine]
    exact wellFormed_compactChunks h.wellFormed fun i ↦ mem_compactionInputs.mp
  · rw [hengine]
    exact (hreplaces _ (h.counts.perm hbefore) hfits hfits').perm hafter

theorem Inv.step (h : Inv st) {op : RestartOp} (hfits : st.Fits) (hfits' : t.Fits)
    (hstep : st.step op = some t) : Inv t := by
  cases op with
  | write txId mutations =>
    obtain ⟨hversionSet, hssts⟩ := files_of_step (.inr ⟨_, _, rfl⟩) (store_step hstep)
    obtain ⟨store, -, rfl⟩ := Option.map_eq_some_iff.mp hstep
    exact ⟨hversionSet ▸ h.wellFormed, liveRows_congr hversionSet hssts ▸ h.counts⟩
  | flush env walMaxSizeBytes =>
    cases hstep
    refine ⟨wellFormed_flush h.wellFormed env, ?_⟩
    by_cases hnil : st.store.engine.memtable.drainInto = []
    · change RowCounters.Counts (if _ then _ else _) (st.store.engine.flush env).liveRows
      rw [if_pos hnil, flush_of_nil hnil]
      exact h.counts
    · have hperm := perm_liveRows_flush h.wellFormed env hnil
      change RowCounters.Counts (if _ then _ else _) (st.store.engine.flush env).liveRows
      rw [if_neg hnil]
      refine (h.counts.flushed ?_).perm hperm
      rw [hperm.length_eq]
      exact hfits'.trans (by decide)
  | compact src tgt w env =>
    cases hstep
    by_cases hfew : (st.store.engine.compactionInputs src tgt).length < 2
    · simpa only [compactWithWatermark, hfew, if_true] using h
    · refine h.compactChunks src tgt w [st.store.engine.compactionInputs src tgt]
        (List.flatten_singleton ..) (fun _ ↦ env) ?_ ?_ hfits hfits'
      · exact if_neg hfew
      · simp only [hfew, if_false, List.flatten_singleton, List.flatMap_singleton]
        exact RowCounters.replaces_commitChunk _ _ _ _
  | subCompact src tgt w env =>
    cases hstep
    by_cases hfew : (st.store.engine.compactionInputs src tgt).length < 2
    · simpa only [subCompact, hfew, if_true] using h
    · refine h.compactChunks src tgt w (splitBySize _ st.store.engine.versionSet
        maxChunkBytes) (flatten_splitBySize _ _ _) env ?_ ?_ hfits hfits'
      · exact if_neg hfew
      · simp only [hfew, if_false]
        exact RowCounters.replaces_commitChunks _ _ _ _
  | reopen =>
    obtain ⟨hversionSet, hssts⟩ := files_of_step (.inl rfl) (store_step hstep)
    obtain ⟨store, -, rfl⟩ := Option.map_eq_some_iff.mp hstep
    refine ⟨hversionSet ▸ h.wellFormed, ?_⟩
    rw [liveRows_congr hversionSet hssts]
    exact RowCounters.counts_recovered hfits

theorem Inv.exact (h : Inv st) (hfits : st.Fits) : st.Exact := by
  constructor
  · rw [h.counts.total]
    exact UInt64.toNat_ofNat_of_lt' (hfits.trans (by decide))
  · intro table hzero
    rw [tableRowCount, h.counts.byPrefix, underPrefix, List.count, List.countP_map]
    apply List.countP_congr
    intro row _
    simp [tablePrefix_prefix_iff_keyTablePrefix hzero]

/-- The row counts are exact in every state of a history. -/
theorem row_counts_exact (ops : List RestartOp)
    (hfits : Along step Fits initial ops) :
    Along step Exact initial ops := by
  have hinv := hfits.invariant (I := fun st ↦ Inv st ∧ st.Fits)
    (fun st op t h _ hfits' hstep ↦ ⟨h.1.step h.2 hfits' hstep, hfits'⟩)
    ⟨inv_initial, hfits.head⟩
  exact hinv.imp fun st h ↦ h.1.exact h.2

def mergedTables : List RestartOp :=
  [.write 1 [.put [97, 0, 1] [1], .put [98, 0, 1] [1]], .flush ⟨1, 0, none, true⟩ 0,
    .write 2 [.put [97, 0, 1] [2]], .flush ⟨1, 0, none, true⟩ 0,
    .subCompact 0 1 3 fun _ ↦ ⟨1, 0, none, true⟩, .reopen]

theorem row_counts_exact_mergedTables :
    (run step initial mergedTables).isSome ∧ Along step Exact initial mergedTables := by
  have hfits : Along step Fits initial mergedTables := by decide +kernel
  exact ⟨by decide +kernel, row_counts_exact mergedTables hfits⟩

end CountedEngine

end HatP
