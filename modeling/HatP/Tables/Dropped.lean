import HatP.Tables.Partitions

/-!
# Dropped tables

A drop erases the keys of a table from the memtable and records the prefix of the
table.  The reads filter what the files hold under a recorded prefix, and all
scans show what the memtable holds.  So a dropped table stays out of sight as long
as neither a write nor the replay of the log brings its keys back, and as long as
the prefix of a key is found where the name of its table ends.
-/

namespace HatP

open Transition
open Std (ExtTreeMap ExtTreeSet LawfulEqCmp)

/-! ## What the scans show -/

namespace Engine

variable {e : Engine} {table key lower upper : Bytes} {s : ℕ}

theorem shows_of_mem_scanRange (h : e.Inv) {value : Bytes}
    (hmem : (key, value) ∈ e.scanRange lower upper s) :
    ∃ x, e.Shows key s x ∧ x.value = some value := by
  obtain ⟨x, hx, hvalue⟩ := mem_scanRange.mp hmem
  have hrow := mem_map_entry.mp (Newest.isNewest_of_merged hx).1
  exact ⟨x, ((mem_rangeRows h).mp hrow).2, hvalue⟩

theorem shows_of_mem_scanAll {value : Option Bytes} (hmem : (key, value) ∈ e.scanAll s) :
    ∃ x, e.Shows key s x ∧ x.value = value := by
  obtain ⟨x, hx, hvalue⟩ := mem_scanAll.mp hmem
  exact ⟨x, mem_allRows.mp (mem_map_entry.mp (Newest.isNewest_of_merged hx).1), hvalue⟩

section TableScans

variable {σ : Type*} [PartialOrder σ] [DecidableEq σ] [DecidableLT σ] [DecidableLE σ]

def tableScanRows (e : Engine) (vortex : VortexScan σ) (stats : ℕ → Option (TableColumnStats σ))
    (registered : Option (TableSchema σ)) (schema : TableSchema σ) (table : Bytes)
    (predicates : Option (List (ColumnPredicate σ))) : List VersionedRow :=
  ((e.mergedVisible vortex stats schema table (namedPredicates registered predicates)).toList
    |>.filterMap fun entry ↦ entry.2.value.map fun _ ↦ ⟨entry.1, entry.2⟩) ++
  (e.scannedFiles stats schema table (predicates.getD [])).flatMap
    (e.partitionRows vortex schema table (predicates.getD []))

variable {vortex : VortexScan σ} {stats : ℕ → Option (TableColumnStats σ)}
  {registered fallback : Option (TableSchema σ)} {schema : TableSchema σ} {batchSize : ℕ+}
  {predicates : Option (List (ColumnPredicate σ))} {partitions : List (List (List (List σ)))}

section

variable (hschema : registered.or fallback = some schema)
  (hscan : e.scanTableArrow vortex stats registered fallback table batchSize predicates =
    .ok partitions)

include hschema hscan

theorem flatten_scanTableArrow (hfields : schema.fields ≠ []) :
    partitions.flatten.flatten = (e.tableScanRows vortex stats registered schema table
      predicates).map fun row ↦ schema.businessColumns row.version := by
  rw [rows_of_scanTableArrow hschema hscan, tableScanRows, List.map_append, List.map_filterMap,
    List.map_flatMap, TableSchema.liveRows, if_neg hfields]
  congr 1
  refine List.filterMap_congr fun entry _ ↦ ?_
  cases hvalue : entry.2.value with
  | none => rfl
  | some payload => simp [TableSchema.businessColumns, hvalue]

theorem flatten_scanTableArrow_eq_nil (hfields : schema.fields = []) :
    partitions.flatten.flatten = [] := by
  have hrows := (exists_scanTableArrow_iff hschema).mp ⟨partitions, hscan⟩
  rw [rows_of_scanTableArrow hschema hscan, TableSchema.liveRows, if_pos hfields, List.nil_append,
    List.flatMap_eq_nil_iff]
  intro i hi
  refine List.map_eq_nil_iff.mpr (List.eq_nil_iff_forall_not_mem.mpr fun row hrow ↦ ?_)
  exact (hrows i hi row hrow).1 hfields

theorem exists_mem_tableScanRows {columns : List σ} (hmem : columns ∈ partitions.flatten.flatten) :
    ∃ row ∈ e.tableScanRows vortex stats registered schema table predicates,
      schema.businessColumns row.version = columns := by
  by_cases hfields : schema.fields = []
  · rw [flatten_scanTableArrow_eq_nil hschema hscan hfields] at hmem
    cases hmem
  · rw [flatten_scanTableArrow hschema hscan hfields] at hmem
    exact List.mem_map.mp hmem

end

theorem shows_of_mem_tableScanRows (h : e.Inv) {row : VersionedRow}
    (hrow : row ∈ e.tableScanRows vortex stats registered schema table predicates) :
    tablePrefix table <+: row.key ∧ e.Shows row.key e.snapshotTs row.version := by
  rcases List.mem_append.mp hrow with hmerged | hfile
  · obtain ⟨⟨key, x⟩, hentry, hsome⟩ := List.mem_filterMap.mp hmerged
    obtain ⟨_, -, rfl⟩ := Option.map_eq_some_iff.mp hsome
    rw [ExtTreeMap.mem_toList_iff_getElem?_eq_some, mergedVisible_eq] at hentry
    obtain ⟨hunder, hsees, hmem⟩ :=
      (mem_mergedRows h).mp (mem_map_entry.mp (Newest.isNewest_of_merged hentry).1)
    refine ⟨hunder, hsees, hmem.imp_right fun ⟨hdropped, i, hi, _, hscanned⟩ ↦ ?_⟩
    have hrows := mem_scanRows.mp ((vortex.scanWithFilter_sublist schema _ _ _ _ _).subset hscanned)
    exact ⟨hdropped, i, ⟨0, hi⟩, hrows.2.2⟩
  · obtain ⟨i, hi, hmem⟩ := List.mem_flatMap.mp hfile
    rw [scannedFiles] at hi
    split at hi
    · cases hi
    next hdropped =>
      obtain ⟨hrange, hsees, hversion⟩ := mem_scanRows.mp ((vortex.sublist schema _ _).subset hmem)
      have hunder := tablePrefix_prefix_iff.mpr hrange
      rw [← isDroppedPrefix_of_table hunder] at hdropped
      exact ⟨hunder, hsees, .inr ⟨by simpa using hdropped, i,
        isLive_of_mem_partitionFiles (List.mem_filter.mp hi).1, hversion⟩⟩

end TableScans

end Engine

/-! ## What the calls bring in -/

namespace Engine

variable {e : Engine} {txId : ℕ} {ms : List Mutation} {key : Bytes} {p : ℕ × Option Bytes}

theorem stamps_committed (hp : p ∈ stamps ((e.committed txId ms).memtable.chain key).versions) :
    p ∈ stamps (e.memtable.chain key).versions ∨ ∃ m ∈ ms, m.key = key ∧ m.value = p.2 := by
  rw [committed, MemTable.mem_stamps_applyMutationsBatch] at hp
  rcases hp with ⟨-, hnet⟩ | ⟨-, hold⟩
  · exact .inr (mem_of_netEffect hnet)
  · exact .inl hold

theorem stamps_replayed {commits : List (ℕ × List Mutation)}
    (hp : p ∈ stamps ((e.replayed commits).memtable.chain key).versions) :
    p ∈ stamps (e.memtable.chain key).versions ∨
      ∃ commit ∈ commits, ∃ m ∈ commit.2, m.key = key ∧ m.value = p.2 := by
  induction commits generalizing e with
  | nil => exact .inl hp
  | cons commit commits ih =>
    rcases ih hp with hold | ⟨later, hlater, hm⟩
    · rcases stamps_committed hold with hold | hm
      · exact .inl hold
      · exact .inr ⟨commit, .head _, hm⟩
    · exact .inr ⟨later, .tail _ hlater, hm⟩

theorem stamps_flush_subset (e : Engine) (env : SstEnv) (key : Bytes) :
    stamps ((e.flush env).memtable.chain key).versions ⊆
      stamps (e.memtable.chain key).versions := by
  by_cases hnil : e.memtable.drainInto = []
  · rw [flush_of_nil hnil]
  · rw [chain_flush hnil]
    exact fun p hp ↦ absurd hp (by simp [VersionChain.empty])

end Engine

namespace LoggedEngine

variable {st st' : LoggedEngine} {op : TableOp} {key : Bytes} {p : ℕ × Option Bytes}

/-- The call applies the mutation: a write that contains it, or a restart that
finds it in the log. -/
def Introduces (st : LoggedEngine) (m : Mutation) : TableOp → Prop
  | .call (.write _ mutations) => m ∈ mutations
  | .call .reopen => ∃ records validBytes, Wal.recover st.wal = .ok (records, validBytes) ∧
      ∃ record ∈ records, record.mutation? = some m
  | _ => False

theorem introduces_of_reopen (hreopen : st.reopen = .ok st')
    (hp : p ∈ stamps (st'.engine.memtable.chain key).versions) :
    ∃ m, st.Introduces m (.call .reopen) ∧ m.key = key ∧ m.value = p.2 := by
  obtain ⟨records, validBytes, commits, hrecover, hcommits, rfl⟩ := exists_commits_reopen hreopen
  rcases Engine.stamps_replayed hp with hold | ⟨commit, hcommit, m, hm, hkey, hvalue⟩
  · change p ∈ stamps ((∅ : MemTable).chain key).versions at hold
    rw [MemTable.chain_empty] at hold
    exact absurd hold (by simp [VersionChain.empty])
  · exact ⟨m, ⟨records, validBytes, hrecover, hcommits commit hcommit m hm⟩, hkey, hvalue⟩

theorem memtable_of_moves (h : st.engine.Inv) (hmoves : TableMoves st op st')
    (hp : p ∈ stamps (st'.engine.memtable.chain key).versions) :
    p ∈ stamps (st.engine.memtable.chain key).versions ∨
      ∃ m, st.Introduces m op ∧ m.key = key ∧ m.value = p.2 := by
  cases hmoves with
  | refused | get key snapshot cache | undropTable table => exact .inl hp
  | write w => exact Engine.stamps_committed hp
  | flush env walMaxSizeBytes => exact .inl (st.engine.stamps_flush_subset env key hp)
  | compact hc =>
    rw [hc.memtable_eq] at hp
    exact .inl hp
  | reopen hreopen => exact .inr (introduces_of_reopen hreopen hp)
  | collectMemtable watermark =>
    exact .inl (Engine.stamps_collectMemtable_subset h watermark key hp)
  | dropTable table =>
    change p ∈ stamps ((st.engine.dropped table).memtable.chain key).versions at hp
    rw [Engine.chain_dropped] at hp
    split at hp
    · exact absurd hp (by simp [VersionChain.empty])
    · exact .inl hp

end LoggedEngine

/-! ## The recorded prefixes -/

def VersionEdit.KeepsDropped : VersionEdit → Prop
  | .droppedPrefix _ | .undroppedPrefix _ => False
  | _ => True

theorem VersionSet.dropped_applied {edits : List VersionEdit} (vs : VersionSet)
    (h : ∀ edit ∈ edits, edit.KeepsDropped) : (vs.applied edits).dropped = vs.dropped := by
  induction edits generalizing vs with
  | nil => rfl
  | cons edit edits ih =>
    obtain ⟨hedit, hedits⟩ := List.forall_mem_cons.mp h
    refine (ih (vs.apply edit) hedits).trans ?_
    cases edit <;> first | rfl | exact absurd hedit id

namespace Engine

variable {e : Engine}

theorem dropped_flush (e : Engine) (env : SstEnv) :
    (e.flush env).versionSet.dropped = e.versionSet.dropped ∧
      (e.flush env).droppedTables = e.droppedTables := by
  by_cases hnil : e.memtable.drainInto = []
  · rw [flush_of_nil hnil]
    exact ⟨rfl, rfl⟩
  · rw [versionSet_flush hnil]
    exact ⟨rfl, by simp [flush, flushSstLocked, hnil]⟩

theorem Compacts.dropped_eq {e' : Engine} {src tgt w : ℕ} (h : Compacts e src tgt w e') :
    e'.versionSet.dropped = e.versionSet.dropped ∧ e'.droppedTables = e.droppedTables := by
  rcases h.eq_or_chunks with rfl | ⟨chunks, env, -, rfl⟩
  · exact ⟨rfl, rfl⟩
  refine ⟨VersionSet.dropped_applied _ fun edit hedit ↦ ?_, rfl⟩
  simp only [compactionEdits, List.mem_append, List.mem_map, List.mem_cons] at hedit
  rcases hedit with ⟨_, -, rfl⟩ | rfl | ⟨_, -, rfl⟩ <;> trivial

theorem droppedTables_replayed (e : Engine) (commits : List (ℕ × List Mutation)) :
    (e.replayed commits).droppedTables = e.droppedTables ∧
      (e.replayed commits).versionSet = e.versionSet := by
  induction commits generalizing e with
  | nil => exact ⟨rfl, rfl⟩
  | cons commit commits ih => exact ih (e.committed commit.1 commit.2)

/-- The memory agrees with the manifest about the dropped tables, their names have
no zero byte, and the memtable has none of their keys. -/
structure DropsInEffect (e : Engine) : Prop where
  recorded : e.versionSet.dropped = e.droppedTables
  names : ∀ name ∈ e.droppedTables, ∃ table, 0 ∉ table ∧ name = tablePrefix table
  erased : ∀ key, e.isDroppedPrefix key = true → stamps (e.memtable.chain key).versions = ∅

theorem isDroppedPrefix_iff {key : Bytes} :
    e.isDroppedPrefix key = true ↔ keyTablePrefix key ∈ e.droppedTables := by
  rw [isDroppedPrefix, ExtTreeSet.contains_iff_mem]

/-- The drop filter covers the keys of a table that was dropped under a name
without a zero byte. -/
theorem DropsInEffect.isDroppedPrefix (h : e.DropsInEffect) {table key : Bytes}
    (hdropped : tablePrefix table ∈ e.droppedTables) (hkey : tablePrefix table <+: key) :
    e.isDroppedPrefix key = true := by
  obtain ⟨table', hzero, heq⟩ := h.names _ hdropped
  obtain rfl : table = table' := List.append_cancel_right heq
  rw [isDroppedPrefix_iff, keyTablePrefix_of_table hkey, keyTablePrefix_tablePrefix hzero]
  exact hdropped

theorem dropsInEffect_initial : initial.DropsInEffect where
  recorded := rfl
  names name hname := absurd hname ExtTreeSet.not_mem_empty
  erased key _ := by
    change stamps ((∅ : MemTable).chain key).versions = ∅
    rw [MemTable.chain_empty]
    simp [VersionChain.empty]

/-- The drops stay in effect while no key of a dropped table enters the memtable. -/
theorem DropsInEffect.of_same {e' : Engine} (h : e.DropsInEffect)
    (hrecorded : e'.versionSet.dropped = e'.droppedTables)
    (hsame : e'.droppedTables = e.droppedTables)
    (herased : ∀ key, ∀ p ∈ stamps (e'.memtable.chain key).versions,
      p ∈ stamps (e.memtable.chain key).versions ∨ e.isDroppedPrefix key = false) :
    e'.DropsInEffect where
  recorded := hrecorded
  names := hsame ▸ h.names
  erased key hdropped := by
    rw [Engine.isDroppedPrefix, hsame, ← Engine.isDroppedPrefix] at hdropped
    refine Set.eq_empty_iff_forall_notMem.mpr fun p hp ↦ ?_
    rcases herased key p hp with hold | hnot
    · rw [h.erased key hdropped] at hold
      exact hold
    · rw [hdropped] at hnot
      cases hnot

theorem DropsInEffect.dropped (h : e.DropsInEffect) {table : Bytes} (hzero : 0 ∉ table) :
    (e.dropped table).DropsInEffect where
  recorded := congrArg (fun names ↦ names.insert (tablePrefix table)) h.recorded
  names name hname := by
    rcases ExtTreeSet.mem_insert.mp hname with heq | hold
    · exact ⟨table, hzero, (LawfulEqCmp.eq_of_compare heq).symm⟩
    · exact h.names name hold
  erased key hdropped := by
    rw [isDroppedPrefix_iff] at hdropped
    rw [chain_dropped]
    split
    next => simp [VersionChain.empty]
    next hkey =>
      rcases ExtTreeSet.mem_insert.mp hdropped with heq | hold
      · have hname : tablePrefix table = keyTablePrefix key := LawfulEqCmp.eq_of_compare heq
        exact absurd (hname ▸ prefix_keyTablePrefix key) hkey
      · exact h.erased key (isDroppedPrefix_iff.mpr hold)

theorem DropsInEffect.undropped (h : e.DropsInEffect) (table : Bytes) :
    (e.undropped table).DropsInEffect where
  recorded := congrArg (fun names ↦ names.erase (tablePrefix table)) h.recorded
  names name hname := h.names name (ExtTreeSet.mem_of_mem_erase hname)
  erased key hdropped :=
    h.erased key (isDroppedPrefix_iff.mpr
      (ExtTreeSet.mem_of_mem_erase (isDroppedPrefix_iff.mp hdropped)))

end Engine

namespace LoggedEngine

variable {st st' : LoggedEngine} {op : TableOp}

/-- The call brings no key of a dropped table into the memtable, and drops no table
whose name has a zero byte. -/
structure KeepsDropped (st : LoggedEngine) (op : TableOp) : Prop where
  absent : ∀ m, st.Introduces m op → st.engine.isDroppedPrefix m.key = false
  named : ∀ table, op = .dropTable table → 0 ∉ table

theorem dropsInEffect_of_moves (h : st.engine.Inv) (hdrops : st.engine.DropsInEffect)
    (hkeeps : st.KeepsDropped op) (hmoves : TableMoves st op st') :
    st'.engine.DropsInEffect := by
  have herased : ∀ key, ∀ p ∈ stamps (st'.engine.memtable.chain key).versions,
      p ∈ stamps (st.engine.memtable.chain key).versions ∨
        st.engine.isDroppedPrefix key = false := by
    intro key p hp
    rcases memtable_of_moves h hmoves hp with hold | ⟨m, hm, rfl, -⟩
    · exact .inl hold
    · exact .inr (hkeeps.absent m hm)
  cases hmoves with
  | refused => exact hdrops
  | write w => exact hdrops.of_same hdrops.recorded rfl herased
  | flush env walMaxSizeBytes =>
    obtain ⟨hrecorded, hsame⟩ := st.engine.dropped_flush env
    exact hdrops.of_same (hrecorded.trans (hdrops.recorded.trans hsame.symm)) hsame herased
  | compact hc =>
    obtain ⟨hrecorded, hsame⟩ := hc.dropped_eq
    exact hdrops.of_same (hrecorded.trans (hdrops.recorded.trans hsame.symm)) hsame herased
  | reopen hreopen =>
    obtain ⟨_, _, commits, -, -, rfl⟩ := exists_commits_reopen hreopen
    obtain ⟨hsame, hrecorded⟩ := st.engine.restarted.droppedTables_replayed commits
    refine hdrops.of_same ?_ (hsame.trans hdrops.recorded) herased
    rw [hrecorded, hsame]
    rfl
  | get key snapshot cache | collectMemtable watermark =>
    exact hdrops.of_same hdrops.recorded rfl herased
  | dropTable table => exact hdrops.dropped (hkeeps.named table rfl)
  | undropTable table => exact hdrops.undropped table

end LoggedEngine

/-! ## Dropped tables are invisible -/

namespace Engine

variable {e : Engine} {table : Bytes}

/-- No read shows a key of the table. -/
structure Invisible (e : Engine) (table : Bytes) : Prop where
  get : ∀ key s, tablePrefix table <+: key → (e.get key s).1 = none
  scanRange : ∀ lower upper s, ∀ row ∈ e.scanRange lower upper s, ¬tablePrefix table <+: row.1
  scanAll : ∀ s, ∀ row ∈ e.scanAll s, ¬tablePrefix table <+: row.1
  tableScanRows : ∀ (σ : Type) [PartialOrder σ] [DecidableEq σ] [DecidableLT σ] [DecidableLE σ]
    (vortex : VortexScan σ) (stats : ℕ → Option (TableColumnStats σ))
    (registered : Option (TableSchema σ)) (schema : TableSchema σ) (name : Bytes)
    (predicates : Option (List (ColumnPredicate σ))),
    ∀ row ∈ e.tableScanRows vortex stats registered schema name predicates,
      ¬tablePrefix table <+: row.key
  scanTableArrow : ∀ (σ : Type) [PartialOrder σ] [DecidableEq σ] [DecidableLT σ] [DecidableLE σ]
    (vortex : VortexScan σ) (stats : ℕ → Option (TableColumnStats σ))
    (registered fallback : Option (TableSchema σ)) (batchSize : ℕ+)
    (predicates : Option (List (ColumnPredicate σ))) (partitions : List (List (List (List σ)))),
    e.scanTableArrow vortex stats registered fallback table batchSize predicates =
      .ok partitions → partitions.flatten.flatten = []
  scanTable : ∀ (σ : Type) [PartialOrder σ] [DecidableEq σ] [DecidableLT σ] [DecidableLE σ]
    (vortex : VortexScan σ) (stats : ℕ → Option (TableColumnStats σ))
    (registered fallback : Option (TableSchema σ)) (batches : List (List (List σ))),
    e.scanTable vortex stats registered fallback table = .ok batches → batches.flatten = []

theorem DropsInEffect.not_shows (h : e.DropsInEffect)
    (hdropped : tablePrefix table ∈ e.droppedTables) {key : Bytes} {s : ℕ} {x : VersionedValue}
    (hshows : e.Shows key s x) : ¬tablePrefix table <+: key := by
  intro hkey
  have hfiltered := h.isDroppedPrefix hdropped hkey
  rcases hshows.2 with hmem | ⟨hnot, -⟩
  · have hstamp := stamp_mem_stamps hmem
    rw [h.erased key hfiltered] at hstamp
    exact hstamp
  · rw [hfiltered] at hnot
    cases hnot

section TableScans

variable {σ : Type*} [PartialOrder σ] [DecidableEq σ] [DecidableLT σ] [DecidableLE σ]
  {vortex : VortexScan σ} {stats : ℕ → Option (TableColumnStats σ)}
  {registered fallback : Option (TableSchema σ)} {batchSize : ℕ+}
  {predicates : Option (List (ColumnPredicate σ))} {partitions : List (List (List (List σ)))}

theorem DropsInEffect.flatten_eq_nil (h : e.DropsInEffect) (hinv : e.Inv)
    (hdropped : tablePrefix table ∈ e.droppedTables)
    (hscan : e.scanTableArrow vortex stats registered fallback table batchSize predicates =
      .ok partitions) : partitions.flatten.flatten = [] := by
  cases hschema : registered.or fallback with
  | none =>
    rw [Engine.scanTableArrow, hschema] at hscan
    cases hscan
  | some schema =>
    refine List.eq_nil_iff_forall_not_mem.mpr fun columns hmem ↦ ?_
    obtain ⟨row, hrow, -⟩ := exists_mem_tableScanRows hschema hscan hmem
    obtain ⟨hkey, hshows⟩ := shows_of_mem_tableScanRows hinv hrow
    exact h.not_shows hdropped hshows hkey

end TableScans

theorem DropsInEffect.invisible (h : e.DropsInEffect) (hinv : e.Inv)
    (hdropped : tablePrefix table ∈ e.droppedTables) : e.Invisible table where
  get key s hkey := by rw [get_fst, h.isDroppedPrefix hdropped hkey, if_pos rfl]
  scanRange lower upper s row hrow := by
    obtain ⟨x, hshows, -⟩ := shows_of_mem_scanRange hinv hrow
    exact h.not_shows hdropped hshows
  scanAll s row hrow := by
    obtain ⟨x, hshows, -⟩ := shows_of_mem_scanAll hrow
    exact h.not_shows hdropped hshows
  tableScanRows := by
    intro _ _ _ _ _ _ _ _ _ _ _ row hrow
    exact h.not_shows hdropped (shows_of_mem_tableScanRows hinv hrow).2
  scanTableArrow := by
    intro _ _ _ _ _ _ _ _ _ _ _ _ hscan
    exact h.flatten_eq_nil hinv hdropped hscan
  scanTable := by
    intro _ _ _ _ _ _ _ _ _ _ hscan
    obtain ⟨partitions, harrow, rfl⟩ := Fallible.map_eq_ok_iff.mp hscan
    exact h.flatten_eq_nil hinv hdropped harrow

end Engine

namespace LoggedEngine

/-- A dropped table is invisible at every point of a history whose writes and
restarts keep its keys out of the memtable. -/
theorem dropped_invisible {ops : List TableOp}
    (hmeet : StepsMeet tableStep KeepsDropped initial ops) :
    Along tableStep (fun st ↦ ∀ table, tablePrefix table ∈ st.engine.droppedTables →
      st.engine.Invisible table) initial ops := by
  refine hmeet.along (I := fun st ↦ st.engine.Inv ∧ st.engine.DropsInEffect) ?_ ?_
    ⟨Engine.inv_initial, Engine.dropsInEffect_initial⟩
  · rintro st op st' ⟨hinv, hdrops⟩ hkeeps hstep
    have hmoves := moves_of_tableStep hstep
    exact ⟨engine_inv_of_moves hinv hmoves, dropsInEffect_of_moves hinv hdrops hkeeps hmoves⟩
  · exact fun st ⟨hinv, hdrops⟩ table hdropped ↦ hdrops.invisible hinv hdropped

theorem engine_of_tableStep {st st' : LoggedEngine} {op : TableOp} (h : op.Plain)
    (hstep : st.tableStep op = some st') : st'.engine = st.engine.execTable op := by
  obtain ⟨next, hnext, hengine⟩ := st.exists_tableStep h
  rw [hstep] at hnext
  rw [Option.some.inj hnext, hengine]

def flushedThenDropped : List TableOp :=
  [.call (.write 1 [.put [116, 0, 1] [1]]), .call (.flush Engine.plainEnv 1000), .dropTable [116],
    .call (.write 2 [.put [117, 0, 1] [2]])]

theorem dropped_invisible_flushed :
    ∃ st, run tableStep initial flushedThenDropped = some st ∧
      tablePrefix [116] ∈ st.engine.droppedTables ∧
      (st.engine.get [117, 0, 1] 2).1 = some [2] ∧ st.engine.Invisible [116] := by
  have hplain : ∀ op ∈ flushedThenDropped, op.Plain := by decide
  obtain ⟨st, hrun, hengine⟩ := initial.exists_run_plain hplain
  have hdropped : tablePrefix [116] ∈ st.engine.droppedTables := by
    rw [hengine]
    decide
  have hquiet : ∀ (st : LoggedEngine) (op : TableOp), (∀ m, ¬st.Introduces m op) →
      (∀ table, op = .dropTable table → 0 ∉ table) → st.KeepsDropped op :=
    fun _ _ hnone hnamed ↦ ⟨fun m hm ↦ absurd hm (hnone m), hnamed⟩
  have hwrites : ∀ (st : LoggedEngine) (txId : ℕ) (m : Mutation),
      st.engine.isDroppedPrefix m.key = false → st.KeepsDropped (.call (.write txId [m])) :=
    fun _ _ m hm ↦ ⟨fun m' hm' ↦ List.mem_singleton.mp hm' ▸ hm, fun _ heq ↦ (nomatch heq)⟩
  have hmeet : StepsMeet tableStep KeepsDropped initial flushedThenDropped := by
    refine fun st₁ h₁ ↦ ⟨hwrites _ _ _ (by decide), fun st₂ h₂ ↦ ⟨hquiet _ _ (fun _ ↦ id) nofun,
      fun st₃ h₃ ↦ ⟨hquiet _ _ (fun _ ↦ id) ?_, fun st₄ _ ↦ ⟨hwrites _ _ _ ?_, trivial⟩⟩⟩⟩
    · intro table heq
      obtain rfl : [116] = table := by simpa using heq
      decide
    · rw [engine_of_tableStep (by trivial) h₃, engine_of_tableStep (by trivial) h₂,
        engine_of_tableStep (by decide) h₁]
      decide
  refine ⟨st, hrun, hdropped, ?_, ?_⟩
  · rw [hengine]
    decide
  · exact along_iff.mp (dropped_invisible hmeet) _ st List.prefix_rfl hrun [116] hdropped

/-! ## Dropped tables that are seen -/

def droppedThenWritten : List TableOp :=
  [.call (.write 1 [.put [116, 0, 1] [1]]), .call (.flush Engine.plainEnv 1000), .dropTable [116],
    .call (.write 2 [.put [116, 0, 1] [2]])]

def firstRow : PendingWrite := .ofCons 0 (.put [116, 0, 1] [1]) []

def droppedThenReopened : List TableOp :=
  [.call (.write 1 [.put [116, 0, 1] [1]]), .dropTable [116], .call .reopen]

def droppedWithZero : List TableOp :=
  [.call (.write 1 [.put [116, 0, 117, 0, 1] [1]]), .call (.flush Engine.plainEnv 1000),
    .dropTable [116, 0, 117]]

/-- Scans show what is written to a dropped table and what a restart replays into
it.  A name with a zero byte is filtered nowhere, so its table is never hidden. -/
theorem dropped_table_seen :
    (∃ st, run tableStep initial droppedThenWritten = some st ∧
      tablePrefix [116] ∈ st.engine.droppedTables ∧
      ([116, 0, 1], [2]) ∈ st.engine.scanRange [116, 0] [116, 1] 2 ∧
      ([116, 0, 1], some [2]) ∈ st.engine.scanAll 2 ∧
      st.engine.scanTable .exact (fun _ ↦ none) (some (byteSchema true)) none [116] =
        .ok [[[3]]]) ∧
    (∃ st, run tableStep initial droppedThenReopened = some st ∧
      tablePrefix [116] ∈ st.engine.droppedTables ∧
      ([116, 0, 1], [1]) ∈ st.engine.scanRange [116, 0] [116, 1] 1) ∧
    ∃ st, run tableStep initial droppedWithZero = some st ∧
      tablePrefix [116, 0, 117] ∈ st.engine.droppedTables ∧
      (st.engine.get [116, 0, 117, 0, 1] 1).1 = some [1] := by
  refine ⟨?_, ?_, ?_⟩
  · have hplain : ∀ op ∈ droppedThenWritten, op.Plain := by decide
    obtain ⟨st, hrun, hengine⟩ := initial.exists_run_plain hplain
    refine ⟨st, hrun, ?_⟩
    rw [hengine]
    decide
  · have hmarks : ∀ op ∈ [TableOp.dropTable [116]], op.Marks := by simp [TableOp.Marks]
    have hrun := run_marks_reopen firstRow ⟨by decide, by decide, by decide⟩ hmarks
    exact ⟨_, hrun, by decide⟩
  · have hplain : ∀ op ∈ droppedWithZero, op.Plain := by decide
    obtain ⟨st, hrun, hengine⟩ := initial.exists_run_plain hplain
    refine ⟨st, hrun, ?_⟩
    rw [hengine]
    decide

end LoggedEngine

end HatP
