import HatP.Tables.Partitions

/-!
# Predicate pushdown

A table scan with predicates filters each file of level 0, and skips whole files,
before the versions of a key are merged.  The query engine checks the predicates
again on what it gets, so a scan may return too much; but a filter that drops the
newest version of a key can expose an older one.
-/

namespace HatP

open Transition

namespace Engine

variable {y : VersionedValue}

variable {σ : Type*} [PartialOrder σ] [DecidableEq σ] [DecidableLT σ] [DecidableLE σ]
  {e : Engine} {vortex : VortexScan σ} {stats : ℕ → Option (TableColumnStats σ)}
  {schema : TableSchema σ} {fallback : Option (TableSchema σ)} {table key : Bytes}
  {batchSize : ℕ+} {predicates : List (ColumnPredicate σ)} {x : VersionedValue}

def StatsComputed (e : Engine) (schema : TableSchema σ) (table : Bytes)
    (stats : ℕ → Option (TableColumnStats σ)) : Prop :=
  ∀ i cached, stats i = some cached → cached = TableColumnStats.compute schema table (e.rowsOf i)

def UpperShows (e : Engine) (key : Bytes) (x : VersionedValue) : Prop :=
  e.ShowsIn (· ∈ e.versionSet.files 0) key e.snapshotTs x

/-- The version is in the memtable, or in a file of level 0 that is not skipped
and whose filter lets it through. -/
def Survives (e : Engine) (vortex : VortexScan σ) (stats : ℕ → Option (TableColumnStats σ))
    (schema : TableSchema σ) (table : Bytes) (predicates : List (ColumnPredicate σ))
    (key : Bytes) (x : VersionedValue) : Prop :=
  x.visibleAt e.snapshotTs = true ∧
    (x ∈ (e.memtable.chain key).versions ∨
      e.isDroppedPrefix key = false ∧ ∃ i ∈ e.versionSet.files 0,
        skipFileByColumnStats (stats i) (predicatesWithFields predicates schema) = false ∧
        ⟨key, x⟩ ∈ e.fileScan vortex schema table (predicatesWithFields predicates schema) i)

/-- A version that satisfies the predicates, with a newer one of its key, has a
newer one that survives the filters. -/
def StaysHidden (e : Engine) (vortex : VortexScan σ) (stats : ℕ → Option (TableColumnStats σ))
    (schema : TableSchema σ) (table : Bytes) (predicates : List (ColumnPredicate σ)) : Prop :=
  ∀ key x, tablePrefix table <+: key → e.UpperShows key x →
    schema.satisfies predicates x = true → (∃ y, e.UpperShows key y ∧ x.beginTs < y.beginTs) →
      ∃ y, e.Survives vortex stats schema table predicates key y ∧ x.beginTs < y.beginTs

/-- The rows of a scan with the predicates that satisfy them are those of a scan
without predicates that do. -/
def PushdownAgrees (e : Engine) (vortex : VortexScan σ) (stats : ℕ → Option (TableColumnStats σ))
    (schema : TableSchema σ) (fallback : Option (TableSchema σ)) (table : Bytes)
    (batchSize : ℕ+) (predicates : List (ColumnPredicate σ)) : Prop :=
  ∃ filtered all,
    e.scanTableArrow vortex stats (some schema) fallback table batchSize (some predicates) =
      .ok filtered ∧
    e.scanTableArrow vortex stats (some schema) fallback table batchSize none = .ok all ∧
    (filtered.flatten.flatten.filter fun row ↦ schema.rowMatches row predicates).Perm
      (all.flatten.flatten.filter fun row ↦ schema.rowMatches row predicates)

theorem mem_shownRows (h : e.Inv) :
    ⟨key, x⟩ ∈ e.mergedRows vortex stats schema table none ↔
      tablePrefix table <+: key ∧ e.UpperShows key x := by
  rw [mem_mergedRows h]
  refine and_congr_right fun hunder ↦ and_congr_right fun hsees ↦ or_congr_right <|
    and_congr_right fun _ ↦ exists_congr fun i ↦ and_congr_right fun _ ↦ ?_
  rw [Option.getD_none, fileScan, vortex.scanWithFilter_nil, mem_scanRows, ← tablePrefix_prefix_iff]
  exact ⟨fun hmem ↦ hmem.2.2.2, fun hmem ↦ ⟨rfl, hunder, hsees, hmem⟩⟩

theorem Survives.upperShows (h : e.Survives vortex stats schema table predicates key x) :
    e.UpperShows key x := by
  obtain ⟨hsees, hmem | ⟨hdropped, i, hi, -, hmem⟩⟩ := h
  · exact ⟨hsees, .inl hmem⟩
  · obtain ⟨-, -, hversion⟩ := mem_scanRows.mp
      ((vortex.scanWithFilter_sublist schema _ _ _ _ _).subset hmem)
    exact ⟨hsees, .inr ⟨hdropped, i, hi, hversion⟩⟩

/-- A version that satisfies the predicates survives: its file is not skipped, and
the filter of the file lets it through. -/
theorem UpperShows.survives (hstats : e.StatsComputed schema table stats)
    (hunder : tablePrefix table <+: key) (h : e.UpperShows key x)
    (hsat : schema.satisfies predicates x = true) :
    e.Survives vortex stats schema table predicates key x := by
  obtain ⟨hsees, hmem | ⟨hdropped, i, hi, v, hv, rfl⟩⟩ := h
  · exact ⟨hsees, .inl hmem⟩
  · refine ⟨hsees, .inr ⟨hdropped, i, hi, ?_, ?_⟩⟩
    · cases hcached : stats i with
      | none => rfl
      | some cached =>
        rw [hstats i cached hcached]
        have hrow : ⟨key, v⟩ ∈ e.rowsOf i := mem_versionsOf.mp hv
        exact not_skipFileByColumnStats hrow hunder hsat
    · exact vortex.mem_scanWithFilter schema _ _ _ _
        (mem_scanRows.mpr ⟨tablePrefix_prefix_iff.mp hunder, hsees, v, hv, rfl⟩)
        (TableSchema.satisfies_of_subset (map_predicatesWithFields_subset predicates schema) hsat)

theorem UpperShows.held (h : e.UpperShows key x) : x.stamp ∈ e.heldStamps key :=
  stampsIn_subset (fun _ hi ↦ ⟨0, hi⟩) key (ShowsIn.stamp_mem h).1

theorem satisfies_congr (h : x.stamp = y.stamp) :
    schema.satisfies predicates x = schema.satisfies predicates y := by
  rw [TableSchema.satisfies, TableSchema.satisfies, show x.value = y.value from congrArg Prod.snd h]

def matching (schema : TableSchema σ) (predicates : List (ColumnPredicate σ))
    (rows : List VersionedRow) : List (Bytes × ℕ × Bytes) :=
  (liveOnly (listed rows)).filter fun row ↦ schema.rowMatches (schema.decode row.2.2) predicates

theorem mem_matching {rows : List VersionedRow} {ts : ℕ} {value : Bytes} :
    (key, ts, value) ∈ matching schema predicates rows ↔
      ∃ x, (newestRows rows)[key]? = some x ∧ x.stamp = (ts, some value) ∧
        schema.satisfies predicates x = true := by
  rw [matching, List.mem_filter, mem_liveOnly, mem_listed]
  constructor
  · rintro ⟨⟨x, hx, hstamp⟩, hmatches⟩
    exact ⟨x, hx, hstamp,
      TableSchema.satisfies_eq_true.mpr ⟨value, congrArg Prod.snd hstamp, hmatches⟩⟩
  · rintro ⟨x, hx, hstamp, hsat⟩
    obtain ⟨payload, hvalue, hmatches⟩ := TableSchema.satisfies_eq_true.mp hsat
    have hsome : some payload = some value := hvalue.symm.trans (congrArg Prod.snd hstamp)
    exact ⟨⟨x, hx, hstamp⟩, Option.some.inj hsome ▸ hmatches⟩

section Filtering

variable (e vortex stats schema table predicates)

def keptEntries : List (Bytes × VersionedValue) :=
  (e.mergedRows vortex stats schema table (some (predicatesWithFields predicates schema))).map
    fun row ↦ (row.key, row.version)

def shownEntries : List (Bytes × VersionedValue) :=
  (e.mergedRows vortex stats schema table none).map fun row ↦ (row.key, row.version)

end Filtering

section

variable (h : e.Inv)

include h

theorem mem_keptEntries :
    (key, x) ∈ e.keptEntries vortex stats schema table predicates ↔
      tablePrefix table <+: key ∧ e.Survives vortex stats schema table predicates key x :=
  mem_map_entry.trans (mem_mergedRows h)

theorem mem_shownEntries :
    (key, x) ∈ e.shownEntries vortex stats schema table ↔
      tablePrefix table <+: key ∧ e.UpperShows key x :=
  mem_map_entry.trans (mem_shownRows h)

theorem keptEntries_subset :
    e.keptEntries vortex stats schema table predicates ⊆
      e.shownEntries vortex stats schema table := by
  rintro ⟨key, x⟩ hx
  obtain ⟨hunder, hsurvives⟩ := (mem_keptEntries h).mp hx
  exact (mem_shownEntries h).mpr ⟨hunder, hsurvives.upperShows⟩

theorem mem_keptEntries_of_satisfies (hstats : e.StatsComputed schema table stats)
    (key : Bytes) (x : VersionedValue) (hx : (key, x) ∈ e.shownEntries vortex stats schema table)
    (hsat : schema.satisfies predicates x = true) :
    (key, x) ∈ e.keptEntries vortex stats schema table predicates := by
  obtain ⟨hunder, hshows⟩ := (mem_shownEntries h).mp hx
  exact (mem_keptEntries h).mpr ⟨hunder, hshows.survives hstats hunder hsat⟩

theorem stamp_eq_of_mem_shownEntries (hx : (key, x) ∈ e.shownEntries vortex stats schema table)
    (hy : (key, y) ∈ e.shownEntries vortex stats schema table) (hts : x.beginTs = y.beginTs) :
    x.stamp = y.stamp :=
  h.unique key _ ((mem_shownEntries h).mp hx).2.held _ ((mem_shownEntries h).mp hy).2.held hts

theorem matching_shown_subset (hstats : e.StatsComputed schema table stats) :
    matching schema predicates (e.mergedRows vortex stats schema table none) ⊆
      matching schema predicates (e.mergedRows vortex stats schema table
        (some (predicatesWithFields predicates schema))) := by
  rintro ⟨key, ts, value⟩ hrow
  obtain ⟨x, hx, hstamp, hsat⟩ := mem_matching.mp hrow
  obtain ⟨y, hy, hts⟩ := Newest.exists_merged_kept (keptEntries_subset h)
    (mem_keptEntries_of_satisfies h hstats) hx hsat
  have hsame : y.stamp = x.stamp := stamp_eq_of_mem_shownEntries h
    (keptEntries_subset h (Newest.isNewest_of_merged hy).1) (Newest.isNewest_of_merged hx).1 hts
  exact mem_matching.mpr ⟨y, hy, hsame.trans hstamp, (satisfies_congr hsame).trans hsat⟩

/-- The filters add no match exactly when every hidden version stays hidden. -/
theorem matching_kept_subset_iff (hstats : e.StatsComputed schema table stats) :
    matching schema predicates (e.mergedRows vortex stats schema table
          (some (predicatesWithFields predicates schema))) ⊆
        matching schema predicates (e.mergedRows vortex stats schema table none) ↔
      e.StaysHidden vortex stats schema table predicates := by
  have hkept : e.keptEntries vortex stats schema table predicates ⊆
      e.shownEntries vortex stats schema table := keptEntries_subset h
  have hcopies : ∀ key x y, (key, x) ∈ e.shownEntries vortex stats schema table →
      (key, y) ∈ e.shownEntries vortex stats schema table → x.beginTs = y.beginTs →
        schema.satisfies predicates x = true → schema.satisfies predicates y = true :=
    fun key x y hx hy hts hsat ↦
      (satisfies_congr (stamp_eq_of_mem_shownEntries h hx hy hts)).symm.trans hsat
  have hiff := Newest.merged_kept_iff hkept (mem_keptEntries_of_satisfies h hstats) hcopies
  have hhidden : e.StaysHidden vortex stats schema table predicates ↔
      ∀ key x, (key, x) ∈ e.shownEntries vortex stats schema table →
        schema.satisfies predicates x = true →
          (∃ y, (key, y) ∈ e.shownEntries vortex stats schema table ∧ x.beginTs < y.beginTs) →
            ∃ y, (key, y) ∈ e.keptEntries vortex stats schema table predicates ∧
              x.beginTs < y.beginTs := by
    simp only [mem_shownEntries h, mem_keptEntries h]
    constructor
    · rintro hstays key x ⟨hunder, hx⟩ hsat ⟨y, ⟨-, hy⟩, hlt⟩
      obtain ⟨z, hz, hlt⟩ := hstays key x hunder hx hsat ⟨y, hy, hlt⟩
      exact ⟨z, ⟨hunder, hz⟩, hlt⟩
    · rintro hstays key x hunder hx hsat ⟨y, hy, hlt⟩
      obtain ⟨z, ⟨-, hz⟩, hlt⟩ := hstays key x ⟨hunder, hx⟩ hsat ⟨y, ⟨hunder, hy⟩, hlt⟩
      exact ⟨z, hz, hlt⟩
  rw [hhidden, ← hiff]
  constructor
  · intro hsubset key x hx hsat
    obtain ⟨value, hvalue, -⟩ := TableSchema.satisfies_eq_true.mp hsat
    have hstamp : x.stamp = (x.beginTs, some value) := congrArg (Prod.mk x.beginTs) hvalue
    obtain ⟨y, hy, hstamp', -⟩ := mem_matching.mp (hsubset (mem_matching.mpr ⟨x, hx, hstamp, hsat⟩))
    exact ⟨y, hy, congrArg Prod.fst hstamp'⟩
  · rintro hexposes ⟨key, ts, value⟩ hrow
    obtain ⟨x, hx, hstamp, hsat⟩ := mem_matching.mp hrow
    obtain ⟨y, hy, hts⟩ := hexposes key x hx hsat
    have hsame : y.stamp = x.stamp := stamp_eq_of_mem_shownEntries h
      (Newest.isNewest_of_merged hy).1 (hkept (Newest.isNewest_of_merged hx).1) hts
    exact mem_matching.mpr ⟨y, hy, hsame.trans hstamp, (satisfies_congr hsame).trans hsat⟩

theorem partitionFiles_eq_nil
    (hlevels : ∀ i, e.IsLive i → i ∈ e.versionSet.files 0) : e.partitionFiles = [] := by
  refine List.eq_nil_iff_forall_not_mem.mpr fun i hi ↦ ?_
  obtain ⟨level, hlevel, hmem, -⟩ := mem_partitionFiles.mp hi
  have hzero := h.versionSet.level_unique hmem (hlevels i ⟨level, hmem⟩)
  omega

theorem scanTableArrow_of_upper
    (hlevels : ∀ i, e.IsLive i → i ∈ e.versionSet.files 0) (vortex : VortexScan σ)
    (stats : ℕ → Option (TableColumnStats σ)) (schema : TableSchema σ)
    (fallback : Option (TableSchema σ)) (table : Bytes) (batchSize : ℕ+)
    (predicates : Option (List (ColumnPredicate σ))) :
    ∃ partitions, e.scanTableArrow vortex stats (some schema) fallback table batchSize predicates =
        .ok partitions ∧
      partitions.flatten.flatten = schema.liveRows (newestRows (e.mergedRows vortex stats schema
        table (namedPredicates (some schema) predicates))) := by
  have hscanned : e.scannedFiles stats schema table (predicates.getD []) = [] := by
    rw [scannedFiles, partitionFiles_eq_nil h hlevels, List.filter_nil, ite_self]
  have hscans : ∃ partitions, e.scanTableArrow vortex stats (some schema) fallback table batchSize
      predicates = .ok partitions := by
    refine (exists_scanTableArrow_iff rfl).mpr fun i hi ↦ ?_
    rw [hscanned] at hi
    cases hi
  obtain ⟨partitions, hscan⟩ := hscans
  refine ⟨partitions, hscan, ?_⟩
  rw [rows_of_scanTableArrow rfl hscan, hscanned, List.flatMap_nil, List.append_nil,
    mergedVisible_eq]

end

theorem survives_of_no_fields (hfields : schema.fields = []) (hunder : tablePrefix table <+: key)
    (h : e.UpperShows key x) : e.Survives vortex stats schema table predicates key x := by
  have hnone : predicatesWithFields predicates schema = [] := by
    simp [predicatesWithFields, hfields]
  obtain ⟨hsees, hmem | ⟨hdropped, i, hi, v, hv, rfl⟩⟩ := h
  · exact ⟨hsees, .inl hmem⟩
  · refine ⟨hsees, .inr ⟨hdropped, i, hi, ?_, ?_⟩⟩
    · rw [hnone]
      cases stats i <;> rfl
    · rw [hnone, fileScan, vortex.scanWithFilter_nil]
      exact mem_scanRows.mpr ⟨tablePrefix_prefix_iff.mp hunder, hsees, v, hv, rfl⟩

theorem nodup_matching (rows : List VersionedRow) : (matching schema predicates rows).Nodup :=
  (nodup_liveOnly (nodup_listed rows)).filter _

theorem filter_liveRows (hfields : schema.fields ≠ []) (rows : List VersionedRow) :
    ((schema.liveRows (newestRows rows)).filter fun row ↦ schema.rowMatches row predicates) =
      (matching schema predicates rows).map fun row ↦ schema.decode row.2.2 := by
  rw [liveRows_newestRows hfields, List.filter_map]
  rfl

/-- Pushdown changes a query exactly when a filter exposes a version. -/
theorem pushdownAgrees_iff (h : e.Inv) (hlevels : ∀ i, e.IsLive i → i ∈ e.versionSet.files 0)
    (hstats : e.StatsComputed schema table stats) :
    e.PushdownAgrees vortex stats schema fallback table batchSize predicates ↔
      e.StaysHidden vortex stats schema table predicates := by
  obtain ⟨filtered, hfiltered, hfilteredRows⟩ :=
    scanTableArrow_of_upper h hlevels vortex stats schema fallback table batchSize (some predicates)
  obtain ⟨all, hall, hallRows⟩ :=
    scanTableArrow_of_upper h hlevels vortex stats schema fallback table batchSize none
  have hperm : e.PushdownAgrees vortex stats schema fallback table batchSize predicates ↔
      (filtered.flatten.flatten.filter fun row ↦ schema.rowMatches row predicates).Perm
        (all.flatten.flatten.filter fun row ↦ schema.rowMatches row predicates) := by
    constructor
    · rintro ⟨filtered', all', hfiltered', hall', hperm⟩
      cases hfiltered.symm.trans hfiltered'
      cases hall.symm.trans hall'
      exact hperm
    · exact fun hperm ↦ ⟨filtered, all, hfiltered, hall, hperm⟩
  rw [hperm, hfilteredRows, hallRows]
  by_cases hfields : schema.fields = []
  · refine iff_of_true ?_ fun key x hunder hx hsat ⟨y, hy, hlt⟩ ↦
      ⟨y, survives_of_no_fields hfields hunder hy, hlt⟩
    rw [TableSchema.liveRows, TableSchema.liveRows, if_pos hfields, if_pos hfields]
  · rw [filter_liveRows hfields, filter_liveRows hfields]
    exact (Enumeration.map_perm_map_iff_subset (nodup_matching _) (nodup_matching _)
      (matching_shown_subset h hstats)).trans (matching_kept_subset_iff h hstats)

def allStats (e : Engine) (schema : TableSchema σ) (table : Bytes) (fileId : ℕ) :
    Option (TableColumnStats σ) :=
  some (TableColumnStats.compute schema table (e.rowsOf fileId))

omit [DecidableEq σ] [DecidableLE σ] in
theorem statsComputed_allStats (e : Engine) (schema : TableSchema σ) (table : Bytes) :
    e.StatsComputed schema table (e.allStats schema table) :=
  fun _ _ hcached ↦ (Option.some.inj hcached).symm

end Engine

namespace LoggedEngine

/-- While all files are at level 0, pushdown leaves every query as it is exactly
when no filter exposes a hidden version. -/
theorem pushdown_iff {σ : Type*} [PartialOrder σ] [DecidableEq σ] [DecidableLT σ] [DecidableLE σ]
    {ops : List TableOp} {st : LoggedEngine}
    (hrun : run tableStep initial ops = some st)
    (hlevels : ∀ i, st.engine.IsLive i → i ∈ st.engine.versionSet.files 0)
    (schema : TableSchema σ) {table : Bytes} {stats : ℕ → Option (TableColumnStats σ)}
    (hstats : st.engine.StatsComputed schema table stats) (vortex : VortexScan σ)
    (fallback : Option (TableSchema σ)) (batchSize : ℕ+) (predicates : List (ColumnPredicate σ)) :
    st.engine.PushdownAgrees vortex stats schema fallback table batchSize predicates ↔
      st.engine.StaysHidden vortex stats schema table predicates :=
  Engine.pushdownAgrees_iff (engine_inv_of_run hrun) hlevels hstats

def changedAfterFlush (change : Mutation) : List TableOp :=
  [.call (.write 1 [.put [116, 0, 1] [1]]), .call (.flush Engine.plainEnv 1000),
    .call (.write 2 [change])]

/-- A change in the memtable hides the old row from the filters. -/
theorem pushdown_iff_changedAfterFlush :
    ∃ st, run tableStep initial (changedAfterFlush (.put [116, 0, 1] [2])) = some st ∧
      st.engine.StaysHidden .exact (st.engine.allStats (byteSchema true) [116]) (byteSchema true)
        [116] [.eq 0 2] := by
  have hplain : ∀ op ∈ changedAfterFlush (.put [116, 0, 1] [2]), op.Plain := by decide
  obtain ⟨st, hrun, hengine⟩ := initial.exists_run_plain hplain
  have hfiles : ∀ i ∈ st.engine.levelFiles, i ∈ st.engine.versionSet.files 0 := by
    rw [hengine]
    decide
  refine ⟨st, hrun, (pushdown_iff hrun (fun i hi ↦ hfiles i (Engine.mem_levelFiles.mpr hi))
    (byteSchema true) (st.engine.statsComputed_allStats _ _) .exact none 100 [.eq 0 2]).mp ?_⟩
  refine ⟨[[[[3]]]], [[[[3]]]], ?_, ?_, by decide⟩
  · rw [hengine]
    decide
  · rw [hengine]
    decide

theorem exists_not_pushdownAgrees {ops : List TableOp} {schema : TableSchema ℕ} {table : Bytes}
    {predicates : List (ColumnPredicate ℕ)} (filtered all : List (List (List (List ℕ))))
    (hplain : ∀ op ∈ ops, op.Plain)
    (hfiles : ∀ i ∈ (ops.foldl Engine.execTable Engine.initial).levelFiles,
      i ∈ (ops.foldl Engine.execTable Engine.initial).versionSet.files 0)
    (hfiltered : (ops.foldl Engine.execTable Engine.initial).scanTableArrow .exact
      ((ops.foldl Engine.execTable Engine.initial).allStats schema table) (some schema) none table
      100 (some predicates) = .ok filtered)
    (hall : (ops.foldl Engine.execTable Engine.initial).scanTableArrow .exact
      ((ops.foldl Engine.execTable Engine.initial).allStats schema table) (some schema) none table
      100 none = .ok all)
    (hdiffers : ¬(filtered.flatten.flatten.filter fun row ↦ schema.rowMatches row predicates).Perm
      (all.flatten.flatten.filter fun row ↦ schema.rowMatches row predicates)) :
    ∃ st, run tableStep initial ops = some st ∧
      (∀ i, st.engine.IsLive i → i ∈ st.engine.versionSet.files 0) ∧
      st.engine.StatsComputed schema table (st.engine.allStats schema table) ∧
      ¬st.engine.PushdownAgrees .exact (st.engine.allStats schema table) schema none table 100
        predicates := by
  obtain ⟨st, hrun, hengine⟩ := initial.exists_run_plain hplain
  rw [show initial.engine = Engine.initial from rfl] at hengine
  rw [← hengine] at hfiles hfiltered hall
  refine ⟨st, hrun, fun i hi ↦ hfiles i (Engine.mem_levelFiles.mpr hi),
    st.engine.statsComputed_allStats _ _, ?_⟩
  rintro ⟨filtered', all', hfiltered', hall', hperm⟩
  cases hfiltered.symm.trans hfiltered'
  cases hall.symm.trans hall'
  exact hdiffers hperm

/-- Once the change is flushed too, the filter drops it and the old row comes back:
an overwritten one, and a deleted one. -/
theorem pushdown_exposes_old_rows :
    (∃ st, run tableStep initial (changedAfterFlush (.put [116, 0, 1] [2]) ++
          [.call (.flush Engine.plainEnv 1000)]) = some st ∧
      (∀ i, st.engine.IsLive i → i ∈ st.engine.versionSet.files 0) ∧
      st.engine.StatsComputed (byteSchema true) [116]
        (st.engine.allStats (byteSchema true) [116]) ∧
      ¬st.engine.PushdownAgrees .exact (st.engine.allStats (byteSchema true) [116])
        (byteSchema true) none [116] 100 [.eq 0 2]) ∧
    ∃ st, run tableStep initial (changedAfterFlush (.delete [116, 0, 1]) ++
          [.call (.flush Engine.plainEnv 1000)]) = some st ∧
      (∀ i, st.engine.IsLive i → i ∈ st.engine.versionSet.files 0) ∧
      st.engine.StatsComputed (byteSchema true) [116]
        (st.engine.allStats (byteSchema true) [116]) ∧
      ¬st.engine.PushdownAgrees .exact (st.engine.allStats (byteSchema true) [116])
        (byteSchema true) none [116] 100 [.eq 0 2] := by
  have hrows : ¬(([[[[2]]]] : List (List (List (List ℕ)))).flatten.flatten.filter fun row ↦
      (byteSchema true).rowMatches row [.eq 0 2]).Perm [] := by decide
  constructor
  · exact exists_not_pushdownAgrees [[[[2]]]] [[[[3]]]] (by decide) (by decide) (by decide)
      (by decide) hrows
  · exact exists_not_pushdownAgrees [[[[2]]]] [[[]]] (by decide) (by decide) (by decide)
      (by decide) hrows

end LoggedEngine

end HatP
